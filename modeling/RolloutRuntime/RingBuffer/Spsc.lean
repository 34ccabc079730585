import RolloutRuntime.Concurrency.RelyGuarantee
import RolloutRuntime.RingBuffer.Contents

/-!
# Single-producer single-consumer ring buffers

The memory of a ring buffer is accessed by single loads and stores of its indices and slots. The two
ends are programs of such accesses. The producer end reserves room for `n` elements by comparing
the two indices, writes the slots, and publishes them by one store of its index; the consumer end
compares the indices, copies one slot and stores its index. Rings differ in the order of the two
index loads, in the tests for room and for emptiness, in whether a refusal is counted, and in
whether the producer index is read again before it is stored; these are parameters.

With one producer and one consumer the two ends obey the discipline `spsc`, whatever the order of
their accesses: the producer decides on a copy of the consumer index that may be out of date, which
only makes the free room look smaller, and conversely.

## Main definitions

* `Ring`, `Op`, `Op.effect`: the memory of a ring and its atomic accesses. The lists `published` and
  `taken` are a history; no program reads them.
* `reserve`, `push`, `acquire`, `fill`, `commit`, `submit`, `consume`: the programs of the two ends.
* `Side`, `spsc`, `guarded`: the discipline of one producer and one consumer.
* `RoomSound`, `EmptySound`: what the two tests have to ensure.

## Main results

* `reserve_ok`, `push_ok`, `submit_ok`, `consume_ok`: the programs of the two ends obey `spsc`.
* `not_live_of_may_write`: a permitted write hits no slot of a published element not yet taken.
* `push_trace_refused`, `submit_trace_refused`: the steps of a refused push.
-/

namespace RingBuffer

open Concurrency Concurrency.Prog

variable {w k : ℕ} {α : Type}

/-! ### The memory and the accesses -/

/-- The memory of a ring of `2 ^ k` slots with `w`-bit indices, a counter of refusals, and the
history of the elements published and taken. -/
structure Ring (w k : ℕ) (α : Type) where
  prod : BitVec w
  cons : BitVec w
  slots : Fin (2 ^ k) → α
  overflow : BitVec 32
  published : List α
  taken : List α

/-- The ring with all memory zeroed, `z` being the zeroed element. -/
def Ring.zeroed (w k : ℕ) (z : α) : Ring w k α := ⟨0, 0, fun _ => z, 0, [], []⟩

/-- The ring with given indices and slots, and a history that leads there: at every position the element
that its slot holds was published. -/
def Ring.ofState (prod cons : BitVec w) (slots : Fin (2 ^ k) → α) : Ring w k α where
  prod := prod
  cons := cons
  slots := slots
  overflow := 0
  published := (List.range (cons.toNat + (prod - cons).toNat)).map fun n => slots (pos k n)
  taken := (List.range cons.toNat).map fun n => slots (pos k n)

/-- The atomic accesses to a ring. A store of an index also names the elements it publishes or takes,
for the history. -/
inductive Op (w : ℕ) (α : Type) : Type
  | loadProd
  | loadCons
  | readSlot (i : BitVec w)
  | writeSlot (i : BitVec w) (a : α)
  | storeProd (v : BitVec w) (ds : List α)
  | storeCons (v : BitVec w) (d : α)
  | countOverflow

/-- The effect of an access. -/
def Op.effect : Op w α → Ring w k α → Ring w k α
  | .loadProd, r => r
  | .loadCons, r => r
  | .readSlot _, r => r
  | .writeSlot i a, r => { r with slots := Function.update r.slots (mask k i) a }
  | .storeProd v ds, r => { r with prod := v, published := r.published ++ ds }
  | .storeCons v d, r => { r with cons := v, taken := r.taken ++ [d] }
  | .countOverflow, r => { r with overflow := r.overflow + 1 }

theorem Op.published_le (o : Op w α) (r : Ring w k α) : r.published <+: (o.effect r).published := by
  cases o with
  | storeProd v ds => exact List.prefix_append _ _
  | loadProd | loadCons | readSlot | writeSlot | storeCons | countOverflow => exact List.prefix_rfl

/-- The access counts a refusal. -/
def Op.isCount : Op w α → Bool
  | .countOverflow => true
  | _ => false

/-- The access is a load, or counts a refusal: it leaves both indices and all slots alone. -/
def Op.Quiet (o : Op w α) (r : Ring w k α) : Prop :=
  o.effect r = if o.isCount then { r with overflow := r.overflow + 1 } else r

/-! ### The two ends -/

/-- The variants of a producer end. -/
structure Producer (w : ℕ) where
  /-- The producer loads its own index before the consumer index. -/
  ownFirst : Bool
  /-- There is no room for `n` elements, given the producer and the consumer index. -/
  noRoom : BitVec w → BitVec w → BitVec w → Bool
  /-- A refusal is counted. -/
  counts : Bool

/-- The producer and the consumer index, loaded in the given order. -/
def loadIndices (ownFirst : Bool) : Prog (Op w α) (Ring w k α) (BitVec w × BitVec w) :=
  if ownFirst then do
    let p ← load .loadProd (·.prod)
    let c ← load .loadCons (·.cons)
    return (p, c)
  else do
    let c ← load .loadCons (·.cons)
    let p ← load .loadProd (·.prod)
    return (p, c)

/-- Reserve room for `n` elements: the producer index, or `none` if there is no room. -/
def reserve (P : Producer w) (n : BitVec w) : Prog (Op w α) (Ring w k α) (Option (BitVec w)) := do
  let (p, c) ← loadIndices P.ownFirst
  if P.noRoom p c n then
    if P.counts then exec .countOverflow
    return none
  return some p

/-- Push one element; `false` if there is no room. -/
def push (P : Producer w) (a : α) : Prog (Op w α) (Ring w k α) Bool := do
  match ← reserve P 1 with
  | none => return false
  | some p =>
    exec (.writeSlot p a)
    exec (.storeProd (p + 1) [a])
    return true

/-- Reserve room for `n` elements: the first slot, or `none` if there is no room. -/
def acquire (P : Producer w) (n : BitVec w) : Prog (Op w α) (Ring w k α) (Option (BitVec w)) := do
  let r ← reserve P n
  return r.map (· &&& BitVec.ofNat w (2 ^ k - 1))

/-- Write elements to the slots from `at` on. -/
def fill : BitVec w → List α → Prog (Op w α) (Ring w k α) Unit
  | _, [] => return ()
  | i, d :: ds => do
    exec (.writeSlot i d)
    fill (i + 1) ds

/-- Publish `n` elements `ds`, written before, by advancing the producer index. -/
def commit (n : BitVec w) (ds : List α) : Prog (Op w α) (Ring w k α) Unit := do
  let p ← load .loadProd (·.prod)
  exec (.storeProd (p + n) ds)

/-- Acquire room for `ds`, write it and commit it; `false` if there is no room. -/
def submit (P : Producer w) (ds : List α) : Prog (Op w α) (Ring w k α) Bool := do
  match ← acquire P (BitVec.ofNat w ds.length) with
  | none => return false
  | some i =>
    fill i ds
    commit (BitVec.ofNat w ds.length) ds
    return true

/-- Take the oldest element; `none` if the ring is empty. The test is given the consumer and the
producer index. -/
def consume (isEmpty : BitVec w → BitVec w → Bool) : Prog (Op w α) (Ring w k α) (Option α) := do
  let c ← load .loadCons (·.cons)
  let p ← load .loadProd (·.prod)
  if isEmpty c p then return none
  let d ← load (.readSlot c) fun r => r.slots (mask k c)
  exec (.storeCons (c + 1) d)
  return some d

theorem consume_eq (isEmpty : BitVec w → BitVec w → Bool) :
    (consume isEmpty : Prog (Op w α) (Ring w k α) (Option α)) =
      .act .loadCons fun r => .act .loadProd fun r' =>
        if isEmpty r.cons r'.prod then .ret none
        else .act (.readSlot r.cons) fun r'' =>
          .act (.storeCons (r.cons + 1) (r''.slots (mask k r.cons))) fun _ =>
            .ret (some (r''.slots (mask k r.cons))) := by
  refine congrArg (act Op.loadCons) (funext fun r => congrArg (act Op.loadProd) (funext fun r' => ?_))
  change (if isEmpty r.cons r'.prod then ret none else _) = _
  split_ifs <;> rfl

/-! ### The discipline of one producer and one consumer -/

/-- The two ends of a ring. -/
inductive Side
  | producer
  | consumer
  deriving DecidableEq

/-- The invariant of a ring. -/
def Ring.Inv (r : Ring w k α) : Prop := Contents k r.prod r.cons r.slots r.published r.taken

theorem Ring.zeroed_inv (z : α) : (Ring.zeroed w k z).Inv := Contents.zero _

/-- Every state of the indices that fits the ring is one of the states the ring can be in. -/
theorem Ring.ofState_inv {prod cons : BitVec w} {slots : Fin (2 ^ k) → α}
    (h : (prod - cons).toNat ≤ 2 ^ k) : (Ring.ofState prod cons slots).Inv where
  prod_eq := by
    rw [Ring.ofState, List.length_map, List.length_range, BitVec.ofNat_add, BitVec.ofNat_toNat,
      BitVec.ofNat_toNat, BitVec.setWidth_eq, BitVec.setWidth_eq, BitVec.add_comm,
      BitVec.sub_add_cancel]
  cons_eq := by
    rw [Ring.ofState, List.length_map, List.length_range, BitVec.ofNat_toNat, BitVec.setWidth_eq]
  taken_le := by
    rw [Ring.ofState, List.range_add, List.map_append]
    exact List.prefix_append _ _
  bound := by
    simpa [Ring.ofState] using h
  live n _ hn := by
    rw [Ring.ofState, List.length_map, List.length_range] at hn
    rw [Ring.ofState, List.getElem?_map, List.getElem?_range hn, Option.map_some]

/-- What an end relies on: the other end never touches its index, the producer only publishes and
the consumer only takes. -/
def Rely : Side → Ring w k α → Ring w k α → Prop
  | .producer, r, r' => r'.prod = r.prod ∧ r'.slots = r.slots ∧ r'.overflow = r.overflow ∧
      r'.published = r.published ∧ r.taken <+: r'.taken
  | .consumer, r, r' => r'.cons = r.cons ∧ r'.taken = r.taken ∧ r.published <+: r'.published

/-- The elements `ds` lie in the slots that follow the published ones. -/
def Staged (r : Ring w k α) (ds : List α) : Prop :=
  ∀ j, j < ds.length → ds[j]? = some (r.slots (pos k (r.published.length + j)))

/-- The accesses an end may make, where the producer may only publish what keeps `G` true of the
elements published. -/
def May (G : List α → Prop) : Side → Op w α → Ring w k α → Prop
  | _, .loadProd, _ => True
  | _, .loadCons, _ => True
  | _, .readSlot _, _ => True
  | .producer, .writeSlot i _, r =>
      ∃ n, mask k i = pos k n ∧ r.published.length ≤ n ∧ n < r.taken.length + 2 ^ k
  | .producer, .storeProd v ds, r => v = r.prod + BitVec.ofNat w ds.length ∧
      r.published.length + ds.length ≤ r.taken.length + 2 ^ k ∧ Staged r ds ∧
      G (r.published ++ ds)
  | .producer, .countOverflow, _ => True
  | .consumer, .storeCons v d, r => v = r.cons + 1 ∧ r.published[r.taken.length]? = some d
  | _, _, _ => False

theorem Rely.refl (i : Side) (r : Ring w k α) : Rely i r r := by
  cases i with
  | producer => exact ⟨rfl, rfl, rfl, rfl, List.prefix_rfl⟩
  | consumer => exact ⟨rfl, rfl, List.prefix_rfl⟩

theorem Rely.trans {i : Side} {r r' r'' : Ring w k α} (h : Rely i r r') (h' : Rely i r' r'') :
    Rely i r r'' := by
  cases i with
  | producer =>
    obtain ⟨hp, hs, ho, hl, ht⟩ := h
    obtain ⟨hp', hs', ho', hl', ht'⟩ := h'
    exact ⟨hp'.trans hp, hs'.trans hs, ho'.trans ho, hl'.trans hl, ht.trans ht'⟩
  | consumer =>
    obtain ⟨hc, ht, hl⟩ := h
    obtain ⟨hc', ht', hl'⟩ := h'
    exact ⟨hc'.trans hc, ht'.trans ht, hl.trans hl'⟩

section Rely

variable {r r' : Ring w k α}

theorem Rely.prod_eq (h : Rely .producer r r') : r'.prod = r.prod := h.1

theorem Rely.slots_eq (h : Rely .producer r r') : r'.slots = r.slots := h.2.1

theorem Rely.overflow_eq (h : Rely .producer r r') : r'.overflow = r.overflow := h.2.2.1

theorem Rely.published_eq (h : Rely .producer r r') : r'.published = r.published := h.2.2.2.1

theorem Rely.taken_isPrefix (h : Rely .producer r r') : r.taken <+: r'.taken := h.2.2.2.2

theorem Rely.cons_eq (h : Rely .consumer r r') : r'.cons = r.cons := h.1

theorem Rely.taken_eq (h : Rely .consumer r r') : r'.taken = r.taken := h.2.1

theorem Rely.published_isPrefix (h : Rely .consumer r r') : r.published <+: r'.published := h.2.2

end Rely

section May

variable {G : List α → Prop} {i : Side} {o : Op w α} {r : Ring w k α}

theorem May.inv (h : May G i o r) (hr : r.Inv) : (o.effect r).Inv := by
  cases o with
  | loadProd | loadCons | readSlot => exact hr
  | writeSlot j a =>
    cases i with
    | producer =>
      obtain ⟨n, hj, hn, hn'⟩ := h
      simp only [Op.effect, Ring.Inv, hj]
      exact Contents.write hr hn hn' a
    | consumer => exact h.elim
  | storeProd v ds =>
    cases i with
    | producer =>
      obtain ⟨rfl, hroom, hds, -⟩ := h
      exact Contents.publish hr hroom hds
    | consumer => exact h.elim
  | storeCons v d =>
    cases i with
    | producer => exact h.elim
    | consumer =>
      obtain ⟨rfl, hd⟩ := h
      exact Contents.take hr hd
  | countOverflow =>
    cases i with
    | producer => exact hr
    | consumer => exact h.elim

/-- The producer does what the consumer relies on. -/
theorem May.rely_consumer (h : May G .producer o r) : Rely .consumer r (o.effect r) := by
  cases o with
  | storeProd v ds => exact ⟨rfl, rfl, List.prefix_append _ _⟩
  | storeCons v d => exact h.elim
  | loadProd | loadCons | readSlot | writeSlot | countOverflow => exact ⟨rfl, rfl, List.prefix_rfl⟩

/-- The consumer does what the producer relies on. -/
theorem May.rely_producer (h : May G .consumer o r) : Rely .producer r (o.effect r) := by
  cases o with
  | storeCons v d => exact ⟨rfl, rfl, rfl, rfl, List.prefix_append _ _⟩
  | writeSlot | storeProd | countOverflow => exact h.elim
  | loadProd | loadCons | readSlot => exact Rely.refl _ _

theorem May.mono {G' : List α → Prop} (h : May G i o r) (hG : ∀ l, G l → G' l) : May G' i o r := by
  cases o with
  | storeProd v ds =>
    cases i with
    | producer => exact ⟨h.1, h.2.1, h.2.2.1, hG _ h.2.2.2⟩
    | consumer => exact h.elim
  | loadProd | loadCons | readSlot => trivial
  | writeSlot | storeCons | countOverflow => cases i <;> exact h

theorem May.published (h : May G i o r) :
    (o.effect r).published = r.published ∨ G (o.effect r).published := by
  cases o with
  | storeProd v ds =>
    cases i with
    | producer => exact Or.inr h.2.2.2
    | consumer => exact h.elim
  | loadProd | loadCons | readSlot | writeSlot | storeCons | countOverflow => exact Or.inl rfl

theorem May.guard (h : May G i o r) (hr : G r.published) : G (o.effect r).published := by
  rcases h.published with hsame | hguard
  · rwa [hsame]
  · exact hguard

end May

/-- Anything may be published. -/
abbrev unguarded (α : Type) : List α → Prop := fun _ => True

/-- The discipline of one producer and one consumer, what is published being guarded by `G`. -/
def spsc (w k : ℕ) (G : List α → Prop) : Discipline Side (Op w α) (Ring w k α) where
  effect := Op.effect
  inv := Ring.Inv
  rely := Rely
  cond _ _ _ := True
  may := May G
  rely_refl := Rely.refl
  rely_trans _ _ _ _ := Rely.trans
  inv_effect hr _ h := h.inv hr
  rely_effect {i j _ _} hij _ _ h := by
    cases i with
    | producer =>
      cases j with
      | producer => exact absurd rfl hij
      | consumer => exact h.rely_consumer
    | consumer =>
      cases j with
      | producer => exact h.rely_producer
      | consumer => exact absurd rfl hij

/-- The same discipline, with the guard as a part of the invariant. -/
def guarded (w k : ℕ) (G : List α → Prop) : Discipline Side (Op w α) (Ring w k α) where
  effect := Op.effect
  inv r := r.Inv ∧ G r.published
  rely := Rely
  cond _ _ _ := True
  may := May G
  rely_refl := Rely.refl
  rely_trans _ _ _ _ := Rely.trans
  inv_effect hr _ h := ⟨h.inv hr.1, h.guard hr.2⟩
  rely_effect hij hr hc h := (spsc w k G).rely_effect hij hr.1 hc h

/-- What obeys the discipline obeys it with the guard in the invariant. -/
theorem ok_guarded {β : Type} {G : List α → Prop} {i : Side} {Q : β → Ring w k α → Prop}
    {p : Prog (Op w α) (Ring w k α) β} {r : Ring w k α} (h : (spsc w k G).Ok i Q p r) :
    (guarded w k G).Ok i Q p r :=
  h.transfer (guarded w k G) rfl (fun _ hr => hr.1) (fun _ _ hr => hr) (fun _ _ _ => trivial)
    fun _ _ hm => hm

/-- A permitted write hits no slot of an element published and not yet taken. -/
theorem not_live_of_may_write {G : List α → Prop} {i : BitVec w} {a : α} {r : Ring w k α}
    (h : May G .producer (.writeSlot i a) r) {n : ℕ} (hn : r.taken.length ≤ n)
    (hn' : n < r.published.length) : mask k i ≠ pos k n := by
  obtain ⟨m, hm, hm', hm''⟩ := h
  rw [hm]
  exact (pos_ne_pos (by omega) (by omega)).symm

/-! ### The programs of the two ends obey the discipline -/

/-- The test for room is sound at `n`: if it finds room for `n` elements, they fit. -/
def RoomSound (k : ℕ) (P : Producer w) (n : BitVec w) : Prop :=
  ∀ p c, (p - c).toNat ≤ 2 ^ k → P.noRoom p c n = false → (p - c).toNat + n.toNat ≤ 2 ^ k

/-- The test for emptiness is sound: if it finds an element, the indices differ. -/
def EmptySound (isEmpty : BitVec w → BitVec w → Bool) : Prop :=
  ∀ c p, isEmpty c p = false → c ≠ p

section Producer

variable {G : List α → Prop} {P : Producer w} {r₀ : Ring w k α}

/-- The producer has done nothing since `r₀`. -/
def Untouched (r₀ r : Ring w k α) : Prop :=
  r.prod = r₀.prod ∧ r.slots = r₀.slots ∧ r.overflow = r₀.overflow ∧ r.published = r₀.published

theorem Rely.untouched {r r' : Ring w k α} (h : Rely .producer r r') (hr : Untouched r₀ r) :
    Untouched r₀ r' := by
  obtain ⟨hp, hs, ho, hl, -⟩ := h
  obtain ⟨hp', hs', ho', hl'⟩ := hr
  exact ⟨hp.trans hp', hs.trans hs', ho.trans ho', hl.trans hl'⟩

/-- The two loads give the producer index, and the consumer index at some moment: the elements taken
by then are still counted as taken. -/
theorem loadIndices_ok (b : Bool) {r : Ring w k α} (hr : Untouched r₀ r) :
    (spsc w k G).Ok .producer
      (fun pc r => Untouched r₀ r ∧ pc.1 = r.prod ∧ ∃ m, pc.2 = BitVec.ofNat w m ∧
        m ≤ r.taken.length ∧ m ≤ r.published.length ∧ r.published.length ≤ m + 2 ^ k)
      (loadIndices b) r := by
  cases b with
  | true =>
    intro r₁ h₁ _ _
    refine ⟨trivial, fun r₂ h₂ i₂ _ => ⟨trivial, fun r₃ h₃ _ => ?_⟩⟩
    have hu₂ := h₂.untouched (h₁.untouched hr)
    refine ⟨h₃.untouched hu₂, (h₃.prod_eq.trans h₂.prod_eq).symm, r₂.taken.length, i₂.cons_eq, ?_, ?_, ?_⟩
    · exact h₃.taken_isPrefix.length_le
    · rw [h₃.published_eq]
      exact i₂.length_le
    · rw [h₃.published_eq]
      exact i₂.bound
  | false =>
    intro r₁ h₁ i₁ _
    refine ⟨trivial, fun r₂ h₂ _ _ => ⟨trivial, fun r₃ h₃ _ => ?_⟩⟩
    have hu₂ := h₂.untouched (h₁.untouched hr)
    have hl : r₃.published = r₁.published := h₃.published_eq.trans h₂.published_eq
    refine ⟨h₃.untouched hu₂, h₃.prod_eq.symm, r₁.taken.length, i₁.cons_eq, ?_, ?_, ?_⟩
    · exact (h₂.taken_isPrefix.trans h₃.taken_isPrefix).length_le
    · rw [hl]
      exact i₁.length_le
    · rw [hl]
      exact i₁.bound

/-- The refusals counted by one reservation. -/
def refusals (P : Producer w) (refused : Bool) : BitVec 32 := if refused && P.counts then 1 else 0

/-- **Reserving room.** A granted reservation leaves the ring alone and the room is really there; a
refused one changes nothing but the counter. -/
theorem reserve_ok (hk : k < w) {n : BitVec w} (hP : RoomSound k P n) {r : Ring w k α}
    (hi : r.Inv) :
    (spsc w k G).Ok .producer
      (fun x r' => r'.prod = r.prod ∧ r'.slots = r.slots ∧ r'.published = r.published ∧
        r'.overflow = r.overflow + refusals P x.isNone ∧
        ∀ p, x = some p → p = r.prod ∧ r.published.length + n.toNat ≤ r'.taken.length + 2 ^ k)
      (reserve P n) r := by
  refine Discipline.ok_bind _ hi (loadIndices_ok P.ownFirst ⟨rfl, rfl, rfl, rfl⟩) ?_
  rintro ⟨p, c⟩ r₁ i₁ ⟨⟨hp₁, hs₁, ho₁, hl₁⟩, hp, m, hc, hm, hml, hmb⟩
  dsimp only at hp hc ⊢
  by_cases hroom : P.noRoom p c n = true
  · rw [if_pos hroom]
    by_cases hcount : P.counts = true
    · rw [if_pos hcount]
      intro r₂ h₂ _ _
      refine ⟨trivial, fun r₃ h₃ _ => ?_⟩
      refine ⟨h₃.prod_eq.trans (h₂.prod_eq.trans hp₁), h₃.slots_eq.trans (h₂.slots_eq.trans hs₁),
        h₃.published_eq.trans (h₂.published_eq.trans hl₁), ?_, fun p h => by simp at h⟩
      rw [h₃.overflow_eq]
      simp only [spsc, Op.effect, refusals, hcount, h₂.overflow_eq, ho₁, Option.isNone_none, Bool.and_self,
        if_true]
    · rw [if_neg hcount]
      intro r₂ h₂ _
      refine ⟨h₂.prod_eq.trans hp₁, h₂.slots_eq.trans hs₁, h₂.published_eq.trans hl₁, ?_,
        fun p h => by simp at h⟩
      simp [refusals, hcount, h₂.overflow_eq, ho₁]
  · rw [if_neg hroom]
    intro r₂ h₂ _
    refine ⟨h₂.prod_eq.trans hp₁, h₂.slots_eq.trans hs₁, h₂.published_eq.trans hl₁, ?_, ?_⟩
    · simp [refusals, h₂.overflow_eq, ho₁]
    · rintro p' hp'
      obtain rfl : p = p' := by simpa using hp'
      refine ⟨hp.trans hp₁, ?_⟩
      -- the copy of the consumer index is that of `m` taken elements, at most those taken by now
      have hpow := Nat.pow_lt_pow_right (a := 2) (by decide) hk
      have hpos := Nat.two_pow_pos k
      have hsub : (p - c).toNat = r₁.published.length - m := by
        rw [hp, hc, i₁.prod_eq]
        exact toNat_ofNat_sub_ofNat hml (by omega)
      have hfit := hP p c (by omega) (by simpa using hroom)
      have htaken := h₂.taken_isPrefix.length_le
      rw [hl₁] at hsub hml
      omega

/-- **Pushing one element.** -/
theorem push_ok (hk : k < w) (hP : RoomSound k P 1) {a : α} {r : Ring w k α} (hi : r.Inv)
    (hG : G (r.published ++ [a])) :
    (spsc w k G).Ok .producer
      (fun x r' => r'.published = r.published ++ (if x then [a] else []) ∧
        r'.overflow = r.overflow + refusals P !x)
      (push P a) r := by
  have hw : (1 : BitVec w).toNat = 1 := by
    change (BitVec.ofNat w 1).toNat = 1
    rw [BitVec.toNat_ofNat, Nat.mod_eq_of_lt (Nat.one_lt_two_pow (by omega))]
  refine Discipline.ok_bind _ hi (reserve_ok hk hP hi) ?_
  rintro x r₁ i₁ ⟨hp₁, hs₁, hl₁, ho₁, hx⟩
  cases x with
  | none =>
    intro r₂ h₂ _
    refine ⟨?_, ?_⟩
    · simpa using h₂.published_eq.trans hl₁
    · rw [h₂.overflow_eq, ho₁]
      rfl
  | some p =>
    obtain ⟨rfl, hroom⟩ := hx p rfl
    intro r₂ h₂ i₂ _
    have hl₂ : r₂.published = r.published := h₂.published_eq.trans hl₁
    have ht₂ := h₂.taken_isPrefix.length_le
    have hmask : mask k r.prod = pos k r₂.published.length := by
      rw [hi.prod_eq, mask_ofNat hk.le, hl₂]
    refine ⟨⟨_, hmask, le_rfl, by rw [hl₂]; omega⟩, fun r₃ h₃ i₃ _ => ⟨⟨?_, ?_, ?_, ?_⟩, ?_⟩⟩
    · rw [h₃.prod_eq]
      simp only [spsc, Op.effect, h₂.prod_eq, hp₁, List.length_singleton]
      rfl
    · have ht₃ := h₃.taken_isPrefix.length_le
      rw [h₃.published_eq]
      simp only [spsc, Op.effect, hl₂, List.length_singleton] at ht₃ ⊢
      omega
    · intro j hj
      obtain rfl : j = 0 := by simpa using hj
      rw [h₃.slots_eq, h₃.published_eq]
      simp only [spsc, Op.effect, hmask, Nat.add_zero, Function.update_self]
      rfl
    · rw [h₃.published_eq]
      simpa only [spsc, Op.effect, hl₂] using hG
    · intro r₄ h₄ _
      refine ⟨?_, ?_⟩
      · rw [h₄.published_eq]
        simp only [spsc, Op.effect, h₃.published_eq, hl₂, if_true]
      · rw [h₄.overflow_eq]
        simp only [spsc, Op.effect, h₃.overflow_eq, h₂.overflow_eq, ho₁]
        rfl

theorem fill_ok (hk : k ≤ w) (ds done : List α) {i : BitVec w} {r : Ring w k α}
    (hdone : Staged r done) (hi : mask k i = pos k (r.published.length + done.length))
    (hroom : r.published.length + done.length + ds.length ≤ r.taken.length + 2 ^ k) :
    (spsc w k G).Ok .producer
      (fun _ r' => r'.prod = r.prod ∧ r'.published = r.published ∧ r'.overflow = r.overflow ∧
        Staged r' (done ++ ds) ∧ r.taken <+: r'.taken)
      (fill i ds) r := by
  induction ds generalizing done i r with
  | nil =>
    intro r₁ h₁ _
    refine ⟨h₁.prod_eq, h₁.published_eq, h₁.overflow_eq, fun j hj => ?_, h₁.taken_isPrefix⟩
    rw [List.append_nil] at hj ⊢
    rw [h₁.slots_eq, h₁.published_eq]
    exact hdone j hj
  | cons d ds ih =>
    intro r₁ h₁ i₁ _
    have ht₁ := h₁.taken_isPrefix.length_le
    have hle₁ := i₁.length_le
    rw [List.length_cons] at hroom
    have hi₁ : mask k i = pos k (r₁.published.length + done.length) := by rw [h₁.published_eq, hi]
    refine ⟨⟨_, hi₁, by omega, by rw [h₁.published_eq]; omega⟩, ?_⟩
    have hstaged : Staged ((spsc w k G).effect (.writeSlot i d) r₁) (done ++ [d]) := by
      intro j hj
      simp only [spsc, Op.effect, hi₁]
      rw [List.length_append, List.length_singleton] at hj
      rcases Nat.lt_or_ge j done.length with hlt | hge
      · have hne := pos_ne_pos (k := k) (m := r₁.published.length + j)
          (n := r₁.published.length + done.length) (by omega) (by rw [h₁.published_eq] at hle₁ ⊢; omega)
        rw [List.getElem?_append_left hlt, Function.update_of_ne hne, h₁.slots_eq, h₁.published_eq]
        exact hdone j hlt
      · obtain rfl : j = done.length := by omega
        rw [List.getElem?_append_right le_rfl, Function.update_self, Nat.sub_self]
        rfl
    have hnext : mask k (i + 1) = pos k (((spsc w k G).effect (.writeSlot i d) r₁).published.length +
        (done ++ [d]).length) := by
      rw [List.length_append, List.length_singleton, ← Nat.add_assoc]
      exact mask_add_one hk hi₁
    refine Discipline.ok_mono _ (ih (done ++ [d]) hstaged hnext ?_) ?_
    · simp only [spsc, Op.effect, h₁.published_eq, List.length_append, List.length_singleton]
      omega
    · rintro - r' - ⟨hp, hl, ho, hs, ht⟩
      refine ⟨hp.trans h₁.prod_eq, hl.trans h₁.published_eq, ho.trans h₁.overflow_eq, ?_,
        h₁.taken_isPrefix.trans ht⟩
      rwa [List.append_assoc, List.singleton_append] at hs

theorem acquire_ok (hk : k < w) {n : BitVec w} (hP : RoomSound k P n) {r : Ring w k α} (hi : r.Inv) :
    (spsc w k G).Ok .producer
      (fun x r' => r'.prod = r.prod ∧ r'.published = r.published ∧
        r'.overflow = r.overflow + refusals P x.isNone ∧
        ∀ i, x = some i → mask k i = pos k r.published.length ∧
          r.published.length + n.toNat ≤ r'.taken.length + 2 ^ k)
      (acquire P n) r := by
  refine Discipline.ok_bind _ hi (reserve_ok hk hP hi) ?_
  rintro x r₁ i₁ ⟨hp₁, hs₁, hl₁, ho₁, hx⟩ r₂ h₂ _
  refine ⟨h₂.prod_eq.trans hp₁, h₂.published_eq.trans hl₁, ?_, ?_⟩
  · rw [h₂.overflow_eq, ho₁, Option.isNone_map]
  · intro i hx'
    obtain ⟨p, rfl, rfl⟩ := Option.map_eq_some_iff.mp hx'
    obtain ⟨rfl, hroom⟩ := hx p rfl
    have ht₂ := h₂.taken_isPrefix.length_le
    exact ⟨by rw [mask_and hk.le, hi.prod_eq, mask_ofNat hk.le], by omega⟩

/-- **Acquiring, writing and committing a batch.** -/
theorem submit_ok (hk : k < w) {ds : List α} (hP : RoomSound k P (BitVec.ofNat w ds.length))
    (hds : ds.length < 2 ^ w) {r : Ring w k α} (hi : r.Inv) (hG : G (r.published ++ ds)) :
    (spsc w k G).Ok .producer
      (fun x r' => r'.published = r.published ++ (if x then ds else []) ∧
        r'.overflow = r.overflow + refusals P !x)
      (submit P ds) r := by
  have hn : (BitVec.ofNat w ds.length).toNat = ds.length := by
    rw [BitVec.toNat_ofNat, Nat.mod_eq_of_lt hds]
  refine Discipline.ok_bind _ hi (acquire_ok hk hP hi) ?_
  rintro x r₁ i₁ ⟨hp₁, hl₁, ho₁, hx⟩
  cases x with
  | none =>
    intro r₂ h₂ _
    refine ⟨?_, ?_⟩
    · simpa using h₂.published_eq.trans hl₁
    · rw [h₂.overflow_eq, ho₁]
      rfl
  | some i =>
    obtain ⟨hmask, hroom⟩ := hx i rfl
    rw [hn] at hroom
    refine Discipline.ok_bind _ i₁ (fill_ok hk.le ds [] (r := r₁) (fun j hj => by simp at hj)
      (by rw [hmask, hl₁]; rfl) (by rw [hl₁]; simpa using hroom)) ?_
    rintro - r₂ i₂ ⟨hp₂, hl₂, ho₂, hs₂, ht₂⟩
    -- the producer index is loaded again; nobody else stores it
    intro r₃ h₃ _ _
    refine ⟨trivial, fun r₄ h₄ _ _ => ⟨⟨?_, ?_, ?_, ?_⟩, fun r₅ h₅ _ => ⟨?_, ?_⟩⟩⟩
    · rw [h₄.prod_eq]
      rfl
    · have ht₄ := ((ht₂.trans h₃.taken_isPrefix).trans h₄.taken_isPrefix).length_le
      rw [h₄.published_eq]
      simp only [spsc, Op.effect, h₃.published_eq, hl₂, hl₁]
      omega
    · intro j hj
      rw [h₄.slots_eq, h₄.published_eq]
      simp only [spsc, Op.effect, h₃.slots_eq, h₃.published_eq]
      exact hs₂ j hj
    · rw [h₄.published_eq]
      simpa only [spsc, Op.effect, h₃.published_eq, hl₂, hl₁] using hG
    · rw [h₅.published_eq]
      simp only [spsc, Op.effect, h₄.published_eq, h₃.published_eq, hl₂, hl₁, if_true]
    · rw [h₅.overflow_eq]
      simp only [spsc, Op.effect, h₄.overflow_eq, h₃.overflow_eq, ho₂, ho₁]
      rfl

end Producer

section Consumer

variable {G : List α → Prop} {isEmpty : BitVec w → BitVec w → Bool} {r : Ring w k α}

/-- **Taking one element**, where the schedule meets a condition `C` when the index is stored. -/
theorem consume_assume_ok {C : Side → Op w α → Ring w k α → Prop} (hk : k < w)
    (hE : EmptySound isEmpty) :
    ((spsc w k G).assume C).Ok .consumer
      (fun x r' => r'.taken = r.taken ++ x.toList ∧
        ∀ d, x = some d → ∃ v r'', C .consumer (.storeCons v d) r'')
      (consume isEmpty) r := by
  intro r₁ h₁ _ _
  refine ⟨trivial, fun r₂ h₂ i₂ _ => ⟨trivial, ?_⟩⟩
  have hc₂ : r₂.cons = r₁.cons := h₂.cons_eq
  have ht₂ : r₂.taken = r.taken := h₂.taken_eq.trans h₁.taken_eq
  change Discipline.Ok _ _ _ (if isEmpty r₁.cons r₂.prod then _ else _) _
  by_cases hempty : isEmpty r₁.cons r₂.prod = true
  · rw [if_pos hempty]
    intro r₃ h₃ _
    refine ⟨?_, fun d hd => by simp at hd⟩
    simpa using h₃.taken_eq.trans ht₂
  · rw [if_neg hempty]
    -- the indices differed when the producer index was loaded, so an element was there
    have hlt : r₂.taken.length < r₂.published.length := by
      have hne := hE r₁.cons r₂.prod (by simpa using hempty)
      have hle := i₂.length_le
      have hiff := i₂.prod_eq_cons_iff hk
      rw [hc₂] at hiff
      rcases Nat.lt_or_ge r₂.taken.length r₂.published.length with h | h
      · exact h
      · exact absurd (hiff.mpr (by omega)).symm hne
    intro r₃ h₃ i₃ _
    have hc₃ : r₃.cons = r₁.cons := h₃.cons_eq.trans hc₂
    have ht₃ : r₃.taken = r.taken := h₃.taken_eq.trans ht₂
    have hold := i₃.oldest hk.le (by
      have hpub := h₃.2.2.length_le
      have htak : r₃.taken = r₂.taken := h₃.taken_eq
      rw [htak]
      exact lt_of_lt_of_le hlt hpub)
    rw [hc₃] at hold
    refine ⟨trivial, fun r₄ h₄ _ hC => ⟨⟨?_, ?_⟩, fun r₅ h₅ _ => ⟨?_, ?_⟩⟩⟩
    · rw [h₄.cons_eq]
      simp only [Discipline.assume, spsc, Op.effect, hc₃]
    · obtain ⟨t, ht⟩ := h₄.2.2
      have htak : r₄.taken = r₃.taken := h₄.taken_eq
      have hlt₃ : r₃.taken.length < r₃.published.length := by
        by_contra hge
        rw [List.getElem?_eq_none (by omega)] at hold
        exact absurd hold (by simp)
      have hpub : r₃.published ++ t = r₄.published := ht
      rw [← hpub, htak, List.getElem?_append_left hlt₃]
      exact hold
    · have htak : r₅.taken = r₄.taken ++ [r₃.slots (mask k r₁.cons)] := h₅.taken_eq
      have htak₄ : r₄.taken = r₃.taken := h₄.taken_eq
      simp only [htak, htak₄, ht₃, Option.toList_some]
    · intro d hd
      obtain rfl : r₃.slots (mask k r₁.cons) = d := by simpa using hd
      exact ⟨_, r₄, hC.2⟩

/-- **Taking one element.** -/
theorem consume_ok (hk : k < w) (hE : EmptySound isEmpty) :
    (spsc w k G).Ok .consumer (fun x r' => r'.taken = r.taken ++ x.toList)
      (consume isEmpty) r := by
  refine Discipline.ok_of_assume _ (fun _ _ _ => trivial) ?_
  exact Discipline.ok_mono _ (consume_assume_ok (C := fun _ _ _ => True) hk hE) fun _ _ _ h => h.1

end Consumer

/-! ### Operations -/

/-- The accesses of a producer end that publishes elements of `G`. -/
def Op.ofProducer (G : α → Prop) : Op w α → Prop
  | .readSlot _ => False
  | .storeCons _ _ => False
  | .storeProd _ as => ∀ a ∈ as, G a
  | _ => True

theorem Op.ofProducer.mono {G G' : α → Prop} {o : Op w α} (ho : o.ofProducer G)
    (h : ∀ a, G a → G' a) : o.ofProducer G' := by
  cases o with
  | storeProd v as => exact fun a ha => h a (ho a ha)
  | loadProd | loadCons | readSlot | writeSlot | storeCons | countOverflow => exact ho

theorem Op.ofProducer.published {G : α → Prop} {o : Op w α} (ho : o.ofProducer G) {r : Ring w k α}
    (h : ∀ a ∈ r.published, G a) : ∀ a ∈ (o.effect r).published, G a := by
  cases o with
  | storeProd v as =>
    intro a ha
    rcases List.mem_append.mp ha with ha | ha
    · exact h a ha
    · exact ho a ha
  | loadProd | loadCons | readSlot | writeSlot | storeCons | countOverflow => exact h

theorem push_uses (P : Producer w) (a : α) :
    (push P a : Prog (Op w α) (Ring w k α) Bool).Uses (Op.ofProducer (· = a)) := by
  have hload : (loadIndices P.ownFirst : Prog (Op w α) (Ring w k α) _).Uses
      (Op.ofProducer (· = a)) := by
    cases P.ownFirst <;> exact ⟨trivial, fun _ => ⟨trivial, fun _ => trivial⟩⟩
  have hreserve : (reserve P 1 : Prog (Op w α) (Ring w k α) _).Uses (Op.ofProducer (· = a)) := by
    refine uses_bind hload fun pc => ?_
    dsimp only
    split_ifs
    · exact ⟨trivial, fun _ => trivial⟩
    · trivial
    · trivial
  refine uses_bind hreserve fun x => ?_
  cases x with
  | none => trivial
  | some p => exact ⟨trivial, fun _ => ⟨fun b hb => List.mem_singleton.mp hb, fun _ => trivial⟩⟩

/-! ### Refusals -/

section Refusal

variable {P : Producer w} {tr : List (Op w α × Ring w k α)}

/-- The steps of a reservation, among any steps of other threads, touch nothing but the counter, and
count exactly the refusal. -/
theorem reserve_trace {n : BitVec w} {x : Option (BitVec w)} (h : Trace (reserve P n) tr x) :
    (∀ y ∈ tr, y.1.Quiet y.2) ∧ tr.countP (·.1.isCount) = if x.isNone && P.counts then 1 else 0 := by
  obtain ⟨ownFirst, noRoom, counts⟩ := P
  obtain ⟨l₁, l₂, ⟨p, c⟩, rfl, h₁, h₂⟩ := trace_bind.mp h
  have hquiet₁ : (∀ y ∈ l₁, y.1.Quiet y.2) ∧ l₁.countP (·.1.isCount) = 0 := by
    cases ownFirst <;>
    · simp only [loadIndices, if_true, if_false, Bool.false_eq_true, load_bind, pure_eq, trace_act,
        trace_ret] at h₁
      obtain ⟨r₁, _, rfl, r₂, _, rfl, rfl, -⟩ := h₁
      constructor
      · intro y hy
        simp only [List.mem_cons, List.not_mem_nil, or_false] at hy
        rcases hy with rfl | rfl <;> rfl
      · rfl
  have hquiet₂ : (∀ y ∈ l₂, y.1.Quiet y.2) ∧
      l₂.countP (·.1.isCount) = if x.isNone && counts then 1 else 0 := by
    dsimp only at h₂
    by_cases hroom : noRoom p c n = true
    · rw [if_pos hroom] at h₂
      cases counts with
      | true =>
        simp only [if_true, exec_bind, pure_eq, trace_act, trace_ret] at h₂
        obtain ⟨r, _, rfl, rfl, rfl⟩ := h₂
        constructor
        · intro y hy
          obtain rfl := List.mem_singleton.mp hy
          rfl
        · rfl
      | false =>
        simp only [Bool.false_eq_true, if_false, pure_eq, trace_ret] at h₂
        obtain ⟨rfl, rfl⟩ := h₂
        simp
    · rw [if_neg hroom, pure_eq, trace_ret] at h₂
      obtain ⟨rfl, rfl⟩ := h₂
      simp
  constructor
  · intro y hy
    rcases List.mem_append.mp hy with hy | hy
    · exact hquiet₁.1 y hy
    · exact hquiet₂.1 y hy
  · rw [List.countP_append, hquiet₁.2, hquiet₂.2, Nat.zero_add]

theorem push_trace_refused {a : α} (h : Trace (push P a) tr false) :
    (∀ y ∈ tr, y.1.Quiet y.2) ∧ tr.countP (·.1.isCount) = if P.counts then 1 else 0 := by
  obtain ⟨l₁, l₂, x, rfl, h₁, h₂⟩ := trace_bind.mp h
  cases x with
  | none =>
    obtain ⟨rfl, -⟩ := trace_ret.mp h₂
    simpa using reserve_trace h₁
  | some p =>
    simp only [exec_bind, pure_eq, trace_act, trace_ret] at h₂
    obtain ⟨_, _, _, _, _, _, _, hfalse⟩ := h₂
    exact absurd hfalse (by decide)

theorem submit_trace_refused {ds : List α} (h : Trace (submit P ds) tr false) :
    (∀ y ∈ tr, y.1.Quiet y.2) ∧ tr.countP (·.1.isCount) = if P.counts then 1 else 0 := by
  obtain ⟨l₁, l₂, x, rfl, h₁, h₂⟩ := trace_bind.mp h
  cases x with
  | none =>
    obtain ⟨rfl, -⟩ := trace_ret.mp h₂
    obtain ⟨m₁, m₂, y, rfl, h₃, h₄⟩ := trace_bind.mp h₁
    obtain ⟨rfl, hy⟩ := trace_ret.mp h₄
    obtain rfl : y = none := Option.map_eq_none_iff.mp hy.symm
    simpa using reserve_trace h₃
  | some i =>
    obtain ⟨m₁, m₂, _, rfl, -, h₃⟩ := trace_bind.mp h₂
    obtain ⟨n₁, n₂, _, rfl, -, h₄⟩ := trace_bind.mp h₃
    exact absurd (trace_ret.mp h₄).2 (by decide)

end Refusal

end RingBuffer
