import RolloutRuntime.Rings.Safety
import RolloutRuntime.Concurrency.Observation

/-!
# The ring of the fast path

The ring of the fast path tests both ends exactly: it is full if the difference of its indices is the
ring size, and empty if the indices are equal. Whatever the interleaving with the other end, and however
often the indices have wrapped, a push is refused exactly if the ring was full when the push loaded the
consumer index, and a pop is refused exactly if the ring was empty when the pop loaded the producer
index.

The consumer index is called `head` in the source, and the producer index `tail`.

## Main definitions

* `hwQueue`: the ring with its two ends.
* `hwRingFull`, `hwRingEmpty`: the two tests as calls of their own.
* `heldAtPush`, `heldAtPop`: the number of elements in the ring at those loads.

## Main results

* `hwRingPush_sees`, `hwRingPop_sees`: the answer of a call is determined by what the ring held when the
  call loaded the index of the other end.
* `hwRing_exact`: the ring is an exact bounded queue.

## References

* `include/hw_ring.h` lines 27–69, `src/hw_ring.c`.
-/

namespace RolloutRuntime

open Concurrency Concurrency.Prog RingBuffer

/-! ### The ring and its ends -/

/-- `hw_ring_push` and `hw_ring_pop`. -/
def hwQueue : Queue 16 HwDesc := ⟨HwDesc, fun d => [d], hwRingPush, hwRingPop, false⟩

/-- `hw_ring_full`. -/
def hwRingFull : Prog (Op 32 HwDesc) HwRing Bool := do
  let head ← load .loadCons (·.cons)
  let tail ← load .loadProd (·.prod)
  return hwFullTest tail head 1

/-- `hw_ring_empty`. -/
def hwRingEmpty : Prog (Op 32 HwDesc) HwRing Bool := do
  let head ← load .loadCons (·.cons)
  let tail ← load .loadProd (·.prod)
  return eqEmpty head tail

theorem hwQueue_lawful : hwQueue.Lawful where
  size_lt := by decide
  give_ok _ _ hr := push_ok (by decide) roomSound_hwRing hr trivial
  take_ok := consume_ok (by decide) emptySound_eqEmpty
  give_refused _ _ h := push_trace_refused h

/-! ### The tests are exact -/

/-- The number of elements in the ring. -/
def held (r : HwRing) : ℕ := r.published.length - r.taken.length

theorem hwFullTest_iff {r : HwRing} (hr : r.Inv) (n : BitVec 32) :
    hwFullTest r.prod r.cons n = true ↔ held r = 2 ^ 16 := by
  have hocc : (r.prod - r.cons).toNat = held r := Contents.occupancy hr (by decide)
  have hbound := Contents.bound hr
  have hsize : (BitVec.ofNat 32 (2 ^ 16)).toNat = 2 ^ 16 := rfl
  rw [hwFullTest, decide_eq_true_iff, ge_iff_le, BitVec.le_def, hsize, hocc, held]
  omega

theorem eqEmpty_iff {r : HwRing} (hr : r.Inv) : eqEmpty r.cons r.prod = true ↔ held r = 0 := by
  have hle := Contents.length_le hr
  rw [eqEmpty, beq_iff_eq, eq_comm, Contents.prod_eq_cons_iff hr (by decide), held]
  omega

/-! ### What the ends see -/

/-- What the ring held at each load of the consumer index, for the producer. -/
def heldAtPush : Op 32 HwDesc → HwRing → List ℕ → List ℕ
  | .loadCons, r, h => h ++ [held r]
  | _, _, h => h

/-- What the ring held at each load of the producer index, for the consumer. -/
def heldAtPop : Op 32 HwDesc → HwRing → List ℕ → List ℕ
  | .loadProd, r, h => h ++ [held r]
  | _, _, h => h

theorem hwRingPush_eq (d : HwDesc) : hwRingPush d =
    .act .loadProd fun r => .act .loadCons fun r' =>
      if hwFullTest r.prod r'.cons 1 then .ret false
      else .act (.writeSlot r.prod d) fun _ => .act (.storeProd (r.prod + 1) [d]) fun _ => .ret true := by
  refine congrArg (act Op.loadProd) (funext fun r => congrArg (act Op.loadCons) (funext fun r' => ?_))
  change (if hwFullTest r.prod r'.cons 1 then ret none else ret (some r.prod)) >>= _ = _
  split_ifs <;> rfl

theorem hwRingPop_eq : hwRingPop =
    .act .loadCons fun r => .act .loadProd fun r' =>
      if eqEmpty r.cons r'.prod then .ret none
      else .act (.readSlot r.cons) fun r'' =>
        .act (.storeCons (r.cons + 1) (r''.slots (mask 16 r.cons))) fun _ =>
          .ret (some (r''.slots (mask 16 r.cons))) := consume_eq eqEmpty

/-- The answer of a push is determined by what the ring held when the push loaded the consumer index. -/
theorem hwRingPush_sees (d : HwDesc) (r : HwRing) (h : List ℕ) :
    (spsc 32 16 (unguarded HwDesc)).Sees .producer heldAtPush
      (fun ok _ h' => ∃ n, h' = h ++ [n] ∧ ok = decide (n ≠ 2 ^ 16)) (hwRingPush d) r h := by
  rw [hwRingPush_eq]
  refine .act fun r₁ _ _ _ => .act fun r₂ hrely hinv _ => ?_
  -- the producer index is the producer's own, so both indices are those of one moment
  have hprod : r₁.prod = r₂.prod := hrely.1.symm
  have hfull := hwFullTest_iff hinv 1
  rw [hprod]
  split_ifs with htest
  · refine .ret fun _ _ _ => ⟨held r₂, rfl, ?_⟩
    rw [hfull.mp htest]
    rfl
  · refine .act fun _ _ _ _ => .act fun _ _ _ _ => .ret fun _ _ _ => ⟨held r₂, rfl, ?_⟩
    have hne : held r₂ ≠ 2 ^ 16 := fun heq => htest (hfull.mpr heq)
    exact (decide_eq_true hne).symm

/-- The answer of a pop is determined by what the ring held when the pop loaded the producer index. -/
theorem hwRingPop_sees (r : HwRing) (h : List ℕ) :
    (spsc 32 16 (unguarded HwDesc)).Sees .consumer heldAtPop
      (fun x _ h' => ∃ n, h' = h ++ [n] ∧ x.isSome = decide (n ≠ 0)) hwRingPop r h := by
  rw [hwRingPop_eq]
  refine .act fun r₁ _ _ _ => .act fun r₂ hrely hinv _ => ?_
  have hcons : r₁.cons = r₂.cons := hrely.1.symm
  have hempty := eqEmpty_iff hinv
  rw [hcons]
  split_ifs with htest
  · refine .ret fun _ _ _ => ⟨held r₂, rfl, ?_⟩
    rw [hempty.mp htest]
    rfl
  · refine .act fun _ _ _ _ => .act fun _ _ _ _ => .ret fun _ _ _ => ⟨held r₂, rfl, ?_⟩
    have hne : held r₂ ≠ 0 := fun heq => htest (hempty.mpr heq)
    exact (decide_eq_true hne).symm

/-! ### Runs -/

/-- The answers to the pushes are determined by what the ring held at their loads. -/
def PushesExact (l : List (HwDesc × Bool)) (h : List ℕ) : Prop :=
  l.map Prod.snd = h.map fun n => decide (n ≠ 2 ^ 16)

/-- The answers to the pops are determined by what the ring held at their loads. -/
def PopsExact (l : List (Option HwDesc)) (h : List ℕ) : Prop :=
  l.map Option.isSome = h.map fun n => decide (n ≠ 0)

theorem giveCall_sees {l : List (HwDesc × Bool)} {h : List ℕ} (hl : PushesExact l h) (d : HwDesc)
    {r : HwRing} (hr : r.Inv) :
    (spsc 32 16 (unguarded HwDesc)).Sees .producer heldAtPush (fun l _ h => PushesExact l h)
      (hwQueue.giveCall l d) r h := by
  refine Discipline.sees_bind hr (hwQueue_lawful.give_ok d hr) (hwRingPush_sees d r h) ?_
  rintro ok r' h' - - ⟨n, rfl, rfl⟩
  refine .ret fun _ _ _ => ?_
  have hl' : l.map Prod.snd = h.map fun n => decide (n ≠ 2 ^ 16) := hl
  change (l ++ [(d, _)]).map Prod.snd = _
  rw [List.map_append, List.map_append, hl']
  rfl

theorem takeCall_sees {l : List (Option HwDesc)} {h : List ℕ} (hl : PopsExact l h) {r : HwRing}
    (hr : r.Inv) :
    (spsc 32 16 (unguarded HwDesc)).Sees .consumer heldAtPop (fun l _ h => PopsExact l h)
      (hwQueue.takeCall l) r h := by
  refine Discipline.sees_bind hr hwQueue_lawful.take_ok (hwRingPop_sees r h) ?_
  rintro x r' h' - - ⟨n, rfl, hx⟩
  refine .ret fun _ _ _ => ?_
  have hl' : l.map Option.isSome = h.map fun n => decide (n ≠ 0) := hl
  change (l ++ [x]).map Option.isSome = _
  rw [List.map_append, List.map_append, hl', List.map_singleton, List.map_singleton, hx]

/-- Without interference the two tests agree with the two ends. -/
theorem hwRing_tests {r : HwRing} (d : HwDesc) :
    ((hwRingFull.run Op.effect r).1 = true ↔ ((hwRingPush d).run Op.effect r).1 = false) ∧
      ((hwRingEmpty.run Op.effect r).1 = true ↔ (hwRingPop.run Op.effect r).1 = none) := by
  have hfull : (hwRingFull.run Op.effect r).1 = hwFullTest r.prod r.cons 1 := rfl
  have hempty : (hwRingEmpty.run Op.effect r).1 = eqEmpty r.cons r.prod := rfl
  rw [hfull, hempty, hwRingPush_eq, hwRingPop_eq]
  simp only [run_act, Op.effect]
  refine ⟨?_, ?_⟩
  · split_ifs with htest
    · exact iff_of_true htest rfl
    · exact iff_of_false htest (by simp)
  · split_ifs with htest
    · exact iff_of_true htest rfl
    · exact iff_of_false htest (by simp)

/-- **The ring of the fast path is an exact queue** of `2 ^ 16` descriptors. In every configuration of
every interleaving of its ends, what was taken is an initial segment of what was published. At rest the
producer has published what was accepted, and each of its pushes was refused exactly if the ring was full
when it loaded the consumer index; the consumer has taken what it got, and each of its pops was refused
exactly if the ring was empty when it loaded the producer index. With both ends at rest, the two tests say
whether a push or a pop would be refused. -/
theorem hwRing_exact (z : HwDesc) (es : List ((i : Side) × hwQueue.Call i)) :
    let c := hwQueue.system.run (hwQueue.init z) es
    c.mem.taken <+: c.mem.published ∧ held c.mem ≤ 2 ^ 16 ∧
      (∀ l : List (HwDesc × Bool), c.threads .producer = .ret l →
        c.mem.published = hwQueue.accepted l ∧
        PushesExact l (hwQueue.system.observe .producer heldAtPush (hwQueue.init z) [] es)) ∧
      (∀ l : List (Option HwDesc), c.threads .consumer = .ret l →
        c.mem.taken = l.reduceOption ∧
        PopsExact l (hwQueue.system.observe .consumer heldAtPop (hwQueue.init z) [] es)) ∧
      ∀ (l : List (HwDesc × Bool)) (l' : List (Option HwDesc)),
        c.threads .producer = .ret l → c.threads .consumer = .ret l' → ∀ d,
        ((hwRingFull.run Op.effect c.mem).1 = true ↔
          ((hwRingPush d).run Op.effect c.mem).1 = false) ∧
        ((hwRingEmpty.run Op.effect c.mem).1 = true ↔ (hwRingPop.run Op.effect c.mem).1 = none) := by
  intro c
  have hgood : (spsc 32 16 (unguarded HwDesc)).Good hwQueue.Known c := hwQueue_lawful.good z es
  have hinv : Contents 16 _ _ _ _ _ := hgood.1
  have hmeets := hwQueue.system.meets_true (hwQueue.init z) es
  have hstart := fun i l x (r : HwRing) => hwQueue_lawful.start_ok (r := r) i l x
  refine ⟨hinv.taken_le, ?_, fun l hl => ⟨(hgood.rest hl).1, ?_⟩, fun l hl => ⟨hgood.rest hl, ?_⟩,
    fun _ _ _ _ d => hwRing_tests d⟩
  · have hbound := hinv.bound
    rw [held]
    omega
  · have hsees : (spsc 32 16 (unguarded HwDesc)).Sees .producer heldAtPush
        (fun l _ h => PushesExact l h) (c.threads .producer) c.mem
        (hwQueue.system.observe .producer heldAtPush (hwQueue.init z) [] es) := by
      refine Discipline.sees_sound rfl hstart ?_ (Queue.good_init z) ?_ hmeets
      · exact fun l d r h hr _ hlog => giveCall_sees hlog d hr
      · exact .ret fun _ _ _ => rfl
    rw [hl] at hsees
    exact hsees.post hgood.1
  · have hsees : (spsc 32 16 (unguarded HwDesc)).Sees .consumer heldAtPop
        (fun l _ h => PopsExact l h) (c.threads .consumer) c.mem
        (hwQueue.system.observe .consumer heldAtPop (hwQueue.init z) [] es) := by
      refine Discipline.sees_sound rfl hstart ?_ (Queue.good_init z) ?_ hmeets
      · exact fun l _ r h hr _ hlog => takeCall_sees hlog hr
      · exact .ret fun _ _ _ => rfl
    rw [hl] at hsees
    exact hsees.post hgood.1

end RolloutRuntime
