import RolloutRuntime.KvPrefix.Table
import Mathlib.Data.Finset.Card
import Mathlib.Data.Fintype.Basic

/-!
# Reference counts of shared prefixes

The callers of the prefix table hold references: the registrant of a prefix one, everyone who acquired
it one more, and every live branch one on the prefix it names. The ledger keeps what the callers hold
and the offsets they were promised next to the table. If they release only what they hold, allocate
branches only on prefixes in use, free only live branches and never hold `2 ^ 32` references to a
prefix, then the table agrees with the ledger after any sequence of calls: no prefix is recycled under
a live branch.

## Main definitions

* `Ledger`, `Ledger.step`, `Ledger.run`: the table with what the callers hold, and calls on it.
* `Ledger.Disciplined`: the sequences of calls the table is made for.
* `Ledger.Inv`: the table agrees with the ledger.

## Main results

* `Ledger.inv_step`: one call of a disciplined sequence keeps the invariant.
* `Ledger.kvPrefix_refcounts`: the counts, the bitmaps and the offsets after any disciplined sequence
  of calls.

## References

* `src/kv_prefix.c`, `docs/architecture.md` lines 159–177.
-/

namespace RolloutRuntime

open Bitmap

/-! ### The ledger -/

/-- The number of live branches whose prefix is `p`. -/
def KVPrefixTable.branchesOn (t : KVPrefixTable) (live : Finset BranchId) (p : PrefixId) : ℕ :=
  (live.filter fun b => (t.branches b).prefixId.toNat = p).card

/-- The table, and what its callers have done with it: the references to every prefix that registrants
and acquirers hold, the live branches, the offset every prefix was last registered with, and the offset
the prefix of every branch had been registered with when the branch was allocated. -/
structure Ledger where
  table : KVPrefixTable
  held : PrefixId → ℕ
  live : Finset BranchId
  registered : PrefixId → BitVec 64
  promised : BranchId → BitVec 64

/-- The calls on the table. -/
inductive PrefixCall
  | register (kvOffset : BitVec 64) (tokenLen nblocks : BitVec 32)
  | acquire (prefixId : BitVec 32)
  | release (prefixId : BitVec 32)
  | branchAlloc (rolloutId prefixId : BitVec 32) (deltaKvOffset : BitVec 64)
      (deltaLen deltaBlocks : BitVec 32)
  | branchFree (branchId : BitVec 32)

namespace Ledger

/-- A new table, and nothing held. -/
def init : Ledger := ⟨kvPrefixTableInit, fun _ => 0, ∅, fun _ => 0, fun _ => 0⟩

/-- A registration gives its caller a reference. -/
def register (s : Ledger) (kvOffset : BitVec 64) (tokenLen nblocks : BitVec 32) : Ledger :=
  match kvPrefixRegister s.table kvOffset tokenLen nblocks with
  | (t, none) => { s with table := t }
  | (t, some p) =>
    { s with
      table := t
      held := Function.update s.held p (s.held p + 1)
      registered := Function.update s.registered p kvOffset }

/-- So does an acquisition that succeeds. -/
def acquire (s : Ledger) (id : BitVec 32) : Ledger :=
  match kvPrefixAcquire s.table id with
  | (t, false) => { s with table := t }
  | (t, true) =>
    { s with table := t, held := fun p => if id.toNat = p then s.held p + 1 else s.held p }

/-- A release takes a reference away. -/
def release (s : Ledger) (id : BitVec 32) : Ledger :=
  match kvPrefixRelease s.table id with
  | (t, false) => { s with table := t }
  | (t, true) =>
    { s with table := t, held := fun p => if id.toNat = p then s.held p - 1 else s.held p }

/-- A branch allocated is live, and is promised the offset its prefix is registered with. -/
def branchAlloc (s : Ledger) (rolloutId id : BitVec 32) (deltaKvOffset : BitVec 64)
    (deltaLen deltaBlocks : BitVec 32) : Ledger :=
  match kvBranchAlloc s.table rolloutId id deltaKvOffset deltaLen deltaBlocks with
  | (t, none) => { s with table := t }
  | (t, some b) =>
    { s with
      table := t
      live := insert b s.live
      promised := Function.update s.promised b ((indexOf (8 * 64) id).elim 0 s.registered) }

/-- A branch freed is no longer live. -/
def branchFree (s : Ledger) (id : BitVec 32) : Ledger :=
  match kvBranchFree s.table id with
  | (t, false) => { s with table := t }
  | (t, true) => { s with table := t, live := s.live.filter fun b : BranchId => id.toNat ≠ b }

/-- One call. -/
def step (s : Ledger) : PrefixCall → Ledger
  | .register kvOffset tokenLen nblocks => s.register kvOffset tokenLen nblocks
  | .acquire id => s.acquire id
  | .release id => s.release id
  | .branchAlloc rolloutId id deltaKvOffset deltaLen deltaBlocks =>
    s.branchAlloc rolloutId id deltaKvOffset deltaLen deltaBlocks
  | .branchFree id => s.branchFree id

/-- A sequence of calls. -/
def run (s : Ledger) (xs : List PrefixCall) : Ledger := xs.foldl step s

/-- The references to a prefix, those of its live branches included. -/
def references (s : Ledger) (p : PrefixId) : ℕ := s.held p + s.table.branchesOn s.live p

/-- The calls the table is made for: references that are held are released, branches are allocated on
prefixes in use, and live branches are freed. -/
def Allowed (s : Ledger) : PrefixCall → Prop
  | .register _ _ _ => True
  | .acquire _ => True
  | .release id => ∃ p : PrefixId, id.toNat = p ∧ 0 < s.held p
  | .branchAlloc _ id _ _ _ => ∃ p : PrefixId, id.toNat = p ∧ (s.table.prefixes p).refcnt ≠ 0
  | .branchFree id => ∃ b ∈ s.live, id.toNat = (b : ℕ)

/-- Fewer than `2 ^ 32` references are held to any prefix. -/
def Few (s : Ledger) : Prop := ∀ p, s.references p < 2 ^ 32

/-- All calls are allowed, and fewer than `2 ^ 32` references are held at a time. -/
def Disciplined : Ledger → List PrefixCall → Prop
  | _, [] => True
  | s, x :: xs => s.Allowed x ∧ (s.step x).Few ∧ Disciplined (s.step x) xs

end Ledger

/-! ### Counting branches -/

section Count

variable {β γ : Type} [DecidableEq β] [DecidableEq γ] {s : Finset β} {b : β} {f g : β → γ}

theorem card_filter_insert (hb : b ∉ s) (hfg : ∀ c ∈ s, g c = f c) (n : γ) :
    ((insert b s).filter fun c => g c = n).card =
      (s.filter fun c => f c = n).card + if g b = n then 1 else 0 := by
  have hsame : (s.filter fun c => g c = n) = s.filter fun c => f c = n :=
    Finset.filter_congr fun c hc => by rw [hfg c hc]
  rw [Finset.filter_insert, hsame]
  split_ifs with hn
  · exact Finset.card_insert_of_notMem fun hmem => hb (Finset.mem_filter.mp hmem).1
  · rfl

theorem card_filter_erase (hb : b ∈ s) (hfg : ∀ c ∈ s.erase b, g c = f c) (n : γ) :
    (s.filter fun c => f c = n).card =
      ((s.erase b).filter fun c => g c = n).card + if f b = n then 1 else 0 := by
  conv_lhs => rw [← Finset.insert_erase hb]
  exact card_filter_insert (Finset.notMem_erase b s) (fun c hc => (hfg c hc).symm) n

end Count

section Update

variable {ι : Type} [DecidableEq ι] {f g : ι → ℕ} {p : ι}

theorem add_eq_update_succ (held : ι → ℕ) (h : ∀ q, g q = f q + if p = q then 1 else 0) :
    (fun q => held q + g q) = Function.update (fun q => held q + f q) p (held p + f p + 1) := by
  funext q
  rw [h q]
  by_cases hqp : q = p
  · rw [hqp, Function.update_self, if_pos rfl, Nat.add_assoc]
  · rw [Function.update_of_ne hqp, if_neg (Ne.symm hqp), Nat.add_zero]

theorem add_eq_update_pred (held : ι → ℕ) (h : ∀ q, f q = g q + if p = q then 1 else 0) :
    (fun q => held q + g q) = Function.update (fun q => held q + f q) p (held p + f p - 1) := by
  have hp : held p + f p - 1 = held p + g p := by
    rw [h p, if_pos rfl, ← Nat.add_assoc, Nat.add_sub_cancel]
  rw [add_eq_update_succ held h, Function.update_idem, hp]
  exact (Function.update_eq_self p _).symm

end Update

namespace KVPrefixTable

/-! ### The invariant -/

/-- The table agrees with what its callers hold: its counts are the references held and the live
branches, its free branches are those not live, and the branches name prefixes registered with the
offsets promised. -/
structure Agrees (t : KVPrefixTable) (held : PrefixId → ℕ) (live : Finset BranchId)
    (registered : PrefixId → BitVec 64) (promised : BranchId → BitVec 64) : Prop where
  counts : t.Counts (fun p => held p + t.branchesOn live p) registered
  free : ∀ b, bit t.branchBitmap b = true ↔ b ∉ live
  owned : ∀ b ∈ live, ∃ p : PrefixId,
    (t.branches b).prefixId.toNat = p ∧ promised b = registered p

variable {t t' : KVPrefixTable} {held : PrefixId → ℕ} {live : Finset BranchId}
  {registered : PrefixId → BitVec 64} {promised : BranchId → BitVec 64}

theorem agrees_init : Agrees kvPrefixTableInit (fun _ => 0) ∅ registered promised := by
  refine ⟨?_, fun b => ?_, fun b hb => absurd hb (Finset.notMem_empty b)⟩
  · have hzero : (fun p => 0 + kvPrefixTableInit.branchesOn ∅ p) = fun _ => 0 := by
      funext p
      rw [branchesOn, Finset.filter_empty, Finset.card_empty]
    rw [hzero]
    exact counts_init
  · rw [kvPrefixTableInit, bit_ones]
    simp

theorem branchesOn_pos {b : BranchId} (hb : b ∈ live) {p : PrefixId}
    (hp : (t.branches b).prefixId.toNat = p) : 0 < t.branchesOn live p :=
  Finset.card_pos.mpr ⟨b, Finset.mem_filter.mpr ⟨hb, hp⟩⟩

theorem branchesOn_congr (h : t'.branches = t.branches) (live : Finset BranchId) :
    t'.branchesOn live = t.branchesOn live := by
  funext p
  rw [branchesOn, branchesOn, h]

/-- **Registration.** No live branch is on the prefix registered. -/
theorem Agrees.register (h : Agrees t held live registered promised) {kvOffset : BitVec 64}
    {tokenLen nblocks : BitVec 32} {p : PrefixId}
    (hreg : kvPrefixRegister t kvOffset tokenLen nblocks = (t', some p)) :
    (∀ b ∈ live, (t.branches b).prefixId.toNat ≠ p) ∧
      Agrees t' (Function.update held p (held p + 1)) live (Function.update registered p kvOffset)
        promised := by
  obtain ⟨hcnt, hbranches, hbitmap, hcounts⟩ := h.counts.register hreg
  have hnone : ∀ b ∈ live, (t.branches b).prefixId.toNat ≠ p := by
    intro b hb hp
    have hpos := branchesOn_pos hb hp
    omega
  refine ⟨hnone, ?_, fun b => ?_, fun b hb => ?_⟩
  · have hrefs : (fun q => Function.update held p (held p + 1) q + t'.branchesOn live q) =
        Function.update (fun q => held q + t.branchesOn live q) p 1 := by
      funext q
      rw [branchesOn_congr hbranches]
      by_cases hqp : q = p
      · rw [hqp, Function.update_self, Function.update_self]
        omega
      · rw [Function.update_of_ne hqp, Function.update_of_ne hqp]
    rw [hrefs]
    exact hcounts
  · rw [hbitmap]
    exact h.free b
  · obtain ⟨q, hq, hprom⟩ := h.owned b hb
    have hqp : q ≠ p := by
      rintro rfl
      exact hnone b hb hq
    refine ⟨q, by rw [hbranches, hq], ?_⟩
    rw [hprom, Function.update_of_ne hqp]

/-- The references held to the prefix `id` change to `n`, and the counts with them. -/
theorem Agrees.of_held (h : Agrees t held live registered promised) {id : BitVec 32} {p : PrefixId}
    (hid : id.toNat = p) {f : ℕ → ℕ} {n : ℕ} (hn : f (held p) + t.branchesOn live p = n)
    (hbranches : t'.branches = t.branches) (hbitmap : t'.branchBitmap = t.branchBitmap)
    (hcounts : t'.Counts (Function.update (fun q => held q + t.branchesOn live q) p n) registered) :
    Agrees t' (fun q => if id.toNat = q then f (held q) else held q) live registered promised := by
  refine ⟨?_, fun b => ?_, fun b hb => ?_⟩
  · have hrefs : (fun q : PrefixId => (if id.toNat = q then f (held q) else held q) +
        t'.branchesOn live q) = Function.update (fun q => held q + t.branchesOn live q) p n := by
      funext q
      rw [branchesOn_congr hbranches]
      by_cases hqp : q = p
      · rw [hqp, Function.update_self, if_pos hid, hn]
      · rw [Function.update_of_ne hqp, if_neg fun hq => hqp (Fin.ext (hq.symm.trans hid))]
    rw [hrefs]
    exact hcounts
  · rw [hbitmap]
    exact h.free b
  · rw [hbranches]
    exact h.owned b hb

/-- **Acquisition.** It is refused, or one more reference is held. -/
theorem Agrees.acquire (h : Agrees t held live registered promised) (id : BitVec 32) :
    kvPrefixAcquire t id = (t, false) ∨
      ∃ t', kvPrefixAcquire t id = (t', true) ∧
        ((∀ p : PrefixId, (if id.toNat = p then held p + 1 else held p) + t'.branchesOn live p <
            2 ^ 32) →
          Agrees t' (fun p => if id.toNat = p then held p + 1 else held p) live registered
            promised) := by
  by_cases huse : ∃ p : PrefixId, id.toNat = p ∧ held p + t.branchesOn live p ≠ 0
  · obtain ⟨p, hid, hcnt⟩ := huse
    obtain ⟨t', hacq, hbranches, hbitmap, hcounts⟩ := h.counts.acquire hid hcnt
    refine Or.inr ⟨t', hacq, fun hfew => ?_⟩
    have hp := hfew p
    rw [if_pos hid, branchesOn_congr hbranches] at hp
    refine h.of_held (f := (· + 1)) hid ?_ hbranches hbitmap (hcounts (by omega))
    omega
  · refine Or.inl (h.counts.acquire_unused fun p hid => ?_)
    by_contra hne
    exact huse ⟨p, hid, hne⟩

/-- **Release** of a reference that is held. -/
theorem Agrees.release (h : Agrees t held live registered promised) {id : BitVec 32} {p : PrefixId}
    (hid : id.toNat = p) (hheld : 0 < held p) :
    ∃ t', kvPrefixRelease t id = (t', true) ∧
      Agrees t' (fun q => if id.toNat = q then held q - 1 else held q) live registered promised := by
  obtain ⟨t', hrel, hbranches, hbitmap, hcounts⟩ := h.counts.release hid (by omega)
  refine ⟨t', hrel, h.of_held (f := (· - 1)) hid ?_ hbranches hbitmap hcounts⟩
  omega

/-- **Allocation of a branch** on a prefix in use. -/
theorem Agrees.branchAlloc (h : Agrees t held live registered promised) {rolloutId id : BitVec 32}
    {delta : BitVec 64} {len blocks : BitVec 32} {b : BranchId} {p : PrefixId} (hid : id.toNat = p)
    (huse : (t.prefixes p).refcnt ≠ 0)
    (halloc : kvBranchAlloc t rolloutId id delta len blocks = (t', some b))
    (hfew : ∀ q, held q + t'.branchesOn (insert b live) q < 2 ^ 32) :
    Agrees t' held (insert b live) registered (Function.update promised b (registered p)) := by
  have hcnt : held p + t.branchesOn live p ≠ 0 :=
    fun hzero => huse ((h.counts.refcnt_eq_zero_iff p).mpr hzero)
  obtain ⟨hfree, hbitmap, hself, hother, hcounts⟩ := h.counts.branchAlloc hid hcnt halloc
  have hb : b ∉ live := (h.free b).mp hfree
  have hne : ∀ c ∈ live, c ≠ b := fun c hc hcb => hb (hcb ▸ hc)
  have hon : ∀ q, t'.branchesOn (insert b live) q = t.branchesOn live q + if p = q then 1 else 0 := by
    intro q
    rw [branchesOn, card_filter_insert hb (f := fun c => (t.branches c).prefixId.toNat)
      (fun c hc => by rw [hother c (hne c hc)]) q, hself, hid, branchesOn]
    simp only [Fin.ext_iff]
  refine ⟨?_, fun c => ?_, fun c hc => ?_⟩
  · have hrefs := add_eq_update_succ held hon
    have hp := hfew p
    rw [congrFun hrefs p, Function.update_self] at hp
    rw [hrefs]
    exact hcounts hp
  · rw [hbitmap, bit_clearBit, Finset.mem_insert]
    by_cases hcb : c = b
    · simp [hcb]
    · simpa [hcb] using h.free c
  · rcases Finset.mem_insert.mp hc with rfl | hc
    · exact ⟨p, by rw [hself, hid], Function.update_self _ _ _⟩
    · obtain ⟨q, hq, hprom⟩ := h.owned c hc
      refine ⟨q, by rw [hother c (hne c hc), hq], ?_⟩
      rw [Function.update_of_ne (hne c hc), hprom]

/-- **Freeing a live branch.** -/
theorem Agrees.branchFree (h : Agrees t held live registered promised) {id : BitVec 32} {b : BranchId}
    (hb : b ∈ live) (hid : id.toNat = b) :
    ∃ t', kvBranchFree t id = (t', true) ∧
      Agrees t' held (live.filter fun c : BranchId => id.toNat ≠ c) registered promised := by
  obtain ⟨p, hp, -⟩ := h.owned b hb
  have hpos := branchesOn_pos hb hp
  obtain ⟨t', hfree, hbitmap, hother, hcounts⟩ := h.counts.branchFree hid hp (by omega)
  have herase : (live.filter fun c : BranchId => id.toNat ≠ c) = live.erase b := by
    ext c
    rw [Finset.mem_filter, Finset.mem_erase, hid, and_comm]
    simp only [ne_eq, Fin.ext_iff, eq_comm]
  have hon : ∀ q, t.branchesOn live q =
      t'.branchesOn (live.erase b) q + if p = q then 1 else 0 := by
    intro q
    rw [branchesOn, card_filter_erase hb (g := fun c => (t'.branches c).prefixId.toNat)
      (fun c hc => by rw [hother c (Finset.ne_of_mem_erase hc)]) q, hp, branchesOn]
    simp only [Fin.ext_iff]
  rw [herase]
  refine ⟨t', hfree, ?_, fun c => ?_, fun c hc => ?_⟩
  · have hrefs := add_eq_update_pred held hon
    rw [hrefs]
    exact hcounts
  · rw [hbitmap, bit_setBit, Finset.mem_erase]
    by_cases hcb : c = b
    · simp [hcb]
    · simpa [hcb] using h.free c
  · obtain ⟨q, hq, hprom⟩ := h.owned c (Finset.mem_of_mem_erase hc)
    exact ⟨q, by rw [hother c (Finset.ne_of_mem_erase hc), hq], hprom⟩

end KVPrefixTable

namespace Ledger

/-! ### Runs -/

/-- The table agrees with the ledger. -/
def Inv (s : Ledger) : Prop := s.table.Agrees s.held s.live s.registered s.promised

/-- One call of a disciplined sequence keeps the invariant. -/
theorem inv_step {s : Ledger} (hs : s.Inv) {x : PrefixCall} (hx : s.Allowed x)
    (hfew : (s.step x).Few) : (s.step x).Inv := by
  have hagrees : s.table.Agrees s.held s.live s.registered s.promised := hs
  cases x with
  | register kvOffset tokenLen nblocks =>
    change (s.register kvOffset tokenLen nblocks).Inv
    unfold Ledger.register
    rcases hreg : kvPrefixRegister s.table kvOffset tokenLen nblocks with ⟨t, _ | p⟩
    · obtain rfl := KVPrefixTable.register_eq_none hreg
      exact hagrees
    · exact (hagrees.register hreg).2
  | acquire id =>
    change (s.acquire id).Few at hfew
    change (s.acquire id).Inv
    unfold Ledger.acquire at hfew ⊢
    rcases hagrees.acquire id with heq | ⟨t, heq, hnext⟩
    · rw [heq]
      exact hagrees
    · rw [heq] at hfew ⊢
      exact hnext hfew
  | release id =>
    obtain ⟨p, hid, hheld⟩ := hx
    obtain ⟨t, heq, hnext⟩ := hagrees.release hid hheld
    change (s.release id).Inv
    unfold Ledger.release
    rw [heq]
    exact hnext
  | branchAlloc rolloutId id delta len blocks =>
    obtain ⟨p, hid, huse⟩ := hx
    change (s.branchAlloc rolloutId id delta len blocks).Few at hfew
    change (s.branchAlloc rolloutId id delta len blocks).Inv
    unfold Ledger.branchAlloc at hfew ⊢
    rcases halloc : kvBranchAlloc s.table rolloutId id delta len blocks with ⟨t, _ | b⟩
    · obtain rfl := KVPrefixTable.branchAlloc_eq_none halloc
      exact hagrees
    · rw [halloc] at hfew
      rw [indexOf_eq_some.mpr hid]
      exact hagrees.branchAlloc hid huse halloc hfew
  | branchFree id =>
    obtain ⟨b, hb, hid⟩ := hx
    obtain ⟨t, heq, hnext⟩ := hagrees.branchFree hb hid
    change (s.branchFree id).Inv
    unfold Ledger.branchFree
    rw [heq]
    exact hnext

theorem inv_run {s : Ledger} (hs : s.Inv) {xs : List PrefixCall} (hxs : s.Disciplined xs) :
    (s.run xs).Inv := by
  induction xs generalizing s with
  | nil => exact hs
  | cons x xs ih =>
    obtain ⟨hallowed, hfew, hrest⟩ := hxs
    exact ih (inv_step hs hallowed hfew) hrest

/-- **Reference counts.** After any disciplined sequence of calls: the count of every prefix is the number
of references held by registrants and acquirers and of live branches on it; its bit is set if and only
if the count is zero; the bit of a branch is clear if and only if the branch is live. So a registration
never returns a prefix that a live branch is on, and every live branch resolves to the offset its prefix
had been registered with when the branch was allocated. No allowed release or free is refused. -/
theorem kvPrefix_refcounts (xs : List PrefixCall) (h : init.Disciplined xs) :
    let s := init.run xs
    (∀ p, (s.table.prefixes p).refcnt.toNat = s.held p + s.table.branchesOn s.live p) ∧
    (∀ p, bit s.table.prefixBitmap p = true ↔ (s.table.prefixes p).refcnt = 0) ∧
    (∀ b, bit s.table.branchBitmap b = false ↔ b ∈ s.live) ∧
    (∀ kvOffset tokenLen nblocks t p,
      kvPrefixRegister s.table kvOffset tokenLen nblocks = (t, some p) →
      ∀ b ∈ s.live, (s.table.branches b).prefixId.toNat ≠ p) ∧
    (∀ b ∈ s.live, ∀ id : BitVec 32, id.toNat = b →
      kvBranchTotalOffset s.table id = s.promised b) ∧
    (∀ p, 0 < s.held p → ∀ id : BitVec 32, id.toNat = p → (kvPrefixRelease s.table id).2 = true) ∧
    ∀ b ∈ s.live, ∀ id : BitVec 32, id.toNat = b → (kvBranchFree s.table id).2 = true := by
  have hinit : init.Inv := KVPrefixTable.agrees_init
  have hagrees : (init.run xs).table.Agrees _ _ _ _ := inv_run hinit h
  have hcounts := hagrees.counts
  refine ⟨hcounts.refcnt, fun p => ?_, fun b => ?_, fun _ _ _ t p hreg => ?_, fun b hb id hid => ?_,
    fun p hheld id hid => ?_, fun b hb id hid => ?_⟩
  · rw [hcounts.free p, hcounts.refcnt_eq_zero_iff p]
  · rw [← Bool.not_eq_true, hagrees.free b, not_not]
  · exact (hagrees.register hreg).1
  · obtain ⟨p, hp, hprom⟩ := hagrees.owned b hb
    have hpos := KVPrefixTable.branchesOn_pos hb hp
    rw [kvBranchTotalOffset, indexOf_eq_some.mpr hid]
    dsimp only
    rw [indexOf_eq_some.mpr hp, hprom]
    exact hcounts.offset p (by omega)
  · obtain ⟨t, hrel, -⟩ := hagrees.release hid hheld
    rw [hrel]
  · obtain ⟨t, hrel, -⟩ := hagrees.branchFree hb hid
    rw [hrel]

instance (s : Ledger) (x : PrefixCall) : Decidable (s.Allowed x) := by
  unfold Allowed
  split <;> infer_instance

instance (s : Ledger) : Decidable s.Few := inferInstanceAs (Decidable (∀ _, _))

instance decidableDisciplined (s : Ledger) (xs : List PrefixCall) : Decidable (s.Disciplined xs) :=
  match xs with
  | [] => .isTrue trivial
  | x :: xs =>
    have := decidableDisciplined (s.step x) xs
    inferInstanceAs (Decidable (_ ∧ _ ∧ _))

/-- A prefix is registered, a branch is allocated on it, and the registrant lets go of it. -/
def shareOnce : List PrefixCall := [.register 4096 10 2, .branchAlloc 7 0 8192 3 1, .release 0]

/-- The first prefix and the first branch. -/
def firstPair : PrefixId × BranchId := (⟨0, by decide⟩, ⟨0, by decide⟩)

/-- The branch keeps the prefix in use and resolves to its offset. -/
theorem kvPrefix_refcounts_shareOnce :
    init.Disciplined shareOnce ∧ firstPair.2 ∈ (init.run shareOnce).live ∧
      ((init.run shareOnce).table.prefixes firstPair.1).refcnt.toNat = 1 ∧
      kvBranchTotalOffset (init.run shareOnce).table 0 = 4096 := by
  have hdisciplined : init.Disciplined shareOnce := by decide +kernel
  have hcounts := kvPrefix_refcounts shareOnce hdisciplined
  obtain ⟨s, hs⟩ : ∃ s, s = init.run shareOnce := ⟨_, rfl⟩
  have hlive : firstPair.2 ∈ s.live := by
    rw [hs]
    decide +kernel
  have hrefs : s.held firstPair.1 = 0 ∧ s.table.branchesOn s.live firstPair.1 = 1 := by
    rw [hs]
    decide +kernel
  have hpromised : s.promised firstPair.2 = 4096 := by
    rw [hs]
    decide +kernel
  rw [← hs] at hcounts ⊢
  obtain ⟨hrefcnt, -, -, -, hoffset, -⟩ := hcounts
  refine ⟨hdisciplined, hlive, ?_, ?_⟩
  · rw [hrefcnt firstPair.1, hrefs.1, hrefs.2]
  · exact (hoffset firstPair.2 hlive 0 rfl).trans hpromised

end Ledger

end RolloutRuntime
