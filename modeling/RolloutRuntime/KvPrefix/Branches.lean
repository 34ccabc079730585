import RolloutRuntime.KvPrefix.RefCounts

/-!
# Branches under arbitrary calls

The table does not know which calls it is made for. It frees a branch that is not allocated as it frees
one that is, taking a reference away from whatever prefix the entry names; it allocates a branch on a
prefix that is not in use, without the reference that freeing the branch gives back later; and the host
and the device resolve a branch on such a prefix to different offsets.

For each of the three this module has the property one would like to hold in every sequence of calls,
the sequences in which it holds, and one in which it does not.

## Main definitions

* `dKvBranchTotalOffset`: the offset of a branch on the device.
* `Along`: a condition on the calls of a run, each in the state it is made in.
* `Ledger.HarmlessFree`, `Ledger.FreesAllocated`: freeing branches, and the frees that do no harm.
* `Holders`, `Holders.CleanAlloc`, `Holders.AllocatesInUse`: who holds the references, allocating
  branches, and the allocations that take one.

## Main results

* `KVPrefixTable.release_refcnt`, `KVPrefixTable.branchFree_spec`, `KVPrefixTable.branchAlloc_spec`:
  the operations in any table.
* `Ledger.kvBranchTotalOffset_eq_device_iff`: where the two offsets of a branch agree.
* `Ledger.kvBranchFree_harmless_iff`: the sequences of calls in which freeing does no harm.
* `Holders.kvBranchAlloc_clean_iff`: the sequences of calls in which every allocation takes the
  reference that freeing the branch gives back.

## References

* `src/kv_prefix.c` lines 66–149, `cu/kv_prefix.cu` lines 4–23.
-/

namespace RolloutRuntime

open Bitmap

/-! ### Conditions on a run -/

section Along

variable {σ χ : Type} (step : σ → χ → σ)

/-- Every call of the run meets the condition in the state it is made in. -/
def Along (P : σ → χ → Prop) : σ → List χ → Prop
  | _, [] => True
  | s, x :: xs => P s x ∧ Along P (step s x) xs

/-- Two conditions agree along a run if they agree in the states of an invariant that is kept by the
calls that meet them. -/
theorem along_iff {P Q : σ → χ → Prop} {I : σ → Prop} (hPQ : ∀ s x, I s → (P s x ↔ Q s x))
    (hI : ∀ s x, I s → Q s x → I (step s x)) {s : σ} (hs : I s) (xs : List χ) :
    Along step P s xs ↔ Along step Q s xs := by
  induction xs generalizing s with
  | nil => exact Iff.rfl
  | cons x xs ih =>
    rw [Along, Along, hPQ s x hs]
    exact and_congr_right fun hQ => ih (hI s x hs hQ)

end Along

/-! ### The device -/

/-- `d_kv_branch_total_offset`; `-1` if the id is out of range. A prefix that is not in use is passed
over. -/
def dKvBranchTotalOffset (t : KVPrefixTable) (branchId : BitVec 32) : BitVec 64 :=
  match indexOf (256 * 64) branchId with
  | none => -1
  | some b =>
    match indexOf (8 * 64) (t.branches b).prefixId with
    | none => (t.branches b).deltaKvOffset
    | some p =>
      if (t.prefixes p).refcnt = 0 then (t.branches b).deltaKvOffset
      else (t.prefixes p).kvBlockOffset

/-! ### The operations in any table -/

namespace KVPrefixTable

variable (t : KVPrefixTable)

theorem acquire_branches (id : BitVec 32) :
    (kvPrefixAcquire t id).1.branches = t.branches ∧
      (kvPrefixAcquire t id).1.branchBitmap = t.branchBitmap := by
  unfold kvPrefixAcquire
  split
  · exact ⟨rfl, rfl⟩
  · split_ifs <;> exact ⟨rfl, rfl⟩

theorem release_branches (id : BitVec 32) :
    (kvPrefixRelease t id).1.branches = t.branches ∧
      (kvPrefixRelease t id).1.branchBitmap = t.branchBitmap := by
  unfold kvPrefixRelease
  split
  · exact ⟨rfl, rfl⟩
  · dsimp only
    split_ifs <;> exact ⟨rfl, rfl⟩

theorem register_branches (kvOffset : BitVec 64) (tokenLen nblocks : BitVec 32) :
    (kvPrefixRegister t kvOffset tokenLen nblocks).1.branches = t.branches ∧
      (kvPrefixRegister t kvOffset tokenLen nblocks).1.branchBitmap = t.branchBitmap := by
  unfold kvPrefixRegister
  split <;> exact ⟨rfl, rfl⟩

theorem setPrefix_refcnt (p q : PrefixId) (x : KVPrefix) :
    ((t.setPrefix p x).prefixes q).refcnt =
      if q = p then x.refcnt else (t.prefixes q).refcnt := by
  change (Function.update t.prefixes p x q).refcnt = _
  rw [Function.update_apply]
  split_ifs <;> rfl

theorem refcnt_ne_zero_iff (p : PrefixId) :
    (t.prefixes p).refcnt ≠ 0 ↔ 0 < (t.prefixes p).refcnt.toNat := by
  rw [← BitVec.toNat_ne_iff_ne, Nat.pos_iff_ne_zero]
  rfl

theorem refcnt_sub_one {p : PrefixId} (h : (t.prefixes p).refcnt ≠ 0) :
    ((t.prefixes p).refcnt - 1).toNat = (t.prefixes p).refcnt.toNat - 1 := by
  have hpos : 0 < (t.prefixes p).refcnt.toNat := (t.refcnt_ne_zero_iff p).mp h
  exact BitVec.toNat_sub_of_le hpos

/-- **Release**, of any id: the prefix loses a reference if it has one. -/
theorem release_refcnt (id : BitVec 32) (q : PrefixId) :
    ((kvPrefixRelease t id).1.prefixes q).refcnt.toNat =
      (t.prefixes q).refcnt.toNat - if id.toNat = q then 1 else 0 := by
  unfold kvPrefixRelease
  rcases hindex : indexOf (8 * 64) id with _ | p
  · rw [if_neg (indexOf_eq_none.mp hindex q), Nat.sub_zero]
  · have hid : id.toNat = p := indexOf_eq_some.mp hindex
    have hiff : id.toNat = q ↔ q = p := by rw [hid, Fin.ext_iff, eq_comm]
    simp only [hiff]
    by_cases hzero : (t.prefixes p).refcnt = 0
    · rw [if_pos hzero]
      by_cases hqp : q = p
      · rw [hqp, if_pos rfl, hzero]
        rfl
      · rw [if_neg hqp, Nat.sub_zero]
    · rw [if_neg hzero]
      have hsub := t.refcnt_sub_one hzero
      split_ifs with hlast hqp hqp
      · rw [setPrefix_refcnt, if_pos hqp, hsub, hqp]
      · rw [setPrefix_refcnt, if_neg hqp, Nat.sub_zero]
      · rw [setPrefix_refcnt, if_pos hqp, hsub, hqp]
      · rw [setPrefix_refcnt, if_neg hqp, Nat.sub_zero]

theorem acquire_prefixes_congr {t t' : KVPrefixTable} (h : t'.prefixes = t.prefixes)
    (id : BitVec 32) : (kvPrefixAcquire t' id).1.prefixes = (kvPrefixAcquire t id).1.prefixes := by
  unfold kvPrefixAcquire
  rw [h]
  split
  · exact h
  · split_ifs
    · exact h
    · simp only [setPrefix, h]

/-- **Acquisition**: the counts of the prefixes afterwards. -/
theorem acquire_refcnt (id : BitVec 32) (q : PrefixId) :
    ((kvPrefixAcquire t id).1.prefixes q).refcnt =
      if id.toNat = q ∧ (t.prefixes q).refcnt ≠ 0 then (t.prefixes q).refcnt + 1
      else (t.prefixes q).refcnt := by
  unfold kvPrefixAcquire
  rcases hindex : indexOf (8 * 64) id with _ | p
  · rw [if_neg fun h => indexOf_eq_none.mp hindex q h.1]
  · have hid : id.toNat = p := indexOf_eq_some.mp hindex
    have hiff : id.toNat = q ↔ q = p := by rw [hid, Fin.ext_iff, eq_comm]
    simp only [hiff]
    by_cases hzero : (t.prefixes p).refcnt = 0
    · rw [if_pos hzero, if_neg]
      rintro ⟨rfl, hne⟩
      exact hne hzero
    · rw [if_neg hzero, setPrefix_refcnt]
      by_cases hqp : q = p
      · rw [if_pos hqp, if_pos ⟨hqp, by rwa [hqp]⟩, hqp]
      · rw [if_neg hqp, if_neg fun h => hqp h.1]

/-- **Freeing**, of any branch: its entry is free, and the prefix it names loses a reference. -/
theorem branchFree_spec {id : BitVec 32} {b : BranchId} (hid : id.toNat = b) :
    ∃ t', kvBranchFree t id = (t', true) ∧ t'.branchBitmap = setBit t.branchBitmap b ∧
      (∀ c, (t'.branches c).prefixId = (t.branches c).prefixId) ∧
      ∀ q : PrefixId, (t'.prefixes q).refcnt.toNat =
        (t.prefixes q).refcnt.toNat - if (t.branches b).prefixId.toNat = q then 1 else 0 := by
  obtain ⟨hbranches, hbitmap⟩ := t.release_branches (t.branches b).prefixId
  rw [kvBranchFree, indexOf_eq_some.mpr hid]
  refine ⟨_, rfl, ?_, fun c => ?_, fun q => t.release_refcnt _ q⟩
  · simp only [setBranch, bitmapFree, hbitmap]
  · simp only [setBranch, hbranches]
    by_cases hc : c = b
    · rw [hc, Function.update_self]
    · rw [Function.update_of_ne hc]

theorem branchFree_out_of_range {id : BitVec 32} (hid : ∀ b : BranchId, id.toNat ≠ b) :
    kvBranchFree t id = (t, false) := by
  rw [kvBranchFree, indexOf_eq_none.mpr hid]

/-- **Allocation**, on any prefix: a free entry comes to name it, and the references are those of an
acquisition. -/
theorem branchAlloc_spec {t t' : KVPrefixTable} {rolloutId id : BitVec 32} {delta : BitVec 64}
    {len blocks : BitVec 32} {b : BranchId}
    (h : kvBranchAlloc t rolloutId id delta len blocks = (t', some b)) :
    bit t.branchBitmap b = true ∧ t'.branchBitmap = clearBit t.branchBitmap b ∧
      (t'.branches b).prefixId = id ∧ (∀ c, c ≠ b → t'.branches c = t.branches c) ∧
      t'.prefixes = (kvPrefixAcquire t id).1.prefixes := by
  unfold kvBranchAlloc at h
  rcases hfree : bitmapAlloc t.branchBitmap with _ | ⟨c, bm⟩
  · rw [hfree] at h
    exact absurd (congrArg Prod.snd h) (by simp)
  · rw [hfree] at h
    obtain ⟨rfl, hc⟩ := Prod.mk.inj h
    obtain rfl := Option.some_inj.mp hc
    obtain ⟨hbit, rfl⟩ := bitmapAlloc_eq_some hfree
    let t₁ := { t with branchBitmap := clearBit t.branchBitmap c }.setBranch c
      ⟨BitVec.ofNat 32 c, rolloutId, id, delta, len, blocks, 0, 0⟩
    obtain ⟨hbranches, hbitmap⟩ := t₁.acquire_branches id
    refine ⟨hbit, hbitmap, ?_, fun d hd => ?_, ?_⟩
    · rw [hbranches]
      simp only [t₁, setBranch, Function.update_self]
    · rw [hbranches]
      simp only [t₁, setBranch, Function.update_of_ne hd]
    · have hprefixes : t₁.prefixes = t.prefixes := rfl
      exact acquire_prefixes_congr hprefixes id

/-- An allocation is refused exactly if no entry is free. -/
theorem branchAlloc_refused_iff (rolloutId id : BitVec 32) (delta : BitVec 64)
    (len blocks : BitVec 32) :
    (kvBranchAlloc t rolloutId id delta len blocks).2 = none ↔ ∀ b, bit t.branchBitmap b = false := by
  unfold kvBranchAlloc
  rcases hfree : bitmapAlloc t.branchBitmap with _ | ⟨b, bm⟩
  · exact iff_of_true rfl (lowestBit_eq_none_iff.mp (Option.map_eq_none_iff.mp hfree))
  · refine iff_of_false (by simp) fun hall => ?_
    have hbit := (bitmapAlloc_eq_some hfree).1
    rw [hall b] at hbit
    exact absurd hbit (by decide)

end KVPrefixTable

namespace Ledger

/-! ### Resolving a branch on the host and on the device -/

/-- **The offset of a branch** on the host is that on the device, in every table that calls can lead to,
unless the branch names a prefix that is not in use: the device then answers the offset of the branch
itself, and the host what is left in the entry of the prefix. -/
theorem kvBranchTotalOffset_eq_device_iff (xs : List PrefixCall) (branchId : BitVec 32) :
    let t := (init.run xs).table
    kvBranchTotalOffset t branchId = dKvBranchTotalOffset t branchId ↔
      ∀ (b : BranchId) (p : PrefixId), branchId.toNat = b → (t.branches b).prefixId.toNat = p →
        (t.prefixes p).refcnt = 0 → (t.prefixes p).kvBlockOffset = (t.branches b).deltaKvOffset := by
  intro t
  rcases hbranch : indexOf (256 * 64) branchId with _ | b
  · refine iff_of_true ?_ fun b p hb => absurd hb (indexOf_eq_none.mp hbranch b)
    rw [kvBranchTotalOffset, dKvBranchTotalOffset, hbranch]
  · have hb := indexOf_eq_some.mp hbranch
    have huniq : ∀ c : BranchId, branchId.toNat = c → c = b := fun c hc => Fin.ext (hc.symm.trans hb)
    rw [kvBranchTotalOffset, dKvBranchTotalOffset, hbranch]
    dsimp only
    rcases hnames : indexOf (8 * 64) (t.branches b).prefixId with _ | p
    · refine iff_of_true rfl fun c p hc hp => ?_
      rw [huniq c hc] at hp
      exact absurd hp (indexOf_eq_none.mp hnames p)
    · have hp := indexOf_eq_some.mp hnames
      dsimp only
      constructor
      · intro heq c q hc hq hzero
        obtain rfl := huniq c hc
        obtain rfl : q = p := Fin.ext (hq.symm.trans hp)
        rwa [if_pos hzero] at heq
      · intro h
        split_ifs with hzero
        · exact h b p hb hp hzero
        · rfl

/-- A branch on a prefix that was never registered: the host and the device disagree about it. -/
theorem kvBranchTotalOffset_ne_device :
    let t := (init.run [.branchAlloc 0 3 7 1 1]).table
    kvBranchTotalOffset t 0 = 0 ∧ dKvBranchTotalOffset t 0 = 7 := by
  decide +kernel

/-! ### Calls on the ledger -/

theorem register_frame (s : Ledger) (kvOffset : BitVec 64) (tokenLen nblocks : BitVec 32) :
    (s.register kvOffset tokenLen nblocks).live = s.live ∧
      (s.register kvOffset tokenLen nblocks).table.branches = s.table.branches ∧
      (s.register kvOffset tokenLen nblocks).table.branchBitmap = s.table.branchBitmap := by
  have hframe := s.table.register_branches kvOffset tokenLen nblocks
  unfold register
  split <;> rename_i heq <;> rw [heq] at hframe <;> exact ⟨rfl, hframe⟩

theorem acquire_frame (s : Ledger) (id : BitVec 32) :
    (s.acquire id).live = s.live ∧ (s.acquire id).table.branches = s.table.branches ∧
      (s.acquire id).table.branchBitmap = s.table.branchBitmap := by
  have hframe := s.table.acquire_branches id
  unfold acquire
  split <;> rename_i heq <;> rw [heq] at hframe <;> exact ⟨rfl, hframe⟩

theorem release_frame (s : Ledger) (id : BitVec 32) :
    (s.release id).live = s.live ∧ (s.release id).table.branches = s.table.branches ∧
      (s.release id).table.branchBitmap = s.table.branchBitmap := by
  have hframe := s.table.release_branches id
  unfold release
  split <;> rename_i heq <;> rw [heq] at hframe <;> exact ⟨rfl, hframe⟩

theorem branchFree_eq (s : Ledger) {id : BitVec 32} {b : BranchId} (hid : id.toNat = b) :
    ∃ t, kvBranchFree s.table id = (t, true) ∧
      s.branchFree id = { s with table := t, live := s.live.erase b } ∧
      t.branchBitmap = setBit s.table.branchBitmap b ∧
      (∀ c, (t.branches c).prefixId = (s.table.branches c).prefixId) ∧
      ∀ q : PrefixId, (t.prefixes q).refcnt.toNat = (s.table.prefixes q).refcnt.toNat -
        if (s.table.branches b).prefixId.toNat = q then 1 else 0 := by
  obtain ⟨t, hfree, hspec⟩ := s.table.branchFree_spec hid
  have herase : (s.live.filter fun c : BranchId => id.toNat ≠ c) = s.live.erase b := by
    ext c
    rw [Finset.mem_filter, Finset.mem_erase, hid, and_comm]
    simp only [ne_eq, Fin.ext_iff, eq_comm]
  refine ⟨t, hfree, ?_, hspec⟩
  rw [branchFree, hfree, ← herase]

theorem branchFree_eq_self (s : Ledger) {id : BitVec 32} (hid : ∀ b : BranchId, id.toNat ≠ b) :
    s.branchFree id = s := by
  rw [branchFree, s.table.branchFree_out_of_range hid]

/-- Allocating a branch: refused, or a free entry is now live. -/
theorem branchAlloc_eq (s : Ledger) (rolloutId id : BitVec 32) (delta : BitVec 64)
    (len blocks : BitVec 32) :
    (kvBranchAlloc s.table rolloutId id delta len blocks = (s.table, none) ∧
      s.branchAlloc rolloutId id delta len blocks = s) ∨
    ∃ t b, kvBranchAlloc s.table rolloutId id delta len blocks = (t, some b) ∧
      (s.branchAlloc rolloutId id delta len blocks).table = t ∧
      (s.branchAlloc rolloutId id delta len blocks).live = insert b s.live := by
  unfold branchAlloc
  rcases halloc : kvBranchAlloc s.table rolloutId id delta len blocks with ⟨t, _ | b⟩
  · obtain rfl := KVPrefixTable.branchAlloc_eq_none halloc
    exact Or.inl ⟨rfl, rfl⟩
  · exact Or.inr ⟨t, b, rfl, rfl, rfl⟩

/-! ### Freeing branches -/

/-- The free entries are those of the branches that are not live. -/
def FreeNotLive (s : Ledger) : Prop := ∀ b, bit s.table.branchBitmap b = true ↔ b ∉ s.live

theorem FreeNotLive.congr {s s' : Ledger} (hs : s.FreeNotLive)
    (h : s'.live = s.live ∧ s'.table.branches = s.table.branches ∧
      s'.table.branchBitmap = s.table.branchBitmap) : s'.FreeNotLive := by
  intro b
  rw [h.1, h.2.2]
  exact hs b

/-- Every call keeps it, whatever its arguments. -/
theorem FreeNotLive.step {s : Ledger} (hs : s.FreeNotLive) (x : PrefixCall) :
    (s.step x).FreeNotLive := by
  cases x with
  | register kvOffset tokenLen nblocks => exact hs.congr (s.register_frame kvOffset tokenLen nblocks)
  | acquire id => exact hs.congr (s.acquire_frame id)
  | release id => exact hs.congr (s.release_frame id)
  | branchAlloc rolloutId id delta len blocks =>
    change (s.branchAlloc rolloutId id delta len blocks).FreeNotLive
    rcases s.branchAlloc_eq rolloutId id delta len blocks with ⟨-, heq⟩ | ⟨t, b, heq, ht, hlive⟩
    · rw [heq]
      exact hs
    · intro c
      rw [ht, hlive, (KVPrefixTable.branchAlloc_spec heq).2.1, bit_clearBit, Finset.mem_insert]
      by_cases hcb : c = b
      · simp [hcb]
      · simpa [hcb] using hs c
  | branchFree id =>
    change (s.branchFree id).FreeNotLive
    by_cases hrange : ∃ b : BranchId, id.toNat = b
    · obtain ⟨b, hid⟩ := hrange
      obtain ⟨t, -, heq, hbitmap, -⟩ := s.branchFree_eq hid
      intro c
      rw [heq, hbitmap, bit_setBit, Finset.mem_erase]
      by_cases hcb : c = b
      · simp [hcb]
      · simpa [hcb] using hs c
    · rw [s.branchFree_eq_self fun b hb => hrange ⟨b, hb⟩]
      exact hs

/-- Freeing a branch that is not allocated is refused and changes no prefix, count or bitmap; and
freeing any branch leaves a prefix as many references as it has live branches, if it had as many
before. -/
def HarmlessFree (s : Ledger) : PrefixCall → Prop
  | .branchFree id =>
    ((∀ b ∈ s.live, id.toNat ≠ b) →
      ∃ t, kvBranchFree s.table id = (t, false) ∧ t.prefixes = s.table.prefixes ∧
        t.prefixBitmap = s.table.prefixBitmap ∧ t.branchBitmap = s.table.branchBitmap) ∧
    ∀ p, s.table.branchesOn s.live p ≤ (s.table.prefixes p).refcnt.toNat →
      (s.branchFree id).table.branchesOn (s.branchFree id).live p ≤
        ((s.branchFree id).table.prefixes p).refcnt.toNat
  | _ => True

/-- Only ids out of range and branches whose entries are not free are freed. -/
def FreesAllocated (s : Ledger) : PrefixCall → Prop
  | .branchFree id => ∀ b : BranchId, id.toNat = b → bit s.table.branchBitmap b = false
  | _ => True

theorem branchesOn_branchFree {s : Ledger} {id : BitVec 32} {b : BranchId} (hid : id.toNat = b)
    (hb : b ∈ s.live) (p : PrefixId)
    (hp : s.table.branchesOn s.live p ≤ (s.table.prefixes p).refcnt.toNat) :
    (s.branchFree id).table.branchesOn (s.branchFree id).live p ≤
      ((s.branchFree id).table.prefixes p).refcnt.toNat := by
  obtain ⟨t, -, heq, -, hnames, hrefcnt⟩ := s.branchFree_eq hid
  have hcard := card_filter_erase hb (f := fun c => (s.table.branches c).prefixId.toNat)
    (g := fun c => (t.branches c).prefixId.toNat) (fun c _ => by rw [hnames c]) p
  rw [heq]
  change ((s.live.erase b).filter fun c => (t.branches c).prefixId.toNat = p).card ≤
    (t.prefixes p).refcnt.toNat
  rw [KVPrefixTable.branchesOn, hcard] at hp
  rw [hrefcnt p]
  omega

theorem harmlessFree_iff {s : Ledger} (hs : s.FreeNotLive) (x : PrefixCall) :
    s.HarmlessFree x ↔ s.FreesAllocated x := by
  cases x with
  | register | acquire | release | branchAlloc => exact Iff.rfl
  | branchFree id =>
    constructor
    · rintro ⟨hrefused, -⟩ b hid
      by_contra hbit
      have hb : b ∉ s.live := (hs b).mp (by simpa using hbit)
      obtain ⟨t, heq, -⟩ := hrefused fun c hc hcid => hb (Fin.ext (hid.symm.trans hcid) ▸ hc)
      obtain ⟨t', heq', -⟩ := s.branchFree_eq hid
      rw [heq] at heq'
      exact absurd (congrArg Prod.snd heq') (by simp)
    · intro hfrees
      have hlive : ∀ b : BranchId, id.toNat = b → b ∈ s.live := by
        intro b hid
        by_contra hb
        have hbit := (hs b).mpr hb
        rw [hfrees b hid] at hbit
        exact absurd hbit (by decide)
      refine ⟨fun hnone => ?_, fun p hp => ?_⟩
      · have hrange : ∀ b : BranchId, id.toNat ≠ b := fun b hid => hnone b (hlive b hid) hid
        exact ⟨s.table, s.table.branchFree_out_of_range hrange, rfl, rfl, rfl⟩
      · by_cases hrange : ∃ b : BranchId, id.toNat = b
        · obtain ⟨b, hid⟩ := hrange
          exact branchesOn_branchFree hid (hlive b hid) p hp
        · rwa [s.branchFree_eq_self fun b hb => hrange ⟨b, hb⟩]

theorem freeNotLive_init : init.FreeNotLive := by
  intro b
  rw [init, kvPrefixTableInit, bit_ones]
  simp

/-- **Freeing branches.** In a sequence of calls with any arguments, freeing does no harm if and only if
no branch is freed whose entry is free already. -/
theorem kvBranchFree_harmless_iff (xs : List PrefixCall) :
    Along step HarmlessFree init xs ↔ Along step FreesAllocated init xs :=
  along_iff step (I := FreeNotLive) (fun _ x hs => harmlessFree_iff hs x)
    (fun _ x hs _ => hs.step x) freeNotLive_init xs

/-- Two branches on a registered prefix; the first is freed three times. -/
def freeThrice : List PrefixCall :=
  [.register 4096 10 2, .branchAlloc 7 0 8192 3 1, .branchAlloc 8 0 8192 3 1, .branchFree 0,
    .branchFree 0, .branchFree 0]

/-- The second time takes the reference of the registrant, and the third that of the second branch,
which stays live: the prefix is recycled under it. -/
theorem kvBranchFree_twice_harms :
    ¬ Along step HarmlessFree init freeThrice ∧ firstPair.2 ∉ (init.run freeThrice).live ∧
      (init.run freeThrice).live.card = 1 ∧
      ((init.run freeThrice).table.prefixes firstPair.1).refcnt = 0 := by
  refine ⟨fun h => ?_, by decide +kernel, by decide +kernel, by decide +kernel⟩
  obtain ⟨-, -, -, -, hagain, -⟩ := h
  have hfrees := (harmlessFree_iff ((((freeNotLive_init.step _).step _).step _).step _) _).mp hagain
  have hbit := hfrees firstPair.2 rfl
  revert hbit
  decide +kernel

end Ledger

/-! ### Allocating branches -/

/-- The ledger, and the prefix on which the allocation of each branch took a reference, if it took
one. -/
structure Holders where
  ledger : Ledger
  took : BranchId → Option PrefixId

namespace Holders

/-- A new table, and nothing held. -/
def init : Holders := ⟨Ledger.init, fun _ => none⟩

/-- The prefix named by an allocation, if it has one reference more afterwards. -/
def takenOn (t t' : KVPrefixTable) (id : BitVec 32) : Option PrefixId :=
  (indexOf (8 * 64) id).filter fun p =>
    (t'.prefixes p).refcnt.toNat = (t.prefixes p).refcnt.toNat + 1

/-- What the branches took, after an allocation on the prefix `id` with its answer. -/
def record (s : Holders) (id : BitVec 32) :
    KVPrefixTable × Option BranchId → BranchId → Option PrefixId
  | (_, none) => s.took
  | (t, some b) => Function.update s.took b (takenOn s.ledger.table t id)

/-- One call. -/
def step (s : Holders) (x : PrefixCall) : Holders where
  ledger := s.ledger.step x
  took :=
    match x with
    | .branchAlloc rolloutId id delta len blocks =>
      s.record id (kvBranchAlloc s.ledger.table rolloutId id delta len blocks)
    | _ => s.took

theorem step_branchAlloc (s : Holders) (rolloutId id : BitVec 32) (delta : BitVec 64)
    (len blocks : BitVec 32) :
    s.step (.branchAlloc rolloutId id delta len blocks) =
      ⟨s.ledger.branchAlloc rolloutId id delta len blocks,
        s.record id (kvBranchAlloc s.ledger.table rolloutId id delta len blocks)⟩ := by
  rw [step, Ledger.step]

theorem step_branchFree (s : Holders) (id : BitVec 32) :
    s.step (.branchFree id) = ⟨s.ledger.branchFree id, s.took⟩ := rfl

/-- The references to a prefix of which someone is the holder: those of registrants and acquirers, and
those that the allocations of live branches took. -/
def owed (s : Holders) (p : PrefixId) : ℕ :=
  s.ledger.held p + (s.ledger.live.filter fun b => s.took b = some p).card

/-- An allocation on a prefix out of range or not in use is refused and leaves the table as it is; one
that succeeds finds the prefix in use and adds exactly one reference. Freeing a live branch then takes
no reference away from anyone else: it leaves every prefix the references that are held to it. -/
def CleanAlloc (s : Holders) : PrefixCall → Prop
  | .branchAlloc rolloutId id delta len blocks =>
    ((∀ p : PrefixId, id.toNat = p → (s.ledger.table.prefixes p).refcnt = 0) →
      kvBranchAlloc s.ledger.table rolloutId id delta len blocks = (s.ledger.table, none)) ∧
    ∀ t b, kvBranchAlloc s.ledger.table rolloutId id delta len blocks = (t, some b) →
      ∃ p : PrefixId, id.toNat = p ∧ (s.ledger.table.prefixes p).refcnt ≠ 0 ∧
        (t.prefixes p).refcnt.toNat = (s.ledger.table.prefixes p).refcnt.toNat + 1
  | .branchFree id => ∀ b ∈ s.ledger.live, id.toNat = (b : ℕ) → ∀ p,
      s.owed p ≤ (s.ledger.table.prefixes p).refcnt.toNat →
      (s.step (.branchFree id)).owed p ≤
        ((s.step (.branchFree id)).ledger.table.prefixes p).refcnt.toNat
  | _ => True

/-- Branches are allocated on prefixes in use whose count does not overflow, or when no entry is free. -/
def AllocatesInUse (s : Holders) : PrefixCall → Prop
  | .branchAlloc _ id _ _ _ => (∀ b, bit s.ledger.table.branchBitmap b = false) ∨
      ∃ p : PrefixId, id.toNat = p ∧ 0 < (s.ledger.table.prefixes p).refcnt.toNat ∧
        (s.ledger.table.prefixes p).refcnt.toNat + 1 < 2 ^ 32
  | _ => True

/-- Every live branch took a reference on the prefix its entry names. -/
def OwnReference (s : Holders) : Prop :=
  ∀ b ∈ s.ledger.live, ∃ p : PrefixId, s.took b = some p ∧
    (s.ledger.table.branches b).prefixId.toNat = p

section Alloc

variable {s : Holders} {rolloutId id : BitVec 32} {delta : BitVec 64} {len blocks : BitVec 32}

/-- An allocation on a prefix in use whose count does not overflow adds a reference. -/
theorem refcnt_branchAlloc {t t' : KVPrefixTable} {b : BranchId} {p : PrefixId}
    (halloc : kvBranchAlloc t rolloutId id delta len blocks = (t', some b)) (hid : id.toNat = p)
    (hpos : 0 < (t.prefixes p).refcnt.toNat) (hlt : (t.prefixes p).refcnt.toNat + 1 < 2 ^ 32) :
    (t'.prefixes p).refcnt.toNat = (t.prefixes p).refcnt.toNat + 1 := by
  have hne := (t.refcnt_ne_zero_iff p).mpr hpos
  obtain ⟨-, -, -, -, hprefixes⟩ := KVPrefixTable.branchAlloc_spec halloc
  rw [hprefixes, t.acquire_refcnt, if_pos ⟨hid, hne⟩, BitVec.toNat_add]
  exact Nat.mod_eq_of_lt hlt

theorem cleanAlloc_branchAlloc_iff :
    s.CleanAlloc (.branchAlloc rolloutId id delta len blocks) ↔
      s.AllocatesInUse (.branchAlloc rolloutId id delta len blocks) := by
  constructor
  · rintro ⟨-, hgrew⟩
    rcases s.ledger.branchAlloc_eq rolloutId id delta len blocks with ⟨heq, -⟩ | ⟨t, b, heq, -, -⟩
    · have hnone := congrArg Prod.snd heq
      exact Or.inl ((s.ledger.table.branchAlloc_refused_iff _ _ _ _ _).mp hnone)
    · obtain ⟨p, hid, hne, hcount⟩ := hgrew t b heq
      have hlt := (t.prefixes p).refcnt.isLt
      refine Or.inr ⟨p, hid, (s.ledger.table.refcnt_ne_zero_iff p).mp hne, ?_⟩
      rwa [hcount] at hlt
  · rintro (hfull | ⟨p, hid, hpos, hlt⟩)
    · have hnone :=
        (s.ledger.table.branchAlloc_refused_iff rolloutId id delta len blocks).mpr hfull
      rcases s.ledger.branchAlloc_eq rolloutId id delta len blocks with ⟨heq, -⟩ | ⟨t, b, heq, -, -⟩
      · refine ⟨fun _ => heq, fun t b heq' => ?_⟩
        rw [heq] at heq'
        exact absurd (congrArg Prod.snd heq') (by simp)
      · rw [heq] at hnone
        exact absurd hnone (by simp)
    · have hne := (s.ledger.table.refcnt_ne_zero_iff p).mpr hpos
      exact ⟨fun hdead => absurd (hdead p hid) hne, fun t b heq =>
        ⟨p, hid, hne, refcnt_branchAlloc heq hid hpos hlt⟩⟩

end Alloc

theorem OwnReference.congr {s : Holders} (hs : s.OwnReference) {l : Ledger}
    (h : l.live = s.ledger.live ∧ l.table.branches = s.ledger.table.branches ∧
      l.table.branchBitmap = s.ledger.table.branchBitmap) : OwnReference ⟨l, s.took⟩ := by
  intro b hb
  change b ∈ l.live at hb
  rw [h.1] at hb
  obtain ⟨p, htook, hp⟩ := hs b hb
  refine ⟨p, htook, ?_⟩
  change (l.table.branches b).prefixId.toNat = p
  rw [h.2.1, hp]

theorem OwnReference.insert {s : Holders} (hs : s.OwnReference) {l : Ledger} {b : BranchId}
    {p : PrefixId} (hlive : l.live = insert b s.ledger.live)
    (hself : (l.table.branches b).prefixId.toNat = p)
    (hother : ∀ c, c ≠ b → l.table.branches c = s.ledger.table.branches c) :
    OwnReference ⟨l, Function.update s.took b (some p)⟩ := by
  intro c hc
  change c ∈ l.live at hc
  rw [hlive] at hc
  dsimp only
  by_cases hcb : c = b
  · rw [hcb]
    exact ⟨p, Function.update_self _ _ _, hself⟩
  · obtain ⟨q, htook, hq⟩ := hs c ((Finset.mem_insert.mp hc).resolve_left hcb)
    exact ⟨q, by rw [Function.update_of_ne hcb, htook], by rw [hother c hcb, hq]⟩

/-- Clean allocations give every live branch a reference of its own. -/
theorem OwnReference.step {s : Holders} (hs : s.OwnReference) {x : PrefixCall}
    (hx : s.AllocatesInUse x) : (s.step x).OwnReference := by
  cases x with
  | register kvOffset tokenLen nblocks =>
    exact hs.congr (s.ledger.register_frame kvOffset tokenLen nblocks)
  | acquire id => exact hs.congr (s.ledger.acquire_frame id)
  | release id => exact hs.congr (s.ledger.release_frame id)
  | branchAlloc rolloutId id delta len blocks =>
    rw [step_branchAlloc]
    rcases s.ledger.branchAlloc_eq rolloutId id delta len blocks with
      ⟨heq, hsame⟩ | ⟨t, b, heq, ht, hlive⟩
    · rw [hsame, heq]
      exact hs
    · obtain ⟨hfree, -, hself, hother, -⟩ := KVPrefixTable.branchAlloc_spec heq
      rw [heq, record]
      rcases hx with hfull | ⟨p, hid, hpos, hlt⟩
      · rw [hfull b] at hfree
        exact absurd hfree (by decide)
      · have htook : takenOn s.ledger.table t id = some p := by
          rw [takenOn, indexOf_eq_some.mpr hid]
          simp [refcnt_branchAlloc heq hid hpos hlt]
        rw [htook]
        refine hs.insert hlive (by rw [ht, hself, hid]) fun c hc => ?_
        rw [ht, hother c hc]
  | branchFree id =>
    rw [step_branchFree]
    by_cases hrange : ∃ b : BranchId, id.toNat = b
    · obtain ⟨b, hid⟩ := hrange
      obtain ⟨t, -, heq, -, hnames, -⟩ := s.ledger.branchFree_eq hid
      rw [heq]
      intro c hc
      obtain ⟨p, htook, hp⟩ := hs c (Finset.mem_of_mem_erase hc)
      exact ⟨p, htook, by rw [hnames c, hp]⟩
    · rw [s.ledger.branchFree_eq_self fun b hb => hrange ⟨b, hb⟩]
      exact hs

/-- Freeing a branch that took a reference gives that reference back. -/
theorem OwnReference.branchFree {s : Holders} (hs : s.OwnReference) (id : BitVec 32) :
    s.CleanAlloc (.branchFree id) := by
  intro b hb hid p hp
  obtain ⟨q, htook, hq⟩ := hs b hb
  obtain ⟨t, -, heq, -, -, hrefcnt⟩ := s.ledger.branchFree_eq hid
  have hcard := card_filter_erase hb (f := s.took) (g := s.took) (fun _ _ => rfl) (some p)
  rw [owed, hcard, htook] at hp
  rw [step_branchFree, heq]
  change s.ledger.held p + ((s.ledger.live.erase b).filter fun c => s.took c = some p).card ≤
    (t.prefixes p).refcnt.toNat
  rw [hrefcnt p, hq]
  have hiff : some q = some p ↔ (q : ℕ) = p := by rw [Option.some_inj, Fin.ext_iff]
  simp only [hiff] at hp
  split_ifs at hp ⊢ <;> omega

/-- **Allocating branches.** In a sequence of calls with any arguments, allocations are clean if and only
if each of them finds its prefix in use and its count below the largest one, or no free entry. -/
theorem kvBranchAlloc_clean_iff (xs : List PrefixCall) :
    Along step CleanAlloc init xs ↔ Along step AllocatesInUse init xs := by
  refine along_iff step (I := OwnReference) (fun s x hs => ?_) (fun _ _ hs hx => hs.step hx)
    (fun b hb => absurd hb (Finset.notMem_empty b)) xs
  cases x with
  | register | acquire | release => exact Iff.rfl
  | branchAlloc rolloutId id delta len blocks => exact cleanAlloc_branchAlloc_iff
  | branchFree id => exact iff_of_true (hs.branchFree id) trivial

/-- A branch is allocated on a prefix not in use, the prefix is registered, and the branch is freed. -/
def strayBranch : List PrefixCall :=
  [.branchAlloc 7 0 8192 3 1, .register 4096 10 2, .branchFree 0]

/-- The allocation succeeds, and freeing the branch takes the reference of the registrant: the prefix is
recycled under it. -/
theorem kvBranchAlloc_unclean :
    ¬ Along step CleanAlloc init strayBranch ∧
      (kvBranchAlloc kvPrefixTableInit 7 0 8192 3 1).2 = some Ledger.firstPair.2 ∧
      (Ledger.init.run strayBranch).held Ledger.firstPair.1 = 1 ∧
      ((Ledger.init.run strayBranch).table.prefixes Ledger.firstPair.1).refcnt = 0 := by
  refine ⟨fun h => ?_, by decide +kernel, by decide +kernel, by decide +kernel⟩
  rcases cleanAlloc_branchAlloc_iff.mp h.1 with hfull | ⟨p, -, hpos, -⟩
  · have hbit := hfull Ledger.firstPair.2
    revert hbit
    decide +kernel
  · exact absurd hpos (lt_irrefl 0)

end Holders

end RolloutRuntime
