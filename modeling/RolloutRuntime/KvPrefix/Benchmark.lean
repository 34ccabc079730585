import Mathlib.Data.List.TakeWhile
import RolloutRuntime.KvPrefix.Table

/-!
# The benchmark of the prefix table

The benchmark registers one prefix, allocates branches on it, resolves all of them and frees all of them. The
array of the branch ids is zeroed before the allocations, and the first allocation that fails ends them; the
two loops after it go over the whole array. If there are more branches than the table has entries, the
entries of the array that were not written name branch 0, which is then resolved, and freed, once for each of
them: the first of these frees takes the reference of the registration away, and the prefix is given up.

The number of branches is positive where the benchmark is called, since the times are divided by it. The times
and the sizes that are printed are left out.

## Main definitions

* `CowBench.allocBranches`, `CowBench.resolveAndFree`, `CowBench.run`: the loop of the allocations, the two
  loops after it, and the benchmark.
* `CowBench.Shares`: a table with references to the first prefix only.

## Main results

* `CowBench.Shares.free`, `CowBench.Shares.frees`: what one free and all frees leave.
* `CowBench.Allocated.allocBranches`: the ids that the allocations give out.
* `CowBench.run_refcnt`: the figures of the benchmark, and the table it leaves.

## References

* `bench/bench_cow_prefix.cu` lines 15–92, `src/kv_prefix.c`.
-/

namespace RolloutRuntime

open Bitmap

namespace CowBench

/-! ### The benchmark -/

/-- The allocations `i`, `i + 1` and so on, `k` of them unless one fails: the table and the ids. -/
def allocLoop (alloc : ℕ → KVPrefixTable → KVPrefixTable × Option BranchId) :
    ℕ → ℕ → KVPrefixTable → KVPrefixTable × List (BitVec 32)
  | 0, _, t => (t, [])
  | k + 1, i, t =>
    match alloc i t with
    | (t', none) => (t', [])
    | (t', some b) =>
      let rest := allocLoop alloc k (i + 1) t'
      (rest.1, BitVec.ofNat 32 b :: rest.2)

/-- The loop of the allocations. -/
def allocBranches (prefixId : BitVec 32) : ℕ → ℕ → KVPrefixTable → KVPrefixTable × List (BitVec 32) :=
  allocLoop fun i t =>
    kvBranchAlloc t (BitVec.ofNat 32 i) prefixId (BitVec.ofNat 64 (0x2000 + i * 2)) 32 2

/-- What the benchmark computes: the id of the prefix, the array of the branch ids, the reference count and
the checksum it prints, and the table in the end. -/
structure Report where
  prefixId : PrefixId
  branchIds : List (BitVec 32)
  refcnt : BitVec 32
  checksum : BitVec 64
  table : KVPrefixTable

/-- The two loops over the array of the branch ids, which both end at an entry that is `UINT32_MAX`. -/
def resolveAndFree (n : ℕ) (p : PrefixId) (allocated : KVPrefixTable × List (BitVec 32)) : Report :=
  let branchIds := allocated.2 ++ List.replicate (n - allocated.2.length) 0
  let visited := branchIds.takeWhile (· ≠ -1)
  { prefixId := p
    branchIds := branchIds
    refcnt := (allocated.1.prefixes p).refcnt
    checksum := visited.foldl (fun sum id => sum + kvBranchTotalOffset allocated.1 id) 0
    table := visited.foldl (fun t id => (kvBranchFree t id).1) allocated.1 }

/-- The benchmark with `n` branches; `none` if the registration fails. -/
def run (n : ℕ) : Option Report :=
  match kvPrefixRegister kvPrefixTableInit 0x1000 512 4 with
  | (_, none) => none
  | (t, some p) => some (resolveAndFree n p (allocBranches (BitVec.ofNat 32 p) n 0 t))

/-! ### Tables with references to the first prefix only -/

theorem zero_lt_prefixes : 0 < 8 * 64 := by decide

/-- The first prefix. -/
def firstPrefix : PrefixId := ⟨0, zero_lt_prefixes⟩

/-- The first prefix has `n` references, and the others have none. -/
def refs (n : ℕ) : PrefixId → ℕ := Function.update (fun _ => 0) firstPrefix n

/-- All references are to the first prefix, which every branch names. -/
structure Shares (t : KVPrefixTable) (n : ℕ) : Prop where
  counts : t.Counts (refs n) fun _ => 0x1000
  prefixId : ∀ b, (t.branches b).prefixId = 0

theorem refs_self (n : ℕ) : refs n firstPrefix = n := Function.update_self _ _ _

theorem update_refs (n m : ℕ) : Function.update (refs n) firstPrefix m = refs m :=
  Function.update_idem _ _ _

section Shares

variable {t : KVPrefixTable} {n : ℕ}

theorem Shares.refcnt (h : Shares t n) : (t.prefixes firstPrefix).refcnt.toNat = n := by
  rw [h.counts.refcnt, refs_self]

theorem Shares.prefix_free (h : Shares t n) : bit t.prefixBitmap firstPrefix = true ↔ n = 0 := by
  rw [h.counts.free, refs_self]

/-- With a reference left, every branch resolves to the offset of the prefix. -/
theorem Shares.totalOffset (h : Shares t n) (hn : n ≠ 0) {id : BitVec 32} (hid : id.toNat < 256 * 64) :
    kvBranchTotalOffset t id = 0x1000 := by
  have hindex : indexOf (256 * 64) id = some ⟨id.toNat, hid⟩ := indexOf_eq_some.mpr rfl
  have hfirst : indexOf (8 * 64) (0 : BitVec 32) = some firstPrefix := indexOf_eq_some.mpr rfl
  rw [kvBranchTotalOffset, hindex]
  dsimp only
  rw [h.prefixId, hfirst]
  exact h.counts.offset firstPrefix (by rwa [refs_self])

/-- **One allocation.** -/
theorem Shares.alloc (h : Shares t n) (hn : n ≠ 0) (hlt : n + 1 < 2 ^ 32) {b : BranchId}
    (hlow : lowestBit t.branchBitmap = some b) {id : BitVec 32} (hid : id = 0) (rolloutId : BitVec 32)
    (delta : BitVec 64) (len blocks : BitVec 32) :
    ∃ t', kvBranchAlloc t rolloutId id delta len blocks = (t', some b) ∧ Shares t' (n + 1) ∧
      t'.branchBitmap = clearBit t.branchBitmap b := by
  have halloc : bitmapAlloc t.branchBitmap = some (b, clearBit t.branchBitmap b) := by
    rw [bitmapAlloc, hlow, Option.map_some]
  obtain ⟨t', ht'⟩ : ∃ t', kvBranchAlloc t rolloutId id delta len blocks = (t', some b) := by
    unfold kvBranchAlloc
    rw [halloc]
    exact ⟨_, rfl⟩
  have hfirst : id.toNat = firstPrefix := by rw [hid]; rfl
  obtain ⟨-, hbitmap, hself, hother, hcounts⟩ := h.counts.branchAlloc hfirst (by rwa [refs_self]) ht'
  rw [refs_self, update_refs] at hcounts
  refine ⟨t', ht', ⟨hcounts hlt, fun b' => ?_⟩, hbitmap⟩
  by_cases hb' : b' = b
  · rw [hb', hself, hid]
  · rw [hother b' hb', h.prefixId]

/-- The release that a free makes: a reference is given up if there is one. -/
theorem Shares.release (h : Shares t n) {id : BitVec 32} (hid : id = 0) :
    Shares (kvPrefixRelease t id).1 (n - 1) ∧
      (kvPrefixRelease t id).1.branches = t.branches ∧
      (kvPrefixRelease t id).1.branchBitmap = t.branchBitmap := by
  have hfirst : id.toNat = firstPrefix := by rw [hid]; rfl
  by_cases hn : n = 0
  · have hzero : (t.prefixes firstPrefix).refcnt = 0 := by
      rw [h.counts.refcnt_eq_zero_iff, refs_self, hn]
    have hrel : kvPrefixRelease t id = (t, false) := by
      rw [kvPrefixRelease, indexOf_eq_some.mpr hfirst]
      exact if_pos hzero
    rw [hrel]
    refine ⟨?_, rfl, rfl⟩
    rwa [hn] at h ⊢
  · obtain ⟨t', hrel, hbranches, hbitmap, hcounts⟩ := h.counts.release hfirst (by rwa [refs_self])
    rw [refs_self, update_refs] at hcounts
    rw [hrel]
    exact ⟨⟨hcounts, fun b => by rw [hbranches, h.prefixId]⟩, hbranches, hbitmap⟩

/-- **One free**, of a branch that is allocated or is not. -/
theorem Shares.free (h : Shares t n) {id : BitVec 32} {b : BranchId} (hid : id.toNat = b) :
    Shares (kvBranchFree t id).1 (n - 1) ∧
      (kvBranchFree t id).1.branchBitmap = setBit t.branchBitmap b := by
  obtain ⟨hshares, -, hbitmap⟩ := h.release (h.prefixId b)
  rw [kvBranchFree, indexOf_eq_some.mpr hid]
  dsimp only
  generalize (kvPrefixRelease t (t.branches b).prefixId).1 = t₁ at hshares hbitmap
  refine ⟨⟨hshares.counts.congr rfl rfl, fun b' => ?_⟩, ?_⟩
  · change (Function.update t₁.branches b _ b').prefixId = 0
    by_cases hb' : b' = b
    · rw [hb', Function.update_self]
      exact hshares.prefixId b
    · rw [Function.update_of_ne hb']
      exact hshares.prefixId b'
  · change setBit t₁.branchBitmap b = _
    rw [hbitmap]

/-- **All frees**, each of some branch: as many references are given up, and the branches are free. -/
theorem Shares.frees (h : Shares t n) {ids : List (BitVec 32)} (hids : ∀ id ∈ ids, id.toNat < 256 * 64) :
    Shares (ids.foldl (fun t id => (kvBranchFree t id).1) t) (n - ids.length) ∧
      ∀ b : BranchId, bit (ids.foldl (fun t id => (kvBranchFree t id).1) t).branchBitmap b = true ↔
        bit t.branchBitmap b = true ∨ ∃ id ∈ ids, id.toNat = b := by
  induction ids generalizing t n with
  | nil => exact ⟨h, fun b => by simp⟩
  | cons id ids ih =>
    obtain ⟨hlt, hids⟩ := List.forall_mem_cons.mp hids
    obtain ⟨hshares, hbitmap⟩ := h.free (b := ⟨id.toNat, hlt⟩) rfl
    obtain ⟨hall, hbits⟩ := ih hshares hids
    rw [Nat.sub_sub, Nat.add_comm] at hall
    refine ⟨hall, fun b => ?_⟩
    rw [List.foldl_cons, hbits, hbitmap, bit_setBit, Bool.or_eq_true, decide_eq_true_iff, Fin.ext_iff]
    simp only [List.mem_cons, or_and_right, exists_or, exists_eq_left]
    rw [eq_comm, or_comm (a := id.toNat = b), or_assoc]

end Shares

/-! ### Allocations -/

/-- A table after `i` allocations: the branches from `i` on are free. -/
structure Allocated (t : KVPrefixTable) (i : ℕ) : Prop where
  shares : Shares t (i + 1)
  free : ∀ b : BranchId, bit t.branchBitmap b = true ↔ i ≤ b

theorem register_init :
    ∃ t, kvPrefixRegister kvPrefixTableInit 0x1000 512 4 = (t, some firstPrefix) ∧ Allocated t 0 := by
  have hlow : lowestBit kvPrefixTableInit.prefixBitmap = some firstPrefix :=
    lowestBit_eq_some_iff.mpr ⟨bit_ones _, fun j hj => absurd hj (Nat.not_lt_zero j)⟩
  obtain ⟨t, ht⟩ : ∃ t, kvPrefixRegister kvPrefixTableInit 0x1000 512 4 = (t, some firstPrefix) := by
    unfold kvPrefixRegister
    rw [bitmapAlloc, hlow, Option.map_some]
    exact ⟨_, rfl⟩
  have hinit : kvPrefixTableInit.Counts (fun _ => 0) fun _ => 0x1000 := KVPrefixTable.counts_init
  obtain ⟨-, hbranches, hbitmap, hcounts⟩ := hinit.register ht
  refine ⟨t, ht, ⟨?_, fun b => ?_⟩, fun b => ?_⟩
  · have hoff : Function.update (fun _ : PrefixId => (0x1000 : BitVec 64)) firstPrefix 0x1000 =
        fun _ => 0x1000 := Function.update_eq_self firstPrefix _
    rwa [hoff] at hcounts
  · rw [hbranches]
    rfl
  · rw [hbitmap]
    exact iff_of_true (bit_ones b) (Nat.zero_le _)

section Allocated

variable {t : KVPrefixTable} {i : ℕ} {id : BitVec 32}

theorem Allocated.alloc (h : Allocated t i) (hi : i < 256 * 64) (hid : id = 0) (rolloutId : BitVec 32)
    (delta : BitVec 64) (len blocks : BitVec 32) :
    ∃ t', kvBranchAlloc t rolloutId id delta len blocks = (t', some ⟨i, hi⟩) ∧ Allocated t' (i + 1) := by
  have hlow : lowestBit t.branchBitmap = some ⟨i, hi⟩ := by
    refine lowestBit_eq_some_iff.mpr ⟨(h.free _).mpr le_rfl, fun j hj => ?_⟩
    rw [← Bool.not_eq_true, h.free]
    exact not_le.mpr hj
  obtain ⟨t', ht', hshares, hbitmap⟩ :=
    h.shares.alloc (Nat.succ_ne_zero i) (by omega) hlow hid rolloutId delta len blocks
  refine ⟨t', ht', hshares, fun b => ?_⟩
  have hne : b = ⟨i, hi⟩ ↔ (b : ℕ) = i := Fin.ext_iff
  rw [hbitmap, bit_clearBit, Bool.and_eq_true, h.free, Bool.not_eq_true', decide_eq_false_iff_not, hne]
  omega

theorem Allocated.full (h : Allocated t i) (hi : 256 * 64 ≤ i) (rolloutId : BitVec 32) (delta : BitVec 64)
    (len blocks : BitVec 32) : kvBranchAlloc t rolloutId id delta len blocks = (t, none) := by
  have hnone : lowestBit t.branchBitmap = none := by
    refine lowestBit_eq_none_iff.mpr fun b => ?_
    rw [← Bool.not_eq_true, h.free]
    exact not_le.mpr (b.isLt.trans_le hi)
  unfold kvBranchAlloc
  rw [bitmapAlloc, hnone, Option.map_none]

/-- **The loop of the allocations**: the ids are given out in order until the table is full. -/
theorem Allocated.allocBranches (h : Allocated t i) {m : ℕ} (hm : i + m = 256 * 64) (hid : id = 0)
    (k : ℕ) :
    (CowBench.allocBranches id k i t).2 = (List.range' i (min k m)).map (BitVec.ofNat 32) ∧
      Allocated (CowBench.allocBranches id k i t).1 (i + min k m) := by
  unfold CowBench.allocBranches
  induction k generalizing i t m with
  | zero =>
    rw [Nat.zero_min]
    exact ⟨rfl, h⟩
  | succ k ih =>
    rw [allocLoop]
    cases m with
    | zero =>
      rw [h.full hm.ge, Nat.min_zero]
      exact ⟨rfl, h⟩
    | succ m =>
      have hi : i < 256 * 64 := by omega
      obtain ⟨t', ht', h'⟩ := h.alloc hi hid (BitVec.ofNat 32 i) (BitVec.ofNat 64 (0x2000 + i * 2)) 32 2
      obtain ⟨hids, hend⟩ := ih h' (m := m) (by omega)
      rw [ht', Nat.succ_min_succ, List.range'_succ, List.map_cons, ← hids]
      refine ⟨rfl, ?_⟩
      rwa [Nat.add_right_comm] at hend

end Allocated

/-! ### The whole benchmark -/

/-- The array of the branch ids after the loop of the allocations. -/
def branchArray (n : ℕ) : List (BitVec 32) :=
  (List.range (min n (256 * 64))).map (BitVec.ofNat 32) ++ List.replicate (n - 256 * 64) 0

theorem length_branchArray (n : ℕ) : (branchArray n).length = n := by
  rw [branchArray, List.length_append, List.length_map, List.length_range, List.length_replicate]
  omega

theorem toNat_ofNat_of_lt {i : ℕ} (hi : i < 256 * 64) : (BitVec.ofNat 32 i).toNat = i := by
  rw [BitVec.toNat_ofNat]
  exact Nat.mod_eq_of_lt (by omega)

theorem toNat_lt_of_mem_branchArray {n : ℕ} {id : BitVec 32} (hid : id ∈ branchArray n) :
    id.toNat < 256 * 64 := by
  obtain hid | hid := List.mem_append.mp hid
  · obtain ⟨i, hi, rfl⟩ := List.mem_map.mp hid
    have hlt := (List.mem_range.mp hi).trans_le (Nat.min_le_right n (256 * 64))
    rwa [toNat_ofNat_of_lt hlt]
  · rw [List.eq_of_mem_replicate hid]
    decide

/-- The two loops over the array go over all of it. -/
theorem takeWhile_branchArray (n : ℕ) : (branchArray n).takeWhile (· ≠ -1) = branchArray n := by
  refine List.takeWhile_eq_self_iff.mpr fun id hid => decide_eq_true ?_
  rintro rfl
  exact absurd (toNat_lt_of_mem_branchArray hid) (by decide)

theorem foldl_offsets (off : BitVec 32 → BitVec 64) (c : BitVec 64) (ids : List (BitVec 32))
    (hoff : ∀ id ∈ ids, off id = c) (sum : BitVec 64) :
    ids.foldl (fun sum id => sum + off id) sum = sum + BitVec.ofNat 64 ids.length * c := by
  induction ids generalizing sum with
  | nil => simp
  | cons id ids ih =>
    obtain ⟨hid, hoff⟩ := List.forall_mem_cons.mp hoff
    rw [List.foldl_cons, ih hoff, hid, List.length_cons, Nat.add_comm, BitVec.ofNat_add, BitVec.add_mul,
      BitVec.one_mul, BitVec.add_assoc]

/-- The two loops over the array, after `min n 16384` allocations. -/
theorem resolveAndFree_refcnt {n : ℕ} {allocated : KVPrefixTable × List (BitVec 32)}
    (hids : allocated.2 = (List.range (min n (256 * 64))).map (BitVec.ofNat 32))
    (h : Allocated allocated.1 (min n (256 * 64))) :
    (resolveAndFree n firstPrefix allocated).branchIds = branchArray n ∧
      (resolveAndFree n firstPrefix allocated).refcnt.toNat = min n (256 * 64) + 1 ∧
      (resolveAndFree n firstPrefix allocated).checksum = BitVec.ofNat 64 n * 0x1000 ∧
      (∀ b, bit (resolveAndFree n firstPrefix allocated).table.branchBitmap b = true) ∧
      Shares (resolveAndFree n firstPrefix allocated).table (min n (256 * 64) + 1 - n) := by
  have harray : allocated.2 ++ List.replicate (n - allocated.2.length) 0 = branchArray n := by
    have hrest : n - min n (256 * 64) = n - 256 * 64 := by omega
    rw [hids, List.length_map, List.length_range, hrest, branchArray]
  have hlt : ∀ id ∈ branchArray n, id.toNat < 256 * 64 := fun id => toNat_lt_of_mem_branchArray
  obtain ⟨hleft, hbits⟩ := h.shares.frees hlt
  rw [length_branchArray] at hleft
  unfold resolveAndFree
  dsimp only
  rw [harray, takeWhile_branchArray]
  refine ⟨rfl, h.shares.refcnt, ?_, fun b => (hbits b).mpr ?_, hleft⟩
  · rw [foldl_offsets _ 0x1000 _ fun id hid => h.shares.totalOffset (Nat.succ_ne_zero _) (hlt id hid),
      length_branchArray]
    exact BitVec.zero_add _
  · -- the branches below the number of allocations are in the array, and the others were never taken
    rw [h.free]
    by_cases hb : min n (256 * 64) ≤ b
    · exact .inl hb
    · have hmem : BitVec.ofNat 32 b ∈ branchArray n :=
        List.mem_append_left _ (List.mem_map_of_mem (List.mem_range.mpr (not_le.mp hb)))
      exact .inr ⟨_, hmem, toNat_ofNat_of_lt b.isLt⟩

/-- **The benchmark for every number of branches.** -/
theorem run_refcnt (n : ℕ) :
    ∃ r, run n = some r ∧ r.prefixId = firstPrefix ∧ r.branchIds = branchArray n ∧
      r.refcnt.toNat = min n (256 * 64) + 1 ∧
      r.checksum = BitVec.ofNat 64 n * 0x1000 ∧
      (∀ b, bit r.table.branchBitmap b = true) ∧
      (r.table.prefixes firstPrefix).refcnt.toNat = (if n ≤ 256 * 64 then 1 else 0) ∧
      (bit r.table.prefixBitmap firstPrefix = true ↔ 256 * 64 < n) := by
  obtain ⟨t, ht, h⟩ := register_init
  have hfirst : BitVec.ofNat 32 firstPrefix = 0 := rfl
  obtain ⟨hids, hall⟩ := h.allocBranches (m := 256 * 64) (by omega) hfirst n
  rw [← List.range_eq_range'] at hids
  rw [Nat.zero_add] at hall
  obtain ⟨harray, hrefcnt, hsum, hbranches, hshares⟩ := resolveAndFree_refcnt hids hall
  have hrun : run n =
      some (resolveAndFree n firstPrefix (allocBranches (BitVec.ofNat 32 firstPrefix) n 0 t)) := by
    unfold run
    rw [ht]
  refine ⟨_, hrun, rfl, harray, hrefcnt, hsum, hbranches, ?_, ?_⟩
  · rw [hshares.refcnt]
    split <;> omega
  · rw [hshares.prefix_free]
    omega

end CowBench

end RolloutRuntime
