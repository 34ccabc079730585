import Mathlib.Algebra.Group.Nat.Defs
import RolloutRuntime.Bitmap.Words

/-!
# The table of shared prefixes

Rollouts that start from the same prompt share the key-value blocks of the prompt. The table holds up
to 512 prefixes, each with a reference count, and up to 16384 branches, each naming a prefix; two
bitmaps tell which entries are free. A registered prefix starts with the reference of its registrant;
acquiring it and allocating a branch on it add one, releasing it and freeing a branch take one away.
The entry is free again when the count reaches zero.

The predicate `Counts` says what the prefix half of the table is for: the counts, the free entries and
the offsets of the prefixes in use, as functions on the ids. The operations on prefixes are verified
against it once, and the operations on branches use them through it.

## Main definitions

* `KVPrefixTable`, `kvPrefixTableInit`.
* `kvPrefixRegister`, `kvPrefixAcquire`, `kvPrefixRelease`, `kvBranchAlloc`, `kvBranchFree`,
  `kvBranchTotalOffset`.
* `KVPrefixTable.Counts`: the meaning of the prefix half of the table.

## Main results

* `KVPrefixTable.Counts.register`, `KVPrefixTable.Counts.acquire`, `KVPrefixTable.Counts.release`: the
  operations on prefixes.
* `KVPrefixTable.Counts.branchAlloc`, `KVPrefixTable.Counts.branchFree`: the operations on branches.

## References

* `src/kv_prefix.c`, `include/kv_prefix.h`.
-/

namespace RolloutRuntime

open Bitmap

/-! ### The table -/

/-- `KVPrefix`. -/
structure KVPrefix where
  prefixId : BitVec 32
  refcnt : BitVec 32
  kvBlockOffset : BitVec 64
  tokenLen : BitVec 32
  kvBlockCount : BitVec 32
  flags : BitVec 32
  deriving Inhabited

/-- `KVBranch`. -/
structure KVBranch where
  branchId : BitVec 32
  rolloutId : BitVec 32
  prefixId : BitVec 32
  deltaKvOffset : BitVec 64
  deltaLen : BitVec 32
  deltaBlockCount : BitVec 32
  state : BitVec 32
  flags : BitVec 32
  deriving Inhabited

/-- The prefix ids below `MAX_PREFIXES`. -/
abbrev PrefixId : Type := Fin (8 * 64)

/-- The branch ids below `MAX_BRANCHES`. -/
abbrev BranchId : Type := Fin (256 * 64)

/-- `KVPrefixTable`; a bit of a bitmap is set if its entry is free. -/
structure KVPrefixTable where
  prefixes : PrefixId → KVPrefix
  prefixBitmap : Words 8
  branches : BranchId → KVBranch
  branchBitmap : Words 256

/-- `kv_prefix_table_init`: all entries zeroed and free. -/
def kvPrefixTableInit : KVPrefixTable where
  prefixes _ := ⟨0, 0, 0, 0, 0, 0⟩
  prefixBitmap _ := ~~~0
  branches _ := ⟨0, 0, 0, 0, 0, 0, 0, 0⟩
  branchBitmap _ := ~~~0

/-- An id given by a caller, if it is in range. -/
def indexOf (n : ℕ) (id : BitVec 32) : Option (Fin n) :=
  if h : id.toNat < n then some ⟨id.toNat, h⟩ else none

/-- `bitmap_alloc`: the lowest free id, and the bitmap without it. -/
def bitmapAlloc {n : ℕ} (b : Words n) : Option (Fin (n * 64) × Words n) :=
  (lowestBit b).map fun i => (i, clearBit b i)

/-- `bitmap_free`. -/
def bitmapFree {n : ℕ} (b : Words n) (i : Fin (n * 64)) : Words n := setBit b i

/-! ### Prefixes -/

namespace KVPrefixTable

/-- Overwrite one prefix. -/
def setPrefix (t : KVPrefixTable) (p : PrefixId) (x : KVPrefix) : KVPrefixTable :=
  { t with prefixes := Function.update t.prefixes p x }

/-- Overwrite one branch. -/
def setBranch (t : KVPrefixTable) (b : BranchId) (x : KVBranch) : KVPrefixTable :=
  { t with branches := Function.update t.branches b x }

end KVPrefixTable

/-- `kv_prefix_register`: the table and the id, or `none` if all entries are taken. -/
def kvPrefixRegister (t : KVPrefixTable) (kvOffset : BitVec 64) (tokenLen nblocks : BitVec 32) :
    KVPrefixTable × Option PrefixId :=
  match bitmapAlloc t.prefixBitmap with
  | none => (t, none)
  | some (p, b) =>
    ({ t with prefixBitmap := b }.setPrefix p
      ⟨BitVec.ofNat 32 p, 1, kvOffset, tokenLen, nblocks, 0⟩, some p)

/-- `kv_prefix_acquire`; `false` if the id is out of range or the prefix is not in use. -/
def kvPrefixAcquire (t : KVPrefixTable) (prefixId : BitVec 32) : KVPrefixTable × Bool :=
  match indexOf (8 * 64) prefixId with
  | none => (t, false)
  | some p =>
    if (t.prefixes p).refcnt = 0 then (t, false)
    else (t.setPrefix p { t.prefixes p with refcnt := (t.prefixes p).refcnt + 1 }, true)

/-- `kv_prefix_release`; `false` if the id is out of range or the prefix is not in use. The last release
frees the entry. -/
def kvPrefixRelease (t : KVPrefixTable) (prefixId : BitVec 32) : KVPrefixTable × Bool :=
  match indexOf (8 * 64) prefixId with
  | none => (t, false)
  | some p =>
    if (t.prefixes p).refcnt = 0 then (t, false)
    else
      let x := { t.prefixes p with refcnt := (t.prefixes p).refcnt - 1 }
      if x.refcnt = 0 then
        ({ t with prefixBitmap := bitmapFree t.prefixBitmap p }.setPrefix p
          { x with kvBlockOffset := -1, tokenLen := 0 }, true)
      else (t.setPrefix p x, true)

/-! ### Branches -/

/-- `kv_branch_alloc`: the table and the id, or `none` if all entries are taken. The answer of the
acquisition of the prefix is not looked at. -/
def kvBranchAlloc (t : KVPrefixTable) (rolloutId prefixId : BitVec 32) (deltaKvOffset : BitVec 64)
    (deltaLen deltaBlocks : BitVec 32) : KVPrefixTable × Option BranchId :=
  match bitmapAlloc t.branchBitmap with
  | none => (t, none)
  | some (b, bm) =>
    let t := { t with branchBitmap := bm }.setBranch b
      ⟨BitVec.ofNat 32 b, rolloutId, prefixId, deltaKvOffset, deltaLen, deltaBlocks, 0, 0⟩
    ((kvPrefixAcquire t prefixId).1, some b)

/-- `kv_branch_free`; `false` if the id is out of range. The answer of the release of the prefix is not
looked at. -/
def kvBranchFree (t : KVPrefixTable) (branchId : BitVec 32) : KVPrefixTable × Bool :=
  match indexOf (256 * 64) branchId with
  | none => (t, false)
  | some b =>
    let t := (kvPrefixRelease t (t.branches b).prefixId).1
    let t := t.setBranch b { t.branches b with rolloutId := -1 }
    ({ t with branchBitmap := bitmapFree t.branchBitmap b }, true)

/-- `kv_branch_total_offset`; `-1` if the id is out of range. -/
def kvBranchTotalOffset (t : KVPrefixTable) (branchId : BitVec 32) : BitVec 64 :=
  match indexOf (256 * 64) branchId with
  | none => -1
  | some b =>
    match indexOf (8 * 64) (t.branches b).prefixId with
    | none => (t.branches b).deltaKvOffset
    | some p => (t.prefixes p).kvBlockOffset

/-! ### Ids and bitmaps -/

theorem indexOf_eq_some {n : ℕ} {id : BitVec 32} {i : Fin n} :
    indexOf n id = some i ↔ id.toNat = i := by
  unfold indexOf
  split_ifs with h
  · simp only [Option.some_inj, Fin.ext_iff]
  · simp only [false_iff]
    omega

theorem indexOf_eq_none {n : ℕ} {id : BitVec 32} :
    indexOf n id = none ↔ ∀ i : Fin n, id.toNat ≠ i := by
  rw [Option.eq_none_iff_forall_ne_some]
  exact forall_congr' fun i => not_congr indexOf_eq_some

theorem bitmapAlloc_eq_some {n : ℕ} {b b' : Words n} {i : Fin (n * 64)}
    (h : bitmapAlloc b = some (i, b')) : bit b i = true ∧ b' = clearBit b i := by
  obtain ⟨j, hj, heq⟩ := Option.map_eq_some_iff.mp h
  obtain ⟨rfl, rfl⟩ := Prod.mk.inj heq
  exact ⟨(lowestBit_eq_some_iff.mp hj).1, rfl⟩

/-! ### What the prefix half of the table means -/

namespace KVPrefixTable

/-- Every prefix `p` has `cnt p` references, its bit is set if there are none, and its offset is `off p`
if there are any. -/
structure Counts (t : KVPrefixTable) (cnt : PrefixId → ℕ) (off : PrefixId → BitVec 64) : Prop where
  refcnt : ∀ p, (t.prefixes p).refcnt.toNat = cnt p
  free : ∀ p, bit t.prefixBitmap p = true ↔ cnt p = 0
  offset : ∀ p, cnt p ≠ 0 → (t.prefixes p).kvBlockOffset = off p

variable {t t' : KVPrefixTable} {cnt : PrefixId → ℕ} {off : PrefixId → BitVec 64}

theorem counts_init : Counts kvPrefixTableInit (fun _ => 0) off := by
  refine ⟨fun _ => rfl, fun p => ?_, fun p hp => absurd rfl hp⟩
  simp only [kvPrefixTableInit, bit_ones]

theorem Counts.refcnt_eq_zero_iff (h : Counts t cnt off) (p : PrefixId) :
    (t.prefixes p).refcnt = 0 ↔ cnt p = 0 := by
  rw [← h.refcnt p, ← BitVec.toNat_inj]
  rfl

theorem Counts.setPrefix (h : Counts t cnt off) (p : PrefixId) {x : KVPrefix} {bm : Words 8} {n : ℕ}
    {o : BitVec 64} (hcnt : x.refcnt.toNat = n) (hoff : n ≠ 0 → x.kvBlockOffset = o)
    (hbit : bit bm p = true ↔ n = 0) (hbits : ∀ q, q ≠ p → bit bm q = bit t.prefixBitmap q) :
    Counts ({ t with prefixBitmap := bm }.setPrefix p x) (Function.update cnt p n)
      (Function.update off p o) := by
  have hself : ({ t with prefixBitmap := bm }.setPrefix p x).prefixes p = x := by
    simp only [KVPrefixTable.setPrefix, Function.update_self]
  have hother : ∀ q, q ≠ p →
      ({ t with prefixBitmap := bm }.setPrefix p x).prefixes q = t.prefixes q := by
    intro q hq
    simp only [KVPrefixTable.setPrefix, Function.update_of_ne hq]
  refine ⟨fun q => ?_, fun q => ?_, fun q hq => ?_⟩
  · by_cases hqp : q = p
    · rw [hqp, hself, Function.update_self, hcnt]
    · rw [hother q hqp, Function.update_of_ne hqp, h.refcnt q]
  · change bit bm q = true ↔ _
    by_cases hqp : q = p
    · rw [hqp, Function.update_self, hbit]
    · rw [hbits q hqp, Function.update_of_ne hqp, h.free q]
  · by_cases hqp : q = p
    · rw [hqp, Function.update_self] at hq
      rw [hqp, hself, Function.update_self, hoff hq]
    · rw [Function.update_of_ne hqp] at hq
      rw [hother q hqp, Function.update_of_ne hqp, h.offset q hq]

/-- **Registration.** The prefix registered was not in use, and has the reference of its registrant. -/
theorem Counts.register (h : Counts t cnt off) {kvOffset : BitVec 64} {tokenLen nblocks : BitVec 32}
    {p : PrefixId} (hreg : kvPrefixRegister t kvOffset tokenLen nblocks = (t', some p)) :
    cnt p = 0 ∧ t'.branches = t.branches ∧ t'.branchBitmap = t.branchBitmap ∧
      Counts t' (Function.update cnt p 1) (Function.update off p kvOffset) := by
  unfold kvPrefixRegister at hreg
  rcases halloc : bitmapAlloc t.prefixBitmap with _ | ⟨q, bm⟩
  · rw [halloc] at hreg
    exact absurd (congrArg Prod.snd hreg) (by simp)
  · rw [halloc] at hreg
    obtain ⟨rfl, hq⟩ := Prod.mk.inj hreg
    obtain rfl := Option.some_inj.mp hq
    obtain ⟨hbit, rfl⟩ := bitmapAlloc_eq_some halloc
    refine ⟨(h.free q).mp hbit, rfl, rfl, h.setPrefix q rfl (fun _ => rfl) ?_ fun r hr => ?_⟩
    · simp
    · simp [hr]

theorem register_eq_none {kvOffset : BitVec 64} {tokenLen nblocks : BitVec 32}
    (hreg : kvPrefixRegister t kvOffset tokenLen nblocks = (t', none)) : t' = t := by
  unfold kvPrefixRegister at hreg
  rcases halloc : bitmapAlloc t.prefixBitmap with _ | ⟨q, bm⟩
  · rw [halloc] at hreg
    exact (congrArg Prod.fst hreg).symm
  · rw [halloc] at hreg
    exact absurd (congrArg Prod.snd hreg) (by simp)

/-- **Acquisition** of a prefix in use; the count is right as long as it fits. -/
theorem Counts.acquire (h : Counts t cnt off) {id : BitVec 32} {p : PrefixId} (hid : id.toNat = p)
    (hcnt : cnt p ≠ 0) :
    ∃ t', kvPrefixAcquire t id = (t', true) ∧ t'.branches = t.branches ∧
      t'.branchBitmap = t.branchBitmap ∧
      (cnt p + 1 < 2 ^ 32 → Counts t' (Function.update cnt p (cnt p + 1)) off) := by
  have hne : ¬ (t.prefixes p).refcnt = 0 := fun hzero => hcnt ((h.refcnt_eq_zero_iff p).mp hzero)
  have hoff : Function.update off p (off p) = off := Function.update_eq_self p off
  rw [kvPrefixAcquire, indexOf_eq_some.mpr hid]
  dsimp only
  rw [if_neg hne]
  refine ⟨_, rfl, rfl, rfl, fun hlt => ?_⟩
  have hadd : ((t.prefixes p).refcnt + 1).toNat = cnt p + 1 := by
    rw [BitVec.toNat_add, h.refcnt p]
    exact Nat.mod_eq_of_lt hlt
  rw [← hoff]
  refine h.setPrefix p hadd (fun _ => h.offset p hcnt) ?_ fun _ _ => rfl
  rw [h.free p]
  omega

/-- The acquisition of a prefix not in use is refused. -/
theorem Counts.acquire_unused (h : Counts t cnt off) {id : BitVec 32}
    (hcnt : ∀ p : PrefixId, id.toNat = p → cnt p = 0) : kvPrefixAcquire t id = (t, false) := by
  unfold kvPrefixAcquire
  rcases hindex : indexOf (8 * 64) id with _ | p
  · rfl
  · exact if_pos ((h.refcnt_eq_zero_iff p).mpr (hcnt p (indexOf_eq_some.mp hindex)))

/-- **Release** of a prefix in use. -/
theorem Counts.release (h : Counts t cnt off) {id : BitVec 32} {p : PrefixId} (hid : id.toNat = p)
    (hcnt : cnt p ≠ 0) :
    ∃ t', kvPrefixRelease t id = (t', true) ∧ t'.branches = t.branches ∧
      t'.branchBitmap = t.branchBitmap ∧ Counts t' (Function.update cnt p (cnt p - 1)) off := by
  have hne : ¬ (t.prefixes p).refcnt = 0 := fun hzero => hcnt ((h.refcnt_eq_zero_iff p).mp hzero)
  have hsub : ((t.prefixes p).refcnt - 1).toNat = cnt p - 1 := by
    rw [BitVec.toNat_sub_of_le, h.refcnt p]
    · rfl
    · rw [BitVec.le_def, h.refcnt p]
      exact Nat.one_le_iff_ne_zero.mpr hcnt
  have hoff : Function.update off p (off p) = off := Function.update_eq_self p off
  rw [kvPrefixRelease, indexOf_eq_some.mpr hid]
  dsimp only
  rw [if_neg hne]
  by_cases hlast : (t.prefixes p).refcnt - 1 = 0
  · rw [if_pos hlast]
    refine ⟨_, rfl, rfl, rfl, ?_⟩
    rw [← hoff]
    have hzero : cnt p - 1 = 0 := by rw [← hsub, hlast]; rfl
    refine h.setPrefix p hsub (fun hne => absurd hzero hne) ?_ fun q hq => ?_
    · simp [bitmapFree, hzero]
    · simp [bitmapFree, hq]
  · rw [if_neg hlast]
    refine ⟨_, rfl, rfl, rfl, ?_⟩
    rw [← hoff]
    have hpos : cnt p - 1 ≠ 0 := by
      rw [← hsub]
      exact fun hzero => hlast (BitVec.eq_of_toNat_eq hzero)
    refine h.setPrefix p hsub (fun _ => h.offset p hcnt) ?_ fun _ _ => rfl
    rw [h.free p]
    omega

/-! ### Branches -/

theorem Counts.congr (h : Counts t cnt off) (hp : t'.prefixes = t.prefixes)
    (hb : t'.prefixBitmap = t.prefixBitmap) : Counts t' cnt off := by
  refine ⟨fun p => ?_, fun p => ?_, fun p => ?_⟩
  · rw [hp]
    exact h.refcnt p
  · rw [hb]
    exact h.free p
  · rw [hp]
    exact h.offset p

/-- **Allocation of a branch** on a prefix in use: a free branch comes to name the prefix, which gets one
more reference. -/
theorem Counts.branchAlloc (h : Counts t cnt off) {rolloutId id : BitVec 32} {delta : BitVec 64}
    {len blocks : BitVec 32} {b : BranchId} {p : PrefixId} (hid : id.toNat = p) (hcnt : cnt p ≠ 0)
    (halloc : kvBranchAlloc t rolloutId id delta len blocks = (t', some b)) :
    bit t.branchBitmap b = true ∧ t'.branchBitmap = clearBit t.branchBitmap b ∧
      (t'.branches b).prefixId = id ∧ (∀ b', b' ≠ b → t'.branches b' = t.branches b') ∧
      (cnt p + 1 < 2 ^ 32 → Counts t' (Function.update cnt p (cnt p + 1)) off) := by
  unfold kvBranchAlloc at halloc
  rcases hfree : bitmapAlloc t.branchBitmap with _ | ⟨c, bm⟩
  · rw [hfree] at halloc
    exact absurd (congrArg Prod.snd halloc) (by simp)
  · rw [hfree] at halloc
    obtain ⟨rfl, hc⟩ := Prod.mk.inj halloc
    obtain rfl := Option.some_inj.mp hc
    obtain ⟨hbit, rfl⟩ := bitmapAlloc_eq_some hfree
    let t₁ := { t with branchBitmap := clearBit t.branchBitmap c }.setBranch c
      ⟨BitVec.ofNat 32 c, rolloutId, id, delta, len, blocks, 0, 0⟩
    have h₁ : Counts t₁ cnt off := h.congr rfl rfl
    obtain ⟨t₂, hacq, hbranches, hbitmap, h₂⟩ := h₁.acquire hid hcnt
    have hfst : (kvPrefixAcquire t₁ id).1 = t₂ := by rw [hacq]
    rw [hfst]
    refine ⟨hbit, hbitmap, ?_, fun b' hb' => ?_, h₂⟩
    · rw [hbranches]
      simp only [t₁, setBranch, Function.update_self]
    · rw [hbranches]
      simp only [t₁, setBranch, Function.update_of_ne hb']

theorem branchAlloc_eq_none {rolloutId id : BitVec 32} {delta : BitVec 64} {len blocks : BitVec 32}
    (halloc : kvBranchAlloc t rolloutId id delta len blocks = (t', none)) : t' = t := by
  unfold kvBranchAlloc at halloc
  rcases hfree : bitmapAlloc t.branchBitmap with _ | ⟨c, bm⟩
  · rw [hfree] at halloc
    exact (congrArg Prod.fst halloc).symm
  · rw [hfree] at halloc
    exact absurd (congrArg Prod.snd halloc) (by simp)

/-- **Freeing a branch** of a prefix in use: the branch is free again, and the prefix has one reference
less. -/
theorem Counts.branchFree (h : Counts t cnt off) {id : BitVec 32} {b : BranchId} {p : PrefixId}
    (hid : id.toNat = b) (hp : (t.branches b).prefixId.toNat = p) (hcnt : cnt p ≠ 0) :
    ∃ t', kvBranchFree t id = (t', true) ∧ t'.branchBitmap = setBit t.branchBitmap b ∧
      (∀ b', b' ≠ b → t'.branches b' = t.branches b') ∧
      Counts t' (Function.update cnt p (cnt p - 1)) off := by
  obtain ⟨t₁, hrel, hbranches, hbitmap, h₁⟩ := h.release hp hcnt
  rw [kvBranchFree, indexOf_eq_some.mpr hid]
  dsimp only
  rw [hrel]
  refine ⟨_, rfl, ?_, fun b' hb' => ?_, h₁.congr rfl rfl⟩
  · simp only [setBranch, bitmapFree, hbitmap]
  · simp only [setBranch, Function.update_of_ne hb', hbranches]

end KVPrefixTable

end RolloutRuntime
