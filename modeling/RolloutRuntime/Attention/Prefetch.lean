import Mathlib.Data.Set.Lattice
import RolloutRuntime.Loops.Strided

/-!
# Staging blocks of the cache

Before a warp attends to a block of the cache it copies the block to its shared memory. Where the device has
asynchronous copies each of these is a chunk of 16 bytes, and the lanes take every thirty-second chunk;
elsewhere a copy is one byte, and the lanes take every thirty-second byte. The counters are 32-bit words, and
the copies of a warp may be made in any order.

## Main definitions

* `Prefetch.Copy`, `Prefetch.Copy.perform`: one copy.
* `Prefetch.prefetchIssuePartial`, `Prefetch.prefetchIssue`: the copies of a thread.
* `Prefetch.stage`: the shared memory after some copies.
* `Prefetch.CopiesOnce`: the lanes share out the bytes among them.

## Main results

* `Prefetch.stage_apply`: the order of the copies does not matter.
* `Prefetch.copiesOnce_share`: the lanes of either version share out the bytes.
* `Prefetch.prefetch_copies_once`: both versions copy the same bytes, each once.

## References

* `cu/prefetch.cu` lines 8–28, `include/cp_async.cuh` lines 16–32, `include/prefetch.h` lines 12–13.
-/

namespace RolloutRuntime

open Loops

namespace Prefetch

/-- `PREFETCH_CHUNK_BYTES`. -/
def prefetchChunkBytes : BitVec 32 := 16

/-- `KV_BLOCK_SIZE`. -/
def kvBlockSize : BitVec 32 := 16384

/-- A memory has a byte at each address. -/
abbrev Memory := ℕ → BitVec 8

/-- `cp_async_ca_16`, the instruction as well as the loop in its place. -/
def cpAsyncCa16 (hbm : Memory) (smemDst gmemSrc : ℕ) (smem : Memory) : Memory :=
  copyRange 16 hbm smemDst gmemSrc smem

/-- The copies that a thread may make, at an offset in the block. -/
inductive Copy
  | cpAsyncCa16 (off : BitVec 32)
  | byte (off : BitVec 32)
  deriving DecidableEq, Repr

namespace Copy

/-- `cp_async_ca_16(smem_dst + off, hbm_src + off)` and `smem_dst[off] = hbm_src[off]`. -/
def perform (hbm : Memory) (hbmSrc smemDst : ℕ) : Copy → Memory → Memory
  | cpAsyncCa16 off, smem => Prefetch.cpAsyncCa16 hbm (smemDst + off.toNat) (hbmSrc + off.toNat) smem
  | byte off, smem => Function.update smem (smemDst + off.toNat) (hbm (hbmSrc + off.toNat))

/-- The offset of a copy. -/
def off : Copy → ℕ
  | cpAsyncCa16 off => off.toNat
  | byte off => off.toNat

/-- The number of bytes of a copy. -/
def size : Copy → ℕ
  | cpAsyncCa16 _ => 16
  | byte _ => 1

theorem perform_eq (hbm : Memory) (hbmSrc smemDst : ℕ) (c : Copy) (smem : Memory) :
    c.perform hbm hbmSrc smemDst smem = copyRange c.size hbm (smemDst + c.off) (hbmSrc + c.off) smem := by
  cases c with
  | cpAsyncCa16 off => rfl
  | byte off => rfl

end Copy

/-- `__CUDA_ARCH__` is defined and at least 800. -/
def hasCpAsync (cudaArch : Option ℕ) : Bool := cudaArch.any (800 ≤ ·)

/-- The copies that `prefetch_issue_partial` makes for a thread, or `none` if its loop takes `fuel`
iterations or more. -/
def prefetchIssuePartial (cudaArch : Option ℕ) (threadIdx nbytes : BitVec 32) (fuel : ℕ) :
    Option (List Copy) :=
  let lane := threadIdx &&& 31
  if hasCpAsync cudaArch then
    (wordStrides nbytes (32 * prefetchChunkBytes) fuel (lane * prefetchChunkBytes)).map
      (List.map Copy.cpAsyncCa16)
  else (wordStrides nbytes 32 fuel lane).map (List.map Copy.byte)

/-- The copies that `prefetch_issue` makes for a thread. -/
def prefetchIssue (cudaArch : Option ℕ) (threadIdx : BitVec 32) (fuel : ℕ) : Option (List Copy) :=
  prefetchIssuePartial cudaArch threadIdx kvBlockSize fuel

/-- The shared memory after some copies. -/
def stage (hbm : Memory) (hbmSrc smemDst : ℕ) (copies : List Copy) (smem : Memory) : Memory :=
  copies.foldl (fun smem c => c.perform hbm hbmSrc smemDst smem) smem

/-- **Copies in any order.** -/
theorem stage_apply (hbm : Memory) (hbmSrc smemDst : ℕ) (copies : List Copy) (smem : Memory) (a : ℕ) :
    stage hbm hbmSrc smemDst copies smem a =
      if ∃ c ∈ copies, smemDst + c.off ≤ a ∧ a < smemDst + c.off + c.size then hbm (hbmSrc + (a - smemDst))
      else smem a := by
  simp only [stage, Copy.perform_eq]
  exact foldl_copyRange Copy.off Copy.size hbm smemDst hbmSrc copies smem a

/-! ### The lanes of a warp -/

/-- The thread of a lane of a warp. -/
def thread (warp : ℕ) (lane : Fin 32) : BitVec 32 := BitVec.ofNat 32 (32 * warp + lane)

/-- The offsets `offs` of the lanes, of `unit` bytes each, share out `nbytes` bytes. -/
structure CopiesOnce (nbytes : BitVec 32) (unit : ℕ) (offs : Fin 32 → List (BitVec 32)) : Prop where
  union : (⋃ lane, ⋃ off ∈ offs lane, Set.Ico off.toNat (off.toNat + unit)) = Set.Ico 0 nbytes.toNat
  byte : ∀ a < nbytes.toNat, ∃! c : Fin 32 × BitVec 32,
    c.2 ∈ offs c.1 ∧ a ∈ Set.Ico c.2.toNat (c.2.toNat + unit)
  lane : ∀ off : BitVec 32, off.toNat % unit = 0 → off.toNat < nbytes.toNat → ∃! lane, off ∈ offs lane
  nodup : ∀ lane, (offs lane).Nodup

/-- The offsets of a lane that takes every thirty-second unit. -/
def share (unit : ℕ) (nbytes : BitVec 32) (lane : Fin 32) : List (BitVec 32) :=
  strideValues (BitVec.ofNat 32 (lane * unit)) nbytes (BitVec.ofNat 32 (32 * unit))

theorem toNat_lane_thread (warp : ℕ) (lane : Fin 32) : (thread warp lane &&& 31).toNat = lane := by
  have hmask : (31 : BitVec 32).toNat = 2 ^ 5 - 1 := rfl
  have hlane := lane.isLt
  rw [BitVec.toNat_and, thread, hmask, Nat.and_two_pow_sub_one_eq_mod, BitVec.toNat_ofNat]
  omega

section Share

variable {unit : ℕ} {nbytes : BitVec 32}

theorem toNat_stride (hle : unit ≤ 16) : (BitVec.ofNat 32 (32 * unit)).toNat = 32 * unit := by
  rw [BitVec.toNat_ofNat, Nat.mod_eq_of_lt (by omega)]

theorem mem_share_iff (hunit : 0 < unit) (hle : unit ≤ 16) {lane : Fin 32} {off : BitVec 32} :
    off ∈ share unit nbytes lane ↔
      off.toNat < nbytes.toNat ∧ off.toNat % unit = 0 ∧ off.toNat / unit % 32 = lane := by
  have hstart : (BitVec.ofNat 32 (lane * unit)).toNat = lane * unit := by
    have hbound : lane * unit ≤ 31 * 16 := Nat.mul_le_mul (Nat.le_of_lt_succ lane.isLt) hle
    rw [BitVec.toNat_ofNat, Nat.mod_eq_of_lt (by omega)]
  have hstep := toNat_stride hle
  rw [share, mem_strideValues_iff (by omega), hstart, hstep, and_left_comm, mem_lane_iff hunit lane.isLt]

theorem covers_iff (hunit : 0 < unit) (hle : unit ≤ 16) (hmul : nbytes.toNat % unit = 0) {lane : Fin 32}
    {off : BitVec 32} {a : ℕ} :
    off ∈ share unit nbytes lane ∧ a ∈ Set.Ico off.toNat (off.toNat + unit) ↔
      a < nbytes.toNat ∧ off.toNat = a / unit * unit ∧ lane = a / unit % 32 := by
  rw [mem_share_iff hunit hle, Set.mem_Ico]
  constructor
  · rintro ⟨⟨hlt, hmod, hlane⟩, hfrom, hto⟩
    obtain ⟨q, hq⟩ := Nat.dvd_of_mod_eq_zero hmod
    obtain ⟨m, hm⟩ := Nat.dvd_of_mod_eq_zero hmul
    have hdiv : a / unit = q := by
      refine Nat.div_eq_of_lt_le ?_ ?_
      · rw [Nat.mul_comm, ← hq]
        exact hfrom
      · rw [Nat.succ_mul, Nat.mul_comm, ← hq]
        exact hto
    -- the last chunk ends where the block does
    have hend : off.toNat + unit ≤ nbytes.toNat := by
      rw [hq, hm] at hlt ⊢
      rw [← Nat.mul_succ]
      exact Nat.mul_le_mul_left unit (Nat.lt_of_mul_lt_mul_left hlt)
    rw [hq, Nat.mul_div_cancel_left _ hunit] at hlane
    rw [hdiv, hq, Nat.mul_comm]
    exact ⟨by omega, rfl, hlane.symm⟩
  · rintro ⟨hlt, hoff, hlane⟩
    have hfrom := Nat.div_mul_le_self a unit
    have hto := Nat.lt_div_mul_add hunit (a := a)
    rw [hoff, Nat.mul_mod_left, Nat.mul_div_cancel _ hunit]
    exact ⟨⟨by omega, rfl, hlane.symm⟩, hfrom, hto⟩

theorem exists_covers (hunit : 0 < unit) (hle : unit ≤ 16) (hmul : nbytes.toNat % unit = 0) {a : ℕ}
    (ha : a < nbytes.toNat) :
    ∃ lane off, off ∈ share unit nbytes lane ∧ a ∈ Set.Ico off.toNat (off.toNat + unit) := by
  have hfrom := Nat.div_mul_le_self a unit
  have hoff : (BitVec.ofNat 32 (a / unit * unit)).toNat = a / unit * unit := by
    rw [BitVec.toNat_ofNat, Nat.mod_eq_of_lt (by omega)]
  exact ⟨⟨a / unit % 32, Nat.mod_lt _ (by decide)⟩, BitVec.ofNat 32 (a / unit * unit),
    (covers_iff hunit hle hmul).mpr ⟨ha, hoff, rfl⟩⟩

/-- **The lanes share out the bytes** of a block of whole units. -/
theorem copiesOnce_share (hunit : 0 < unit) (hle : unit ≤ 16) (hmul : nbytes.toNat % unit = 0) :
    CopiesOnce nbytes unit (share unit nbytes) := by
  refine ⟨?_, fun a ha => ?_, fun off hmod hlt => ?_, fun lane => nodup_strideValues ?_⟩
  · ext a
    simp only [Set.mem_iUnion, exists_prop]
    constructor
    · rintro ⟨lane, off, h⟩
      exact ⟨Nat.zero_le a, ((covers_iff hunit hle hmul).mp h).1⟩
    · rintro ⟨_, ha⟩
      exact exists_covers hunit hle hmul ha
  · obtain ⟨lane, off, h⟩ := exists_covers hunit hle hmul ha
    obtain ⟨_, hoff, hlane⟩ := (covers_iff hunit hle hmul).mp h
    refine ⟨(lane, off), h, ?_⟩
    rintro ⟨lane', off'⟩ h'
    obtain ⟨_, hoff', hlane'⟩ := (covers_iff hunit hle hmul).mp h'
    rw [Prod.mk.injEq]
    exact ⟨Fin.ext (hlane'.trans hlane.symm), BitVec.eq_of_toNat_eq (hoff'.trans hoff.symm)⟩
  · refine ⟨⟨off.toNat / unit % 32, Nat.mod_lt _ (by decide)⟩,
      (mem_share_iff hunit hle).mpr ⟨hlt, hmod, rfl⟩, fun lane h => ?_⟩
    exact Fin.ext ((mem_share_iff hunit hle).mp h).2.2.symm
  · rw [toNat_stride hle]
    omega

/-- **The loops of the lanes end.** -/
theorem wordStrides_share (hunit : 0 < unit) (hle : unit ≤ 16) (hfits : nbytes.toNat + 32 * unit ≤ 2 ^ 32)
    (lane : Fin 32) {fuel : ℕ} (hfuel : nbytes.toNat < fuel) :
    wordStrides nbytes (BitVec.ofNat 32 (32 * unit)) fuel (BitVec.ofNat 32 (lane * unit)) =
      some (share unit nbytes lane) := by
  have hstep := toNat_stride hle
  have hpos : 0 < (BitVec.ofNat 32 (32 * unit)).toNat := by omega
  exact wordStrides_eq_some hpos (by omega) ((strides_le hpos).trans_lt hfuel)

end Share

theorem lane_thread (warp : ℕ) (lane : Fin 32) : thread warp lane &&& 31 = BitVec.ofNat 32 lane := by
  have hlane := lane.isLt
  refine BitVec.eq_of_toNat_eq ?_
  rw [toNat_lane_thread, BitVec.toNat_ofNat, Nat.mod_eq_of_lt (by omega)]

section Issue

variable {cudaArch : Option ℕ} {nbytes : BitVec 32} {fuel : ℕ}

theorem prefetchIssuePartial_cpAsync (harch : hasCpAsync cudaArch) (hfits : nbytes.toNat + 512 ≤ 2 ^ 32)
    (warp : ℕ) (lane : Fin 32) (hfuel : nbytes.toNat < fuel) :
    prefetchIssuePartial cudaArch (thread warp lane) nbytes fuel =
      some ((share 16 nbytes lane).map Copy.cpAsyncCa16) := by
  have hstart : BitVec.ofNat 32 lane * prefetchChunkBytes = BitVec.ofNat 32 (lane * 16) :=
    (BitVec.ofNat_mul _ _).symm
  have hstep : 32 * prefetchChunkBytes = BitVec.ofNat 32 (32 * 16) := rfl
  rw [prefetchIssuePartial, if_pos harch, lane_thread, hstart, hstep,
    wordStrides_share (by decide) le_rfl hfits lane hfuel, Option.map_some]

theorem prefetchIssuePartial_byte (harch : ¬ hasCpAsync cudaArch) (hfits : nbytes.toNat + 32 ≤ 2 ^ 32)
    (warp : ℕ) (lane : Fin 32) (hfuel : nbytes.toNat < fuel) :
    prefetchIssuePartial cudaArch (thread warp lane) nbytes fuel =
      some ((share 1 nbytes lane).map Copy.byte) := by
  have hstart : BitVec.ofNat 32 lane = BitVec.ofNat 32 (lane * 1) := by rw [Nat.mul_one]
  have hstep : (32 : BitVec 32) = BitVec.ofNat 32 (32 * 1) := rfl
  rw [prefetchIssuePartial, if_neg harch, lane_thread, hstart, hstep,
    wordStrides_share (by decide) (by decide) hfits lane hfuel, Option.map_some]

end Issue

/-! ### The memory -/

/-- The copies of all lanes, one of each offset. -/
def warpCopies (copy : BitVec 32 → Copy) (offs : Fin 32 → List (BitVec 32)) : List Copy :=
  (List.finRange 32).flatMap fun lane => (offs lane).map copy

section Memory

variable {nbytes : BitVec 32} {unit : ℕ} {offs : Fin 32 → List (BitVec 32)} {copy : BitVec 32 → Copy}
  {order : List Copy}

/-- **What the copies of a warp leave** in the shared memory, whichever order they are made in. -/
theorem CopiesOnce.stage_eq (h : CopiesOnce nbytes unit offs) (hoff : ∀ off, (copy off).off = off.toNat)
    (hsize : ∀ off, (copy off).size = unit) (hperm : order.Perm (warpCopies copy offs)) (hbm : Memory)
    (hbmSrc smemDst : ℕ) (smem : Memory) (a : ℕ) :
    stage hbm hbmSrc smemDst order smem a =
      if smemDst ≤ a ∧ a < smemDst + nbytes.toNat then hbm (hbmSrc + (a - smemDst)) else smem a := by
  have hcovered : (∃ c ∈ order, smemDst + c.off ≤ a ∧ a < smemDst + c.off + c.size) ↔
      smemDst ≤ a ∧ a < smemDst + nbytes.toNat := by
    constructor
    · rintro ⟨c, hc, hfrom, hto⟩
      obtain ⟨lane, _, hlane⟩ := List.mem_flatMap.mp (hperm.subset hc)
      obtain ⟨off, hmem, rfl⟩ := List.mem_map.mp hlane
      rw [hoff] at hfrom hto
      rw [hsize] at hto
      have ha : a - smemDst ∈ Set.Ico 0 nbytes.toNat := by
        rw [← h.union]
        exact Set.mem_iUnion.mpr ⟨lane, Set.mem_iUnion₂.mpr ⟨off, hmem, by omega, by omega⟩⟩
      have hlt := ha.2
      omega
    · rintro ⟨hfrom, hto⟩
      obtain ⟨c, ⟨hmem, hle, hlt⟩, _⟩ := h.byte (a - smemDst) (by omega)
      have hc : copy c.2 ∈ warpCopies copy offs :=
        List.mem_flatMap.mpr ⟨c.1, List.mem_finRange c.1, List.mem_map_of_mem hmem⟩
      refine ⟨copy c.2, hperm.symm.subset hc, ?_⟩
      rw [hoff, hsize]
      omega
  rw [stage_apply]
  simp only [hcovered]

end Memory

/-- **Both versions copy the same bytes, each once.** For every warp and every number of bytes that is a
multiple of 16 and leaves room for a step of the counter: the loops of all lanes end, with the asynchronous
copies as well as without. The chunks of the asynchronous copies are the bytes of the block and no others,
and each is copied by one lane, once. In whichever order the copies are made, the shared memory then holds
the block and is as before outside it, and it is the same with the copies of single bytes. -/
theorem prefetch_copies_once {arch older : Option ℕ} (harch : hasCpAsync arch) (holder : ¬ hasCpAsync older)
    (warp : ℕ) (nbytes : BitVec 32) (hmul : nbytes.toNat % 16 = 0) (hle : nbytes.toNat ≤ 2 ^ 32 - 512) :
    ∃ chunks bytes : Fin 32 → List (BitVec 32),
      (∀ lane, ∀ fuel > nbytes.toNat,
        prefetchIssuePartial arch (thread warp lane) nbytes fuel =
            some ((chunks lane).map Copy.cpAsyncCa16) ∧
          prefetchIssuePartial older (thread warp lane) nbytes fuel = some ((bytes lane).map Copy.byte)) ∧
      CopiesOnce nbytes 16 chunks ∧
      ∀ (hbm : Memory) (hbmSrc smemDst : ℕ) (smem : Memory) (order order' : List Copy),
        order.Perm (warpCopies Copy.cpAsyncCa16 chunks) → order'.Perm (warpCopies Copy.byte bytes) →
          (∀ a, stage hbm hbmSrc smemDst order smem a =
            if smemDst ≤ a ∧ a < smemDst + nbytes.toNat then hbm (hbmSrc + (a - smemDst)) else smem a) ∧
          stage hbm hbmSrc smemDst order smem = stage hbm hbmSrc smemDst order' smem := by
  have hchunks : CopiesOnce nbytes 16 (share 16 nbytes) := copiesOnce_share (by decide) le_rfl hmul
  have hbytes : CopiesOnce nbytes 1 (share 1 nbytes) :=
    copiesOnce_share (by decide) (by decide) (Nat.mod_one _)
  refine ⟨share 16 nbytes, share 1 nbytes, fun lane fuel hfuel => ⟨?_, ?_⟩, hchunks, ?_⟩
  · exact prefetchIssuePartial_cpAsync harch (by omega) warp lane hfuel
  · exact prefetchIssuePartial_byte holder (by omega) warp lane hfuel
  · intro hbm hbmSrc smemDst smem order order' horder horder'
    have hstage := hchunks.stage_eq (fun _ => rfl) (fun _ => rfl) horder hbm hbmSrc smemDst smem
    have hstage' := hbytes.stage_eq (fun _ => rfl) (fun _ => rfl) horder' hbm hbmSrc smemDst smem
    refine ⟨hstage, ?_⟩
    funext a
    rw [hstage a, hstage' a]

theorem prefetchIssue_copies_once :
    hasCpAsync (some 900) ∧ ¬ hasCpAsync (some 700) ∧ ∃ chunks bytes : Fin 32 → List (BitVec 32),
      (∀ lane, prefetchIssue (some 900) (thread 0 lane) 16385 = some ((chunks lane).map Copy.cpAsyncCa16) ∧
        prefetchIssue (some 700) (thread 0 lane) 16385 = some ((bytes lane).map Copy.byte)) ∧
      CopiesOnce kvBlockSize 16 chunks := by
  refine ⟨by decide, by decide, ?_⟩
  obtain ⟨chunks, bytes, hends, honce, _⟩ := @prefetch_copies_once (some 900) (some 700)
    (by decide) (by decide) 0 kvBlockSize (by decide) (by decide)
  exact ⟨chunks, bytes, fun lane => hends lane 16385 (by decide), honce⟩

end Prefetch

end RolloutRuntime
