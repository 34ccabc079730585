import RolloutRuntime.Bitmap.Allocator
import Mathlib.Algebra.GroupWithZero.Nat
import Mathlib.Order.CompletePartialOrder
import Mathlib.Order.Interval.Set.Basic

/-!
# The arena of key-value blocks

The arena is one mapping of memory, cut into blocks of equal size. A bitmap with one bit for each of
`2 ^ 20` blocks tells which blocks are in use. The size of the bitmap is fixed, the size of the mapping
is an argument: the allocator scans the bitmap and never looks at the mapping, so it hands out the
smallest index that is not in use whether or not a block of that index lies inside the mapping.

The index of a block is signed in the source, and negative if there is none; here it is an `Option`. The
addresses that the two mappings are given by the system, if any, are arguments.

## Main definitions

* `KVArena`, `arenaInit`, `arenaAcquire`, `arenaRelease`, `arenaBlockPtr`.
* `Tenancy`: the arena with the blocks its callers hold.
* `Tenancy.Correct`: in a run of calls the blocks held are disjoint and inside the mapping, and an
  acquisition fails exactly if all blocks are held.
* `Tenancy.Roomy`: no acquisition of the run is made when all blocks inside the mapping are held.

## Main results

* `arenaAllocator_onBitmap`: the arena is an allocator on its bitmap.
* `arena_correct_iff`: a run is correct exactly if it is roomy.

## References

* `src/arena.c`, `include/arena.h`.
-/

namespace RolloutRuntime

open Bitmap

/-! ### The arena -/

/-- `BITMAP_WORDS`. -/
def bitmapWords : ℕ := 2 ^ 20 / 64

/-- The indices of the blocks that the bitmap has a bit for. -/
abbrev BlockIndex : Type := Fin (bitmapWords * 64)

instance : NeZero (bitmapWords * 64) := ⟨by decide⟩

/-- `KVArena`; a bit of the bitmap is set if its block is in use. -/
structure KVArena where
  base : BitVec 64
  capacity : BitVec 64
  blockSize : BitVec 64
  bitmap : Words bitmapWords

/-- `arena_init`, with what `mmap` returns for huge pages and for small ones; `none` if both fail and
the program is aborted. -/
def arenaInit (hugePages smallPages : Option (BitVec 64)) (capacity blockSize : BitVec 64) :
    Option KVArena :=
  (hugePages.or smallPages).map fun base => ⟨base, capacity, blockSize, fun _ => 0⟩

/-- `arena_acquire`. -/
def arenaAcquire (a : KVArena) : Option (BlockIndex × KVArena) :=
  (lowestBit (compl a.bitmap)).map fun i => (i, { a with bitmap := setBit a.bitmap i })

/-- `arena_release`; a negative index is ignored. -/
def arenaRelease (a : KVArena) (idx : Option BlockIndex) : KVArena :=
  match idx with
  | none => a
  | some i => { a with bitmap := clearBit a.bitmap i }

/-- `arena_block_ptr`. -/
def arenaBlockPtr (a : KVArena) (idx : BlockIndex) : BitVec 64 :=
  a.base + BitVec.ofNat 64 idx * a.blockSize

/-- The arena as an allocator of block indices. -/
def arenaAllocator (base capacity blockSize : BitVec 64) : Allocator (bitmapWords * 64) where
  State := KVArena
  init := ⟨base, capacity, blockSize, fun _ => 0⟩
  alloc := arenaAcquire
  free a i := arenaRelease a (some i)

theorem arenaAcquire_eq_some {a a' : KVArena} {i : BlockIndex} (h : arenaAcquire a = some (i, a')) :
    lowestBit (compl a.bitmap) = some i ∧ a' = { a with bitmap := setBit a.bitmap i } := by
  obtain ⟨j, hj, heq⟩ := Option.map_eq_some_iff.mp h
  obtain ⟨rfl, rfl⟩ := Prod.mk.inj heq
  exact ⟨hj, rfl⟩

theorem arenaAcquire_eq_none {a : KVArena} :
    arenaAcquire a = none ↔ lowestBit (compl a.bitmap) = none := by
  rw [arenaAcquire, Option.map_eq_none_iff]

theorem arenaAllocator_onBitmap (base capacity blockSize : BitVec 64) :
    (arenaAllocator base capacity blockSize).OnBitmap true KVArena.bitmap where
  init := represents_zero
  alloc a := by
    refine ⟨fun i => ({ a with bitmap := setBit a.bitmap i } : KVArena), ?_, fun _ => rfl⟩
    simp only [arenaAllocator, arenaAcquire, unusedBits_true]
  free _ _ := rfl

/-! ### Blocks inside the mapping -/

namespace KVArena

variable (a : KVArena)

/-- The block lies inside the mapping. -/
def Fits (i : BlockIndex) : Prop := (i + 1) * a.blockSize.toNat ≤ a.capacity.toNat

/-- The addresses of the mapping. -/
def mapping : Set ℕ := Set.Ico a.base.toNat (a.base.toNat + a.capacity.toNat)

/-- The addresses of a block. -/
def bytes (i : BlockIndex) : Set ℕ :=
  Set.Ico (arenaBlockPtr a i).toNat ((arenaBlockPtr a i).toNat + a.blockSize.toNat)

variable {a}

/-- The mapping ends inside the address space, so the address of a block that fits does not wrap. -/
theorem toNat_arenaBlockPtr (hmap : a.base.toNat + a.capacity.toNat ≤ 2 ^ 64)
    (hblock : a.blockSize ≠ 0) {i : BlockIndex} (h : a.Fits i) :
    (arenaBlockPtr a i).toNat = a.base.toNat + i * a.blockSize.toNat := by
  have hpos : 0 < a.blockSize.toNat := by
    rw [Nat.pos_iff_ne_zero]
    exact fun h0 => hblock (BitVec.eq_of_toNat_eq h0)
  have hfit : (i : ℕ) * a.blockSize.toNat + a.blockSize.toNat ≤ a.capacity.toNat := by
    rw [← Nat.succ_mul]
    exact h
  have hi : (i : ℕ) < 2 ^ 20 := i.isLt
  rw [arenaBlockPtr, BitVec.toNat_add, BitVec.toNat_mul, BitVec.toNat_ofNat,
    Nat.mod_eq_of_lt (show (i : ℕ) < 2 ^ 64 by omega),
    Nat.mod_eq_of_lt (show (i : ℕ) * a.blockSize.toNat < 2 ^ 64 by omega)]
  exact Nat.mod_eq_of_lt (by omega)

theorem Fits.mono {i j : BlockIndex} (h : a.Fits j) (hij : i ≤ j) : a.Fits i :=
  le_trans (Nat.mul_le_mul_right _ (Nat.succ_le_succ hij)) h

theorem Fits.lt_div (hblock : a.blockSize ≠ 0) {i : BlockIndex} (h : a.Fits i) :
    (i : ℕ) < a.capacity.toNat / a.blockSize.toNat := by
  have hpos : 0 < a.blockSize.toNat := by
    rw [Nat.pos_iff_ne_zero]
    exact fun h0 => hblock (BitVec.eq_of_toNat_eq h0)
  exact (Nat.le_div_iff_mul_le hpos).mpr h

end KVArena

/-! ### Runs -/

/-- The arena with the blocks that were acquired and not released. -/
structure Tenancy where
  arena : KVArena
  held : Finset BlockIndex

/-- What the callers do. -/
inductive ArenaCall
  | acquire
  | release (i : BlockIndex)

namespace Tenancy

/-- The arena after an acquisition that returned the given block, or none. -/
def acquired (s : Tenancy) : Option (BlockIndex × KVArena) → Tenancy
  | none => s
  | some (i, a) => ⟨a, insert i s.held⟩

/-- The arena after one call. -/
def step (s : Tenancy) : ArenaCall → Tenancy
  | .acquire => s.acquired (arenaAcquire s.arena)
  | .release i => ⟨arenaRelease s.arena (some i), s.held.erase i⟩

/-- The blocks held are inside the mapping and apart. -/
structure Contained (s : Tenancy) : Prop where
  fits : ∀ i ∈ s.held, s.arena.Fits i
  inside : ∀ i ∈ s.held, s.arena.bytes i ⊆ s.arena.mapping
  disjoint : ∀ i ∈ s.held, ∀ j ∈ s.held, i ≠ j → Disjoint (s.arena.bytes i) (s.arena.bytes j)

/-- All blocks of the mapping are held, or all those of the bitmap. -/
def Exhausted (s : Tenancy) : Prop :=
  (∀ n < s.arena.capacity.toNat / s.arena.blockSize.toNat, ∃ i ∈ s.held, (i : ℕ) = n) ∨
    s.held = Finset.univ

/-- An acquisition returns a block of the mapping, and fails exactly if there is none left. -/
structure AcquiresRight (s : Tenancy) : Prop where
  fits : ∀ i a, arenaAcquire s.arena = some (i, a) → s.arena.Fits i
  eq_none_iff : arenaAcquire s.arena = none ↔ s.Exhausted

/-- Every state of the run is contained, and every acquisition of the run returns what it should. -/
def Correct : Tenancy → List ArenaCall → Prop
  | s, [] => s.Contained
  | s, c :: cs => s.Contained ∧ (c = .acquire → s.AcquiresRight) ∧ (s.step c).Correct cs

/-- A block of the mapping is left, or no block of the bitmap. -/
def HasRoom (s : Tenancy) : Prop := (∃ i ∉ s.held, s.arena.Fits i) ∨ s.held = Finset.univ

/-- Every acquisition of the run finds room. -/
def Roomy : Tenancy → List ArenaCall → Prop
  | _, [] => True
  | s, c :: cs => (c = .acquire → s.HasRoom) ∧ (s.step c).Roomy cs

variable {s : Tenancy}

theorem step_acquire_none (h : arenaAcquire s.arena = none) : s.step .acquire = s := by
  rw [step, h, acquired]

theorem step_acquire_some {i : BlockIndex} {a : KVArena} (h : arenaAcquire s.arena = some (i, a)) :
    s.step .acquire = ⟨a, insert i s.held⟩ := by
  rw [step, h, acquired]

theorem contained_of_fits (hmap : s.arena.base.toNat + s.arena.capacity.toNat ≤ 2 ^ 64)
    (hblock : s.arena.blockSize ≠ 0) (h : ∀ i ∈ s.held, s.arena.Fits i) : s.Contained := by
  have hptr := fun i hi => KVArena.toNat_arenaBlockPtr hmap hblock (h i hi)
  have hend : ∀ i ∈ s.held,
      (i : ℕ) * s.arena.blockSize.toNat + s.arena.blockSize.toNat ≤ s.arena.capacity.toNat := by
    intro i hi
    rw [← Nat.succ_mul]
    exact h i hi
  have hbefore : ∀ i ∈ s.held, ∀ j ∈ s.held, i < j → Disjoint (s.arena.bytes i) (s.arena.bytes j) := by
    intro i hi j hj hij
    have hstep : (i : ℕ) * s.arena.blockSize.toNat + s.arena.blockSize.toNat ≤
        j * s.arena.blockSize.toNat := by
      rw [← Nat.succ_mul]
      exact Nat.mul_le_mul_right _ hij
    rw [Set.disjoint_left]
    rintro x ⟨-, hx⟩ ⟨hx', -⟩
    rw [hptr i hi] at hx
    rw [hptr j hj] at hx'
    omega
  refine ⟨h, fun i hi => ?_, fun i hi j hj hne => ?_⟩
  · have hi' := hend i hi
    rintro x ⟨hx, hx'⟩
    rw [hptr i hi] at hx hx'
    exact ⟨by omega, by omega⟩
  · rcases lt_or_gt_of_ne hne with hlt | hlt
    · exact hbefore i hi j hj hlt
    · exact (hbefore j hj i hi hlt).symm

/-- The bitmap represents the blocks held. -/
def Agrees (s : Tenancy) : Prop := Represents true s.arena.bitmap s.held

theorem Agrees.scan (h : s.Agrees) : lowestBit (compl s.arena.bitmap) = leastUnused s.held := by
  rw [← unusedBits_true]
  exact Represents.scan h

/-- The mapping and the block size never change, and the bitmap keeps representing the blocks held. -/
theorem Agrees.step (h : s.Agrees) (c : ArenaCall) :
    (s.step c).Agrees ∧ (s.step c).arena.base = s.arena.base ∧
      (s.step c).arena.capacity = s.arena.capacity ∧
      (s.step c).arena.blockSize = s.arena.blockSize := by
  cases c with
  | release i => exact ⟨Represents.give h i, rfl, rfl, rfl⟩
  | acquire =>
    rcases hacq : arenaAcquire s.arena with _ | ⟨i, a⟩
    · rw [step_acquire_none hacq]
      exact ⟨h, rfl, rfl, rfl⟩
    · rw [step_acquire_some hacq]
      obtain ⟨-, rfl⟩ := arenaAcquire_eq_some hacq
      exact ⟨Represents.take h i, rfl, rfl, rfl⟩

/-- **An acquisition** returns what it should exactly if it finds room: the smallest index that is free
is inside the mapping as soon as any is. -/
theorem Agrees.acquiresRight_iff (h : s.Agrees) (hblock : s.arena.blockSize ≠ 0) :
    s.AcquiresRight ↔ s.HasRoom := by
  constructor
  · intro hright
    rcases hacq : arenaAcquire s.arena with _ | ⟨i, a⟩
    · right
      rw [arenaAcquire_eq_none, h.scan] at hacq
      exact leastUnused_eq_none.mp hacq
    · left
      obtain ⟨hlow, -⟩ := arenaAcquire_eq_some hacq
      rw [h.scan] at hlow
      exact ⟨i, (leastUnused_eq_some.mp hlow).1, hright.fits i a hacq⟩
  · rintro (⟨j, hj, hfits⟩ | hall)
    · refine ⟨fun i a hacq => ?_, ?_⟩
      · obtain ⟨hlow, -⟩ := arenaAcquire_eq_some hacq
        rw [h.scan] at hlow
        refine hfits.mono (not_lt.mp fun hlt => hj ?_)
        exact (leastUnused_eq_some.mp hlow).2 j hlt
      · rw [arenaAcquire_eq_none, h.scan, leastUnused_eq_none]
        refine ⟨Or.inr, ?_⟩
        rintro (hblocks | hall)
        · obtain ⟨i, hi, hij⟩ := hblocks j (hfits.lt_div hblock)
          rw [Fin.ext hij] at hi
          exact absurd hi hj
        · exact hall
    · refine ⟨fun i a hacq => ?_, ?_⟩
      · obtain ⟨hlow, -⟩ := arenaAcquire_eq_some hacq
        rw [h.scan] at hlow
        exact absurd (hall ▸ Finset.mem_univ i) (leastUnused_eq_some.mp hlow).1
      · rw [arenaAcquire_eq_none, h.scan, leastUnused_eq_none]
        exact ⟨Or.inr, fun _ => hall⟩

theorem fits_step (h : ∀ i ∈ s.held, s.arena.Fits i) {c : ArenaCall}
    (hc : c = .acquire → s.AcquiresRight) : ∀ i ∈ (s.step c).held, s.arena.Fits i := by
  cases c with
  | release j => exact fun i hi => h i (Finset.mem_of_mem_erase hi)
  | acquire =>
    rcases hacq : arenaAcquire s.arena with _ | ⟨j, a⟩
    · rw [step_acquire_none hacq]
      exact h
    · rw [step_acquire_some hacq]
      intro i hi
      rcases Finset.mem_insert.mp hi with rfl | hi
      · exact (hc rfl).fits i a hacq
      · exact h i hi

theorem Agrees.correct_iff_roomy (h : s.Agrees)
    (hmap : s.arena.base.toNat + s.arena.capacity.toNat ≤ 2 ^ 64) (hblock : s.arena.blockSize ≠ 0)
    (hfits : ∀ i ∈ s.held, s.arena.Fits i) (cs : List ArenaCall) : s.Correct cs ↔ s.Roomy cs := by
  induction cs generalizing s with
  | nil => exact iff_of_true (contained_of_fits hmap hblock hfits) trivial
  | cons c cs ih =>
    obtain ⟨hagrees, hbase, hcap, hsize⟩ := h.step c
    have hnext : (c = .acquire → s.AcquiresRight) → ((s.step c).Correct cs ↔ (s.step c).Roomy cs) := by
      intro hc
      refine ih hagrees (by rwa [hbase, hcap]) (by rwa [hsize]) fun i hi => ?_
      rw [KVArena.Fits, hsize, hcap]
      exact fits_step hfits hc i hi
    have hright := h.acquiresRight_iff hblock
    constructor
    · rintro ⟨-, hc, hrest⟩
      exact ⟨fun hacq => hright.mp (hc hacq), (hnext hc).mp hrest⟩
    · rintro ⟨hc, hrest⟩
      have hc' : c = .acquire → s.AcquiresRight := fun hacq => hright.mpr (hc hacq)
      exact ⟨contained_of_fits hmap hblock hfits, hc', (hnext hc').mpr hrest⟩

theorem agrees_arenaInit {hugePages smallPages : Option (BitVec 64)} {capacity blockSize : BitVec 64}
    {a : KVArena} (ha : arenaInit hugePages smallPages capacity blockSize = some a) :
    Agrees ⟨a, ∅⟩ ∧ a.capacity = capacity ∧ a.blockSize = blockSize := by
  obtain ⟨base, -, rfl⟩ := Option.map_eq_some_iff.mp ha
  exact ⟨represents_zero, rfl, rfl⟩

end Tenancy

/-- **Blocks stay inside the arena** in exactly those runs in which no block is acquired while all blocks
of the mapping are held. The mapping that the system returns ends inside the address space. -/
theorem arena_correct_iff (hugePages smallPages : Option (BitVec 64)) (capacity blockSize : BitVec 64)
    (hblock : blockSize ≠ 0) (a : KVArena)
    (ha : arenaInit hugePages smallPages capacity blockSize = some a)
    (hmap : a.base.toNat + capacity.toNat ≤ 2 ^ 64) (cs : List ArenaCall) :
    Tenancy.Correct ⟨a, ∅⟩ cs ↔ Tenancy.Roomy ⟨a, ∅⟩ cs := by
  obtain ⟨hagrees, hcap, hsize⟩ := Tenancy.agrees_arenaInit ha
  refine hagrees.correct_iff_roomy ?_ ?_ (fun i hi => absurd hi (Finset.notMem_empty i)) cs
  · rwa [hcap]
  · rwa [hsize]

/-- An arena of two blocks at address `2 ^ 16`: the first acquisition finds room. -/
theorem arena_correct_iff_two_blocks :
    Tenancy.Correct ⟨⟨65536, 8192, 4096, fun _ => 0⟩, ∅⟩ [.acquire] := by
  refine (arena_correct_iff none (some 65536) 8192 4096 (by decide) _ rfl (by decide) _).mpr ?_
  have hfits : KVArena.Fits ⟨65536, 8192, 4096, fun _ => 0⟩ 0 := by
    rw [KVArena.Fits]
    decide
  exact ⟨fun _ => .inl ⟨0, Finset.notMem_empty 0, hfits⟩, trivial⟩

/-- In an arena of a single block the second acquisition returns a block outside the mapping. -/
theorem arena_overruns_one_block :
    ∃ a, arenaInit none (some 65536) 4096 4096 = some a ∧ a.base.toNat + 4096 ≤ 2 ^ 64 ∧
      ¬ Tenancy.Correct ⟨a, ∅⟩ [.acquire, .acquire] := by
  refine ⟨⟨65536, 4096, 4096, fun _ => 0⟩, rfl, by decide, ?_⟩
  set s : Tenancy := ⟨⟨65536, 4096, 4096, fun _ => 0⟩, ∅⟩ with hs
  have hagrees : s.Agrees := represents_zero
  have hfirst : lowestBit (compl s.arena.bitmap) = some 0 := by
    rw [hagrees.scan, leastUnused_eq_some]
    exact ⟨Finset.notMem_empty 0, fun j hj => absurd hj (Fin.not_lt_zero j)⟩
  have hheld : (s.step .acquire).held = {0} := by
    rcases hacq : arenaAcquire s.arena with _ | ⟨i, a⟩
    · rw [arenaAcquire_eq_none, hfirst] at hacq
      cases hacq
    · obtain ⟨hlow, -⟩ := arenaAcquire_eq_some hacq
      rw [hfirst] at hlow
      obtain rfl := Option.some_inj.mp hlow
      rw [Tenancy.step_acquire_some hacq, hs]
      rfl
  obtain ⟨hagrees', -, hcap, hsize⟩ := hagrees.step .acquire
  rintro ⟨-, -, -, hright, -⟩
  have hroom := (hagrees'.acquiresRight_iff (by rw [hsize]; decide)).mp (hright rfl)
  rcases hroom with ⟨i, hi, hfits⟩ | hall
  · rw [hheld, Finset.mem_singleton] at hi
    rw [KVArena.Fits, hcap, hsize] at hfits
    have hpos : 0 < (i : ℕ) := Nat.pos_of_ne_zero fun h0 => hi (Fin.ext h0)
    have hone : ((i : ℕ) + 1) * 4096 ≤ 4096 := hfits
    omega
  · rw [hheld, Finset.eq_univ_iff_forall] at hall
    have hone : (1 : BlockIndex) = 0 := Finset.mem_singleton.mp (hall 1)
    exact absurd (congrArg Fin.val hone) (by decide)

end RolloutRuntime
