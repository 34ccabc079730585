import RolloutRuntime.Arena.Blocks
import RolloutRuntime.Rollout.Slab
import RolloutRuntime.KvPrefix.Table
import RolloutRuntime.Scheduler.Worker

/-!
# The bitmap allocators

Rollouts, prefixes and branches, blocks of the arena and slots of the device are all handed out from a
bitmap. The bitmaps have different sizes, and a set bit is a free id in the first three and a used id in
the other two. They are the same allocator: each refines the reference allocator, which keeps the set of
the ids in use.

## Main definitions

* `IdPool`: the allocators of the program, with their sizes.

## Main results

* `idPools_refine_reference`: each of them refines the reference allocator, and hands out no id twice
  without a free in between.

## References

* `src/rollout.c` lines 4–48, `src/kv_prefix.c` lines 5–43, `src/arena.c` lines 31–51,
  `cu/gpu_scheduler.cu` lines 4–24.
-/

namespace RolloutRuntime

open Bitmap

/-! ### Bitmaps of the prefix table -/

/-- `bitmap_alloc` and `bitmap_free` as an allocator. -/
def bitmapAllocator {n : ℕ} (init : Words n) : Allocator (n * 64) where
  State := Words n
  init := init
  alloc := bitmapAlloc
  free := bitmapFree

theorem bitmapAllocator_onBitmap {n : ℕ} {init : Words n} (hinit : Represents false init ∅) :
    (bitmapAllocator init).OnBitmap false fun b => b where
  init := hinit
  alloc _ := ⟨_, rfl, fun _ => rfl⟩
  free _ _ := rfl

/-! ### Slots of the device -/

/-- `find_free_slot` and `release_slot` as an allocator. -/
def slotAllocator : Allocator (4 * 64) where
  State := Scheduler.GpuRolloutState
  init := .zeroed
  alloc := Scheduler.findFreeSlot
  free := Scheduler.releaseSlot

theorem slotAllocator_onBitmap : slotAllocator.OnBitmap true Scheduler.GpuRolloutState.bitmap where
  init := represents_zero
  alloc _ := ⟨_, rfl, fun _ => rfl⟩
  free _ _ := rfl

/-! ### The family -/

/-- The pools of ids that are handed out from a bitmap. -/
inductive IdPool
  | rollouts
  | prefixes
  | branches
  | blocks (base capacity blockSize : BitVec 64)
  | slots

namespace IdPool

/-- The number of ids. -/
def size : IdPool → ℕ
  | rollouts => 128 * 64
  | prefixes => 8 * 64
  | branches => 256 * 64
  | blocks _ _ _ => bitmapWords * 64
  | slots => 4 * 64

/-- The allocator of a pool. -/
def allocator : (p : IdPool) → Allocator p.size
  | rollouts => rolloutAllocator
  | prefixes => bitmapAllocator kvPrefixTableInit.prefixBitmap
  | branches => bitmapAllocator kvPrefixTableInit.branchBitmap
  | blocks base capacity blockSize => arenaAllocator base capacity blockSize
  | slots => slotAllocator

theorem refines (p : IdPool) : p.allocator.Refines (reference p.size) := by
  cases p with
  | rollouts => exact rolloutAllocator_onBitmap.refines
  | prefixes => exact (bitmapAllocator_onBitmap represents_ones).refines
  | branches => exact (bitmapAllocator_onBitmap represents_ones).refines
  | blocks base capacity blockSize => exact (arenaAllocator_onBitmap base capacity blockSize).refines
  | slots => exact slotAllocator_onBitmap.refines

example : (rollouts.size, prefixes.size, branches.size, slots.size) = (8192, 512, 16384, 256) := rfl

end IdPool

/-- **The bitmap allocators are the same allocator.** In every sequence of allocations and frees from its
initial state, each hands out, refuses and takes back exactly as the reference allocator does; so an id
that is handed out twice is freed in between. -/
theorem idPools_refine_reference (p : IdPool) :
    p.allocator.Refines (reference p.size) ∧
      ∀ cs i l₁ l₂ l₃,
        p.allocator.events p.allocator.init cs = l₁ ++ .handed i :: (l₂ ++ .handed i :: l₃) →
          .freed i ∈ l₂ :=
  ⟨p.refines, fun cs _ _ _ _ h => p.refines.freed_between cs h⟩

end RolloutRuntime
