import RolloutRuntime.Arena.Blocks
import Mathlib.Order.Interval.Set.Disjoint
import Mathlib.Order.Interval.Set.LinearOrder

/-!
# The addresses of the key and value rows

A block of the arena has a row of 256 bytes for the key of each of 32 tokens, and after these a row for the
value of each. The offset of a row is computed in 32 bits, and that of a block too. The arena has room for
`2 ^ 20` blocks of 16384 bytes, so the offsets go round four times: the rows of a block lie inside the block
only for the first `2 ^ 18` blocks, and two rows share an address exactly if they have the same place in
blocks whose indices differ by a multiple of `2 ^ 18`. The pointer to a block, `arena_block_ptr`, is computed
in 64 bits.

## Main definitions

* `KvLayout.kvLayoutBlockOffsetBytes`, `KvLayout.kvLayoutKOffsetBytes`, `KvLayout.kvLayoutVOffsetBytes`: the
  offsets.
* `KvLayout.KvRow`, `KvLayout.KvRow.address`, `KvLayout.KvRow.bytes`: rows, and where they lie.
* `KvLayout.KvRow.Placed`: a row lies inside its block.

## Main results

* `KvLayout.KvRow.toNat_address`: the address of a row.
* `KvLayout.KvRow.disjoint_iff`: which rows share addresses.
* `KvLayout.rows_placed_iff`: when two rows lie where they should.

## References

* `include/kv_layout.h`, `include/arena.h`.
-/

namespace RolloutRuntime

namespace KvLayout

/-! ### Offsets -/

/-- `KV_LAYOUT_HEAD_DIM`. -/
def headDim : BitVec 32 := 128

/-- `KV_LAYOUT_TOKENS_PER_BLOCK`. -/
def tokensPerBlock : BitVec 32 := 32

/-- `KV_LAYOUT_SCALAR_BYTES`. -/
def scalarBytes : BitVec 32 := 2

/-- `KV_LAYOUT_VEC_BYTES`. -/
def vecBytes : BitVec 32 := 16

/-- `KV_LAYOUT_K_BYTES`. -/
def kBytes : BitVec 32 := tokensPerBlock * headDim * scalarBytes

/-- `KV_LAYOUT_V_BYTES`. -/
def vBytes : BitVec 32 := kBytes

/-- `KV_LAYOUT_BLOCK_BYTES`. -/
def blockBytes : BitVec 32 := kBytes + vBytes

/-- `kv_layout_block_offset_bytes`. -/
def kvLayoutBlockOffsetBytes (blockIdx : BitVec 32) : BitVec 32 := blockIdx * blockBytes

/-- `kv_layout_k_offset_bytes`. -/
def kvLayoutKOffsetBytes (tokenIdx : BitVec 32) : BitVec 32 := tokenIdx * (headDim * scalarBytes)

/-- `kv_layout_v_plane_base_bytes`. -/
def kvLayoutVPlaneBaseBytes : BitVec 32 := kBytes

/-- `kv_layout_v_offset_bytes`. -/
def kvLayoutVOffsetBytes (tokenIdx : BitVec 32) : BitVec 32 :=
  kvLayoutVPlaneBaseBytes + tokenIdx * (headDim * scalarBytes)

theorem rowBytes_eq : headDim * scalarBytes = 256#32 := by decide

theorem toNat_kBytes : kBytes.toNat = 8192 := by decide

theorem toNat_blockBytes : blockBytes.toNat = 16384 := by decide

/-! ### Rows -/

/-- The keys or the values of a block. -/
inductive Plane where
  | k
  | v
  deriving DecidableEq, Repr

/-- A row: a block that the arena has a bit for, a token of it, and its key or its value. -/
@[ext]
structure KvRow where
  block : BlockIndex
  token : Fin 32
  plane : Plane
  deriving DecidableEq

namespace KvRow

variable (x y : KvRow)

/-- The offset of a row in its block. -/
def offset : BitVec 32 :=
  match x.plane with
  | .k => kvLayoutKOffsetBytes (BitVec.ofNat 32 x.token)
  | .v => kvLayoutVOffsetBytes (BitVec.ofNat 32 x.token)

/-- The address of a row. -/
def address : BitVec 32 := kvLayoutBlockOffsetBytes (BitVec.ofNat 32 x.block) + x.offset

/-- The number of a row in its block: the keys come first. -/
def index : ℕ :=
  match x.plane with
  | .k => x.token
  | .v => 32 + x.token

/-- The addresses of the 256 bytes of a row. -/
def bytes : Set ℕ := Set.Ico x.address.toNat (x.address.toNat + (headDim * scalarBytes).toNat)

/-- The row lies inside its block, at an address that no 32 bits have cut short, and is aligned for vector
loads. -/
def Placed : Prop :=
  x.address.toNat = x.block * 16384 + x.offset.toNat ∧
    x.bytes ⊆ Set.Ico (x.block * 16384) ((x.block + 1) * 16384) ∧ vecBytes.toNat ∣ x.address.toNat

theorem index_lt : x.index < 64 := by
  have htoken := x.token.isLt
  rw [index]
  split <;> omega

theorem toNat_offset : x.offset.toNat = x.index * 256 := by
  have htoken := x.token.isLt
  rw [offset, index]
  cases x.plane with
  | k =>
    simp only [kvLayoutKOffsetBytes, rowBytes_eq, BitVec.toNat_mul, BitVec.toNat_ofNat]
    omega
  | v =>
    simp only [kvLayoutVOffsetBytes, kvLayoutVPlaneBaseBytes, rowBytes_eq, BitVec.toNat_add,
      BitVec.toNat_mul, BitVec.toNat_ofNat, toNat_kBytes]
    omega

/-- **The address of a row**: the index of the block counts modulo `2 ^ 18`. -/
theorem toNat_address : x.address.toNat = x.block % 2 ^ 18 * 16384 + x.index * 256 := by
  have hindex := x.index_lt
  have hblock : (kvLayoutBlockOffsetBytes (BitVec.ofNat 32 x.block)).toNat = x.block % 2 ^ 18 * 16384 := by
    simp only [kvLayoutBlockOffsetBytes, BitVec.toNat_mul, BitVec.toNat_ofNat, toNat_blockBytes]
    omega
  rw [address, BitVec.toNat_add, hblock, toNat_offset]
  omega

theorem bytes_eq : x.bytes = Set.Ico x.address.toNat (x.address.toNat + 256) := by
  rw [bytes, rowBytes_eq]
  rfl

/-- A row has its place in the block to itself. -/
theorem index_inj {x y : KvRow} : x.index = y.index ↔ x.token = y.token ∧ x.plane = y.plane := by
  have hx := x.token.isLt
  have hy := y.token.isLt
  rw [index, index, Fin.ext_iff]
  cases x.plane <;> cases y.plane <;> simp <;> omega

/-- **Which rows share addresses**: those at the same place of blocks that are a multiple of `2 ^ 18`
apart. -/
theorem disjoint_iff : Disjoint x.bytes y.bytes ↔
    ¬ (x.block.val % 2 ^ 18 = y.block.val % 2 ^ 18 ∧ x.token = y.token ∧ x.plane = y.plane) := by
  have hx := x.index_lt
  have hy := y.index_lt
  rw [← index_inj, bytes_eq, bytes_eq, Set.Ico_disjoint_Ico, toNat_address, toNat_address]
  omega

/-- A row lies inside its block exactly if the block is among the first `2 ^ 18`. -/
theorem placed_iff : x.Placed ↔ x.block.val < 2 ^ 18 := by
  have hindex := x.index_lt
  have hvec : vecBytes.toNat = 16 := by decide
  rw [Placed, toNat_offset, bytes_eq, Set.Ico_subset_Ico_iff (Nat.lt_add_of_pos_right (by decide)), hvec,
    toNat_address]
  omega

end KvRow

/-- When rows lie where they should. For all blocks that the arena can hand out and all rows of them: two
rows lie inside their blocks, with addresses computed without overflow and aligned to 16 bytes, and are
disjoint if they are not the same, exactly if both blocks are among the first `2 ^ 18`. Two rows, whatever
their blocks, share addresses exactly if they are at the same place of blocks that are a multiple of
`2 ^ 18` apart. -/
theorem rows_placed_iff (x y : KvRow) :
    (x.Placed ∧ y.Placed ∧ (x ≠ y → Disjoint x.bytes y.bytes) ↔
      x.block.val < 2 ^ 18 ∧ y.block.val < 2 ^ 18) ∧
      (Disjoint x.bytes y.bytes ↔
        ¬ (x.block.val % 2 ^ 18 = y.block.val % 2 ^ 18 ∧ x.token = y.token ∧ x.plane = y.plane)) := by
  refine ⟨?_, x.disjoint_iff y⟩
  rw [x.placed_iff, y.placed_iff, ← and_assoc, and_iff_left_iff_imp]
  rintro ⟨hx, hy⟩ hne
  rw [x.disjoint_iff y]
  rintro ⟨hmod, htoken, hplane⟩
  have hblock : x.block.val = y.block.val := by
    rwa [Nat.mod_eq_of_lt hx, Nat.mod_eq_of_lt hy] at hmod
  exact hne (KvRow.ext (Fin.ext hblock) htoken hplane)

/-- The key of the first token in block `2 ^ 18` has the address of that in block 0, outside its block. -/
theorem rows_alias :
    let x : KvRow := ⟨⟨0, by decide⟩, 0, .k⟩
    let y : KvRow := ⟨⟨2 ^ 18, by decide⟩, 0, .k⟩
    x ≠ y ∧ y.address = x.address ∧ ¬ Disjoint x.bytes y.bytes ∧ ¬ y.Placed := by
  intro x y
  have hne : x ≠ y := fun h => absurd (congrArg (fun r : KvRow => r.block.val) h) (by decide)
  refine ⟨hne, by decide, ?_, ?_⟩
  · rw [x.disjoint_iff y, not_not]
    exact ⟨by decide, rfl, rfl⟩
  · rw [y.placed_iff]
    decide

end KvLayout

end RolloutRuntime
