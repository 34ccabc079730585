import Mathlib.Data.Fin.Tuple.Basic
import Mathlib.Order.Fin.Basic
import Mathlib.Logic.Function.Basic
import Mathlib.Tactic.Common

/-!
# Bitmaps of 64-bit words

A bitmap of `n` words holds one bit for each of the ids below `n * 64`: that of `i` is bit `i % 64` of
word `i / 64`. Allocators scan the words in order for one that is not zero and take its lowest bit, by
counting trailing zeros. This finds the lowest id of the whole bitmap whose bit is set, so an
allocator on a bitmap can be verified on the function `bit` alone, without words.

## Main definitions

* `Words`, `bit`: bitmaps, and the bit of an id.
* `setBit`, `clearBit`, `compl`: the updates of a bitmap.
* `lowestBit`: the scan for a bit that is set.

## Main results

* `bit_setBit`, `bit_clearBit`, `bit_compl`: the bits after an update.
* `lowestBit_eq_some_iff`, `lowestBit_eq_none_iff`: the scan returns the lowest id whose bit is set.
-/

namespace Bitmap

variable {n : ℕ}

/-- A bitmap of `n` words. -/
abbrev Words (n : ℕ) : Type := Fin n → BitVec 64

/-- The word of an id. -/
def wordOf (i : Fin (n * 64)) : Fin n := ⟨i / 64, Nat.div_lt_of_lt_mul (by omega)⟩

/-- The bit of an id. -/
def bit (b : Words n) (i : Fin (n * 64)) : Bool := (b (wordOf i)).getLsbD (i % 64)

/-- Set the bit of an id: `b[i / 64] |= 1 << (i % 64)`. -/
def setBit (b : Words n) (i : Fin (n * 64)) : Words n :=
  Function.update b (wordOf i) (b (wordOf i) ||| 1#64 <<< ((i : ℕ) % 64))

/-- Clear the bit of an id: `b[i / 64] &= ~(1 << (i % 64))`. -/
def clearBit (b : Words n) (i : Fin (n * 64)) : Words n :=
  Function.update b (wordOf i) (b (wordOf i) &&& ~~~(1#64 <<< ((i : ℕ) % 64)))

/-- All bits inverted. -/
def compl (b : Words n) : Words n := fun w => ~~~(b w)

theorem toNat_ctz_lt {x : BitVec 64} (h : x ≠ 0) : x.ctz.toNat < 64 := by
  have hlt : x.ctz < (64 : BitVec 64) := BitVec.ctz_lt_iff_ne_zero.mpr h
  exact hlt

/-- The id of the lowest bit of the first word that is not zero. -/
def lowestBit (b : Words n) : Option (Fin (n * 64)) :=
  Fin.findSome? fun w =>
    if h : b w = 0 then none
    else some ⟨w * 64 + (b w).ctz.toNat, by have := toNat_ctz_lt h; omega⟩

/-! ### Bits -/

theorem eq_iff {i j : Fin (n * 64)} :
    i = j ↔ wordOf i = wordOf j ∧ (i : ℕ) % 64 = (j : ℕ) % 64 := by
  simp only [Fin.ext_iff, wordOf]
  omega

theorem getLsbD_one_shiftLeft {i j : ℕ} (hj : j < 64) :
    (1#64 <<< i).getLsbD j = decide (j = i) := by
  rw [BitVec.getLsbD_shiftLeft, BitVec.getLsbD_one]
  by_cases h : j = i
  · simp [h, show i < 64 by omega]
  · simp [h]
    omega

@[simp] theorem bit_setBit (b : Words n) (i j : Fin (n * 64)) :
    bit (setBit b i) j = (decide (j = i) || bit b j) := by
  have hj : (j : ℕ) % 64 < 64 := Nat.mod_lt _ (by decide)
  by_cases hw : wordOf j = wordOf i
  · simp only [bit, setBit, hw, Function.update_self, BitVec.getLsbD_or, getLsbD_one_shiftLeft hj,
      eq_iff, true_and]
    exact Bool.or_comm _ _
  · simp only [bit, setBit, Function.update_of_ne hw, eq_iff, hw, false_and, decide_false,
      Bool.false_or]

@[simp] theorem bit_clearBit (b : Words n) (i j : Fin (n * 64)) :
    bit (clearBit b i) j = (!decide (j = i) && bit b j) := by
  have hj : (j : ℕ) % 64 < 64 := Nat.mod_lt _ (by decide)
  by_cases hw : wordOf j = wordOf i
  · simp only [bit, clearBit, hw, Function.update_self, BitVec.getLsbD_and, BitVec.getLsbD_not, hj,
      getLsbD_one_shiftLeft hj, eq_iff, true_and, decide_true, Bool.true_and]
    exact Bool.and_comm _ _
  · simp only [bit, clearBit, Function.update_of_ne hw, eq_iff, hw, false_and, decide_false,
      Bool.not_false, Bool.true_and]

@[simp] theorem bit_compl (b : Words n) (i : Fin (n * 64)) : bit (compl b) i = !bit b i := by
  have hi : (i : ℕ) % 64 < 64 := Nat.mod_lt _ (by decide)
  simp only [bit, compl, BitVec.getLsbD_not, hi, decide_true, Bool.true_and]

theorem bit_zero (i : Fin (n * 64)) : bit (fun _ => 0) i = false := by
  simp [bit]

theorem bit_ones (i : Fin (n * 64)) : bit (fun _ => ~~~0) i = true := by
  have hcompl := bit_compl (fun _ => 0) i
  rwa [bit_zero] at hcompl

/-! ### The scan -/

theorem word_eq_zero_iff {b : Words n} {w : Fin n} :
    b w = 0 ↔ ∀ i, wordOf i = w → bit b i = false := by
  constructor
  · rintro h i rfl
    simp [bit, h]
  · intro h
    by_contra hne
    have hlt := toNat_ctz_lt hne
    let i : Fin (n * 64) := ⟨w * 64 + (b w).ctz.toNat, by omega⟩
    have hw : wordOf i = w := Fin.ext (by simp only [wordOf, i]; omega)
    have hmod : (i : ℕ) % 64 = (b w).ctz.toNat := by simp only [i]; omega
    have hbit := h i hw
    rw [bit, hw, hmod, BitVec.getLsbD_true_ctz_of_ne_zero hne] at hbit
    exact absurd hbit (by decide)

/-- **The scan fails only on a bitmap without bits.** -/
theorem lowestBit_eq_none_iff {b : Words n} : lowestBit b = none ↔ ∀ i, bit b i = false := by
  rw [lowestBit, Fin.findSome?_eq_none_iff]
  constructor
  · intro h i
    refine word_eq_zero_iff.mp ?_ i rfl
    by_contra hne
    have hi := h (wordOf i)
    rw [dif_neg hne] at hi
    exact absurd hi (by simp)
  · intro h w
    rw [dif_pos (word_eq_zero_iff.mpr fun i _ => h i)]

/-- What the scan returns is set, and nothing below it is. -/
theorem bit_of_lowestBit {b : Words n} {i : Fin (n * 64)} (h : lowestBit b = some i) :
    bit b i = true ∧ ∀ j < i, bit b j = false := by
  obtain ⟨w, hw, hbelow⟩ := Fin.findSome?_eq_some_iff.mp h
  by_cases hne : b w = 0
  · rw [dif_pos hne] at hw
    exact absurd hw (by simp)
  · rw [dif_neg hne, Option.some_inj] at hw
    have hlt := toNat_ctz_lt hne
    have hval : (i : ℕ) = w * 64 + (b w).ctz.toNat := congrArg Fin.val hw.symm
    have hword : wordOf i = w := Fin.ext (by simp only [wordOf]; omega)
    have hmod : (i : ℕ) % 64 = (b w).ctz.toNat := by omega
    refine ⟨?_, fun j hj => ?_⟩
    · rw [bit, hword, hmod]
      exact BitVec.getLsbD_true_ctz_of_ne_zero hne
    · have hji : (j : ℕ) < i := hj
      rcases Nat.lt_or_ge (wordOf j) w with hlow | hge
      · refine word_eq_zero_iff.mp ?_ j rfl
        by_contra hzero
        have hnone := hbelow (wordOf j) hlow
        rw [dif_neg hzero] at hnone
        exact absurd hnone (by simp)
      · have hwj : wordOf j = w := Fin.ext (by simp only [wordOf] at hge ⊢; omega)
        have hvj : (j : ℕ) / 64 = w := congrArg Fin.val hwj
        rw [bit, hwj]
        exact BitVec.getLsbD_false_of_lt_ctz (by omega)

/-- **The scan finds the lowest bit.** -/
theorem lowestBit_eq_some_iff {b : Words n} {i : Fin (n * 64)} :
    lowestBit b = some i ↔ bit b i = true ∧ ∀ j < i, bit b j = false := by
  refine ⟨bit_of_lowestBit, ?_⟩
  rintro ⟨hi, hbelow⟩
  rcases hfind : lowestBit b with _ | j
  · rw [lowestBit_eq_none_iff.mp hfind i] at hi
    exact absurd hi (by decide)
  · obtain ⟨hj, hbelow'⟩ := bit_of_lowestBit hfind
    rcases lt_trichotomy i j with hlt | rfl | hlt
    · rw [hbelow' i hlt] at hi
      exact absurd hi (by decide)
    · rfl
    · rw [hbelow j hlt] at hj
      exact absurd hj (by decide)

end Bitmap
