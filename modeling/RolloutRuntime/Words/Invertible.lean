import Mathlib.Data.BitVec
import Mathlib.Tactic.Common

/-!
# Invertible maps of machine words

The maps that generators of pseudo-random numbers are made of lose no information: a word combined with a
shift of itself, a rotation, and the product with an odd number.

## Main results

* `Words.xor_shiftLeft_injective`: `x ^^^ x <<< k` determines `x`.
* `Words.rotateLeft_injective`: a rotation determines the word.
* `Words.mul_injective`: the product with a number that has an inverse determines the word.
-/

namespace Words

variable {w : ℕ}

/-- A word that is its own shift is 0: each bit is one further down, or there is none. -/
theorem eq_zero_of_eq_shiftLeft {k : ℕ} (hk : 0 < k) {x : BitVec w} (h : x = x <<< k) : x = 0 := by
  have hbits (i : ℕ) : x.getLsbD i = false := by
    induction i using Nat.strong_induction_on with
    | _ i ih =>
      rw [h, BitVec.getLsbD_shiftLeft]
      rcases Nat.lt_or_ge i k with hlt | hge
      · simp [hlt]
      · rw [ih (i - k) (by omega), Bool.and_false]
  refine BitVec.eq_of_getLsbD_eq fun i _ => ?_
  rw [hbits i]
  exact BitVec.getLsbD_zero.symm

theorem xor_eq_xor_of_xor_eq {x y a b : BitVec w} (h : x ^^^ a = y ^^^ b) : x ^^^ y = a ^^^ b := by
  calc
    x ^^^ y = x ^^^ a ^^^ (a ^^^ y) := by
      rw [BitVec.xor_assoc, ← BitVec.xor_assoc a, BitVec.xor_self, BitVec.zero_xor]
    _ = a ^^^ y ^^^ (y ^^^ b) := by rw [h, BitVec.xor_comm]
    _ = a ^^^ b := by rw [BitVec.xor_assoc, ← BitVec.xor_assoc y, BitVec.xor_self, BitVec.zero_xor]

theorem xor_shiftLeft_injective {k : ℕ} (hk : 0 < k) :
    Function.Injective fun x : BitVec w => x ^^^ x <<< k := by
  intro x y h
  have hshift : x ^^^ y = (x ^^^ y) <<< k := by
    rw [BitVec.shiftLeft_xor_distrib]
    exact xor_eq_xor_of_xor_eq h
  exact BitVec.xor_eq_zero_iff.mp (eq_zero_of_eq_shiftLeft hk hshift)

theorem getLsbD_rotateLeft_add {r i : ℕ} (hr : r < w) (hi : i < w) (x : BitVec w) :
    (x.rotateLeft r).getLsbD ((i + r) % w) = x.getLsbD i := by
  rw [BitVec.getLsbD_rotateLeft, Nat.mod_eq_of_lt hr]
  rcases Nat.lt_or_ge (i + r) w with hlt | hge
  · rw [Nat.mod_eq_of_lt hlt, decide_eq_false (by omega), cond_false, decide_eq_true hlt, Bool.true_and,
      Nat.add_sub_cancel]
  · have hwrap : (i + r) % w = i + r - w := by
      rw [Nat.mod_eq_sub_mod hge, Nat.mod_eq_of_lt (by omega)]
    have hbit : w - r + (i + r - w) = i := by omega
    rw [hwrap, decide_eq_true (by omega), cond_true, hbit]

theorem rotateLeft_injective {r : ℕ} (hr : r < w) :
    Function.Injective fun x : BitVec w => x.rotateLeft r := by
  intro x y h
  refine BitVec.eq_of_getLsbD_eq fun i hi => ?_
  rw [← getLsbD_rotateLeft_add hr hi x, ← getLsbD_rotateLeft_add hr hi y]
  exact congrArg (BitVec.getLsbD · _) h

theorem mul_injective {c d : BitVec w} (h : c * d = 1) : Function.Injective fun x : BitVec w => x * c := by
  intro x y hxy
  have hmul := congrArg (· * d) hxy
  simpa only [mul_assoc, h, mul_one] using hmul

end Words
