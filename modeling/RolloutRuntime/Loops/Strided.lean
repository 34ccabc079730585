import Mathlib.Data.BitVec
import Mathlib.Data.List.Basic
import RolloutRuntime.Loops.Counted

/-!
# Loops with a word for their counter

A loop in steps with a machine word for its counter ends if its end and one more step fit in a word;
otherwise the counter may wrap before it reaches the end.

Copies of pieces that all move by the same distance may be made in any order, and may overlap.

## Main definitions

* `Loops.wordStrides stop step fuel start`: the values of the counter.
* `Loops.copyRange`: a copy from one array to another.

## Main results

* `Loops.wordStrides_eq_some`: the loop ends.
* `Loops.foldl_copyRange`: copies in any order.
-/

namespace Loops

/-! ### Counters -/

section Counter

variable {w : ℕ}

/-- The values of the counter of `for (i = start; i < stop; i += step)`, or `none` if the loop takes `fuel`
iterations or more. -/
def wordStrides (stop step : BitVec w) : ℕ → BitVec w → Option (List (BitVec w))
  | 0, _ => none
  | fuel + 1, i => if i < stop then (wordStrides stop step fuel (i + step)).map (i :: ·) else some []

/-- The values of the counter if it does not wrap. -/
def strideValues (start stop step : BitVec w) : List (BitVec w) :=
  (List.range (strides start.toNat stop.toNat step.toNat)).map
    fun k => BitVec.ofNat w (start.toNat + k * step.toNat)

variable {start stop step : BitVec w}

theorem strideValues_of_lt (hstep : 0 < step.toNat) (hfits : stop.toNat + step.toNat ≤ 2 ^ w)
    (h : start < stop) :
    strideValues start stop step = start :: strideValues (start + step) stop step := by
  have hlt : start.toNat < stop.toNat := h
  have hnext : (start + step).toNat = start.toNat + step.toNat := BitVec.toNat_add_of_lt (by omega)
  rw [strideValues, strideValues, hnext, strides_eq_succ hstep hlt, List.range_succ_eq_map, List.map_cons,
    List.map_map, Nat.zero_mul, Nat.add_zero, BitVec.ofNat_toNat, BitVec.setWidth_eq]
  congr 2
  funext k
  rw [Function.comp_apply, Nat.succ_mul]
  congr 1
  omega

/-- **The loop ends**, and its counter does not wrap. -/
theorem wordStrides_eq_some (hstep : 0 < step.toNat) (hfits : stop.toNat + step.toNat ≤ 2 ^ w) {fuel : ℕ}
    (hfuel : strides start.toNat stop.toNat step.toNat < fuel) :
    wordStrides stop step fuel start = some (strideValues start stop step) := by
  induction fuel generalizing start with
  | zero => exact absurd hfuel (Nat.not_lt_zero _)
  | succ fuel ih =>
    rw [wordStrides]
    split_ifs with h
    · have hlt : start.toNat < stop.toNat := h
      have hnext : (start + step).toNat = start.toNat + step.toNat := BitVec.toNat_add_of_lt (by omega)
      have hrest : strides (start + step).toNat stop.toNat step.toNat < fuel := by
        rw [strides_eq_succ hstep hlt] at hfuel
        rw [hnext]
        omega
      rw [ih hrest, Option.map_some, strideValues_of_lt hstep hfits h]
    · have hle : stop.toNat ≤ start.toNat := Nat.le_of_not_lt h
      rw [strideValues, strides_eq_zero hle, List.range_zero, List.map_nil]

theorem toNat_strideValue (hstep : 0 < step.toNat) {k : ℕ}
    (hk : k < strides start.toNat stop.toNat step.toNat) :
    (BitVec.ofNat w (start.toNat + k * step.toNat)).toNat = start.toNat + k * step.toNat := by
  have hlt := (lt_strides_iff hstep).mp hk
  rw [BitVec.toNat_ofNat, Nat.mod_eq_of_lt (hlt.trans stop.isLt)]

theorem mem_strideValues_iff (hstep : 0 < step.toNat) {i : BitVec w} :
    i ∈ strideValues start stop step ↔
      start.toNat ≤ i.toNat ∧ i.toNat < stop.toNat ∧ (i.toNat - start.toNat) % step.toNat = 0 := by
  rw [← exists_lt_strides_iff hstep, strideValues, List.mem_map]
  refine exists_congr fun k => ?_
  rw [List.mem_range]
  refine and_congr_right fun hk => ?_
  rw [← BitVec.toNat_inj, toNat_strideValue hstep hk]

theorem nodup_strideValues (hstep : 0 < step.toNat) : (strideValues start stop step).Nodup := by
  refine List.Nodup.map_on (fun k hk k' hk' h => ?_) List.nodup_range
  have hvalue := congrArg BitVec.toNat h
  rw [toNat_strideValue hstep (List.mem_range.mp hk), toNat_strideValue hstep (List.mem_range.mp hk')]
    at hvalue
  exact Nat.eq_of_mul_eq_mul_right hstep (Nat.add_left_cancel hvalue)

end Counter

/-! ### Copies -/

section Copy

variable {α : Type}

/-- `for (i = 0; i < n; i++) dst[i] = src[i];`, where the array that is written to begins with `target` and
the other one is `source`. -/
def copyRange (n : ℕ) (source : ℕ → α) (dst src : ℕ) (target : ℕ → α) : ℕ → α :=
  forRange n (fun i target => Function.update target (dst + i) (source (src + i))) target

theorem copyRange_apply (n : ℕ) (source : ℕ → α) (dst src : ℕ) (target : ℕ → α) (a : ℕ) :
    copyRange n source dst src target a =
      if dst ≤ a ∧ a < dst + n then source (src + (a - dst)) else target a := by
  induction n with
  | zero =>
    rw [if_neg (by omega)]
    rfl
  | succ n ih =>
    have hnext : copyRange (n + 1) source dst src target =
        Function.update (copyRange n source dst src target) (dst + n) (source (src + n)) := rfl
    rw [hnext]
    by_cases ha : a = dst + n
    · rw [ha, Function.update_self, if_pos (by omega), Nat.add_sub_cancel_left]
    · have hiff : dst ≤ a ∧ a < dst + (n + 1) ↔ dst ≤ a ∧ a < dst + n := by omega
      rw [Function.update_of_ne ha, ih]
      simp only [hiff]

/-- **Copies in any order**: what becomes of a place depends on whether one of them covers it. -/
theorem foldl_copyRange {ι : Type} (off len : ι → ℕ) (source : ℕ → α) (dst src : ℕ) (copies : List ι)
    (target : ℕ → α) (a : ℕ) :
    copies.foldl (fun target c => copyRange (len c) source (dst + off c) (src + off c) target) target a =
      if ∃ c ∈ copies, dst + off c ≤ a ∧ a < dst + off c + len c then source (src + (a - dst))
      else target a := by
  induction copies generalizing target with
  | nil => simp
  | cons c copies ih =>
    rw [List.foldl_cons, ih]
    by_cases hrest : ∃ c ∈ copies, dst + off c ≤ a ∧ a < dst + off c + len c
    · rw [if_pos hrest, if_pos (List.exists_mem_cons_of_exists hrest)]
    · rw [if_neg hrest, copyRange_apply]
      by_cases hc : dst + off c ≤ a ∧ a < dst + off c + len c
      · have hsrc : src + off c + (a - (dst + off c)) = src + (a - dst) := by omega
        rw [if_pos hc, if_pos ⟨c, List.mem_cons_self, hc⟩, hsrc]
      · have hnone : ¬ ∃ x ∈ c :: copies, dst + off x ≤ a ∧ a < dst + off x + len x := by
          rintro ⟨x, hx, hcov⟩
          rcases List.mem_cons.mp hx with rfl | hx
          · exact hc hcov
          · exact hrest ⟨x, hx, hcov⟩
        rw [if_neg hc, if_neg hnone]

end Copy

end Loops
