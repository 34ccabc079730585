import Mathlib.Algebra.BigOperators.Field
import Mathlib.Algebra.Order.BigOperators.Group.Finset
import Mathlib.Algebra.Order.Field.Basic
import Mathlib.Order.WithBot
import Mathlib.Tactic.Ring

/-!
# Softmax sums in tiles

A sum of values weighted by the softmax of their scores is computed in one pass over tiles of tokens: a
running maximum `m` of the scores seen, and the sums of `exp (score - m)` and of `exp (score - m) * value`
over the tokens seen. A tile with a larger maximum rescales both sums. In exact arithmetic the quotient of
the two sums is the softmax sum of the tokens seen, whatever the tiles are.

The exponential is any positive function that takes sums to products.

## Main definitions

* `OnlineSoftmax.Exponential`: positive functions that take sums to products.
* `OnlineSoftmax.softmax`, `OnlineSoftmax.softmaxSum`: the weights, and the weighted sum of values.
* `OnlineSoftmax.Running`, `OnlineSoftmax.Running.absorb`: the running values, and one more tile.
* `OnlineSoftmax.Represents`: the running values after given tokens.

## Main results

* `OnlineSoftmax.Represents.absorb`: a tile keeps the running values right.
* `OnlineSoftmax.Represents.norm_pos`, `OnlineSoftmax.Represents.acc_div_norm`: what they come to.
* `OnlineSoftmax.shifted_div_eq_softmaxSum`: a softmax sum with any shift of the scores.
-/

namespace OnlineSoftmax

/-- A positive function that takes sums to products. -/
structure Exponential (K : Type) [Field K] [LinearOrder K] where
  toFun : K → K
  pos : ∀ x, 0 < toFun x
  map_add : ∀ x y, toFun (x + y) = toFun x * toFun y

variable {K δ : Type} [Field K] [LinearOrder K]

instance : CoeFun (Exponential K) fun _ => K → K := ⟨Exponential.toFun⟩

namespace Exponential

variable (e : Exponential K)

theorem map_sub_mul_map_sub (x y z : K) : e (x - y) * e (y - z) = e (x - z) := by
  rw [← e.map_add, sub_add_sub_cancel]

theorem map_sub_mul (x m : K) : e (x - m) * e m = e x := by
  rw [← e.map_add, sub_add_cancel]

theorem ne_zero (x : K) : e x ≠ 0 := (e.pos x).ne'

end Exponential

/-- The softmax weight of token `t` among the first `n`. -/
def softmax (e : Exponential K) (s : ℕ → K) (n t : ℕ) : K := e (s t) / ∑ j ∈ Finset.range n, e (s j)

/-- The values of the first `n` tokens weighted by the softmax of their scores. -/
def softmaxSum (e : Exponential K) (s : ℕ → K) (v : ℕ → δ → K) (n : ℕ) (d : δ) : K :=
  ∑ t ∈ Finset.range n, softmax e s n t * v t d

/-- The running maximum, norm and weighted sum. -/
structure Running (K δ : Type) where
  max : WithBot K
  norm : K
  acc : δ → K

/-- Nothing is seen yet. -/
def Running.start : Running K δ := ⟨⊥, 0, fun _ => 0⟩

/-- What the sums so far are multiplied with for the new maximum `m`. -/
def Running.scaleOld (e : Exponential K) (r : Running K δ) (m : K) : K :=
  if r.norm = 0 then 0 else e (r.max.unbotD 0 - m)

/-- A tile of `k` tokens with the scores `s` and the values `v`, under the new maximum `m`. -/
def Running.absorb (e : Exponential K) (r : Running K δ) (m : K) (k : ℕ) (s : ℕ → K) (v : ℕ → δ → K) :
    Running K δ where
  max := m
  norm := r.norm * r.scaleOld e m + ∑ t ∈ Finset.range k, e (s t - m)
  acc d := r.acc d * r.scaleOld e m + ∑ t ∈ Finset.range k, e (s t - m) * v t d

/-- The running values after the first `n` tokens: at the start, or the sums of the exponentials of the
scores above some `m`, which is no less than any of them. -/
def Represents (e : Exponential K) (s : ℕ → K) (v : ℕ → δ → K) (n : ℕ) (r : Running K δ) : Prop :=
  (n = 0 ∧ r = .start) ∨
    0 < n ∧ ∃ m : K, r.max = m ∧ (∀ t < n, s t ≤ m) ∧ r.norm = ∑ t ∈ Finset.range n, e (s t - m) ∧
      ∀ d, r.acc d = ∑ t ∈ Finset.range n, e (s t - m) * v t d

section Represents

variable {e : Exponential K} {s : ℕ → K} {v : ℕ → δ → K} {n k : ℕ} {r : Running K δ} {m : K}

theorem represents_start : Represents e s v 0 .start := Or.inl ⟨rfl, rfl⟩

/-- The shift of the scores cancels in the quotient. -/
theorem shifted_div_eq_softmaxSum (e : Exponential K) (s : ℕ → K) (v : ℕ → δ → K) (n : ℕ) (m : K) (d : δ) :
    (∑ t ∈ Finset.range n, e (s t - m) * v t d) / ∑ t ∈ Finset.range n, e (s t - m) =
      softmaxSum e s v n d := by
  have hnum : (∑ t ∈ Finset.range n, e (s t - m) * v t d) * e m =
      ∑ t ∈ Finset.range n, e (s t) * v t d := by
    rw [Finset.sum_mul]
    refine Finset.sum_congr rfl fun t _ => ?_
    rw [mul_right_comm, e.map_sub_mul]
  have hden : (∑ t ∈ Finset.range n, e (s t - m)) * e m = ∑ t ∈ Finset.range n, e (s t) := by
    rw [Finset.sum_mul]
    exact Finset.sum_congr rfl fun t _ => e.map_sub_mul _ _
  rw [← mul_div_mul_right _ _ (e.ne_zero m), hnum, hden, softmaxSum, Finset.sum_div]
  refine Finset.sum_congr rfl fun t _ => ?_
  rw [softmax, div_mul_eq_mul_div]

/-- **The running values come to the softmax sum.** -/
theorem Represents.acc_div_norm (h : Represents e s v n r) (hn : 0 < n) (d : δ) :
    r.acc d / r.norm = softmaxSum e s v n d := by
  rcases h with ⟨rfl, -⟩ | ⟨-, m, -, -, hnorm, hacc⟩
  · exact absurd hn (lt_irrefl 0)
  · rw [hnorm, hacc, shifted_div_eq_softmaxSum]

theorem sum_mul_rescale (e : Exponential K) (f g : ℕ → K) (n : ℕ) (m m' : K) :
    (∑ t ∈ Finset.range n, e (f t - m) * g t) * e (m - m') =
      ∑ t ∈ Finset.range n, e (f t - m') * g t := by
  rw [Finset.sum_mul]
  refine Finset.sum_congr rfl fun t _ => ?_
  rw [mul_right_comm, e.map_sub_mul_map_sub]

variable [IsStrictOrderedRing K]

theorem sum_exp_pos (hn : 0 < n) (f : ℕ → K) : 0 < ∑ t ∈ Finset.range n, e (f t) :=
  Finset.sum_pos (fun _ _ => e.pos _) ⟨0, Finset.mem_range.mpr hn⟩

/-- **The norm is positive** once a token is seen. -/
theorem Represents.norm_pos (h : Represents e s v n r) (hn : 0 < n) : 0 < r.norm := by
  rcases h with ⟨rfl, -⟩ | ⟨-, m, -, -, hnorm, -⟩
  · exact absurd hn (lt_irrefl 0)
  · rw [hnorm]
    exact sum_exp_pos hn _

theorem scaleOld_eq (hn : 0 < n) {m₀ : K} (hmax : r.max = m₀)
    (hnorm : r.norm = ∑ t ∈ Finset.range n, e (s t - m₀)) : r.scaleOld e m = e (m₀ - m) := by
  have hne : r.norm ≠ 0 := by
    rw [hnorm]
    exact (sum_exp_pos hn _).ne'
  rw [Running.scaleOld, if_neg hne, hmax, WithBot.unbotD_coe]

/-- **One more tile** of at least one token, under a new maximum that is no less than the old one and the
scores of the tile. -/
theorem Represents.absorb (h : Represents e s v n r) (hk : 0 < k) (hold : r.max ≤ m)
    (htile : ∀ t < k, s (n + t) ≤ m) :
    Represents e s v (n + k) (r.absorb e m k (fun t => s (n + t)) fun t => v (n + t)) := by
  refine Or.inr ⟨by omega, m, rfl, ?_, ?_, ?_⟩
  · intro t ht
    rcases Nat.lt_or_ge t n with hlt | hge
    · rcases h with ⟨rfl, -⟩ | ⟨-, m₀, hmax, hle, -⟩
      · exact absurd hlt (Nat.not_lt_zero t)
      · rw [hmax, WithBot.coe_le_coe] at hold
        exact (hle t hlt).trans hold
    · have hsub := htile (t - n) (by omega)
      rwa [Nat.add_sub_cancel' hge] at hsub
  · rw [Finset.sum_range_add]
    rcases h with ⟨rfl, rfl⟩ | ⟨hn, m₀, hmax, -, hnorm, -⟩
    · simp [Running.absorb, Running.start]
    · have hscale := sum_mul_rescale e s (fun _ => 1) n m₀ m
      simp only [mul_one] at hscale
      simp only [Running.absorb, scaleOld_eq hn hmax hnorm]
      rw [hnorm, hscale]
  · intro d
    rw [Finset.sum_range_add]
    rcases h with ⟨rfl, rfl⟩ | ⟨hn, m₀, hmax, -, hnorm, hacc⟩
    · simp [Running.absorb, Running.start]
    · simp only [Running.absorb, scaleOld_eq hn hmax hnorm]
      rw [hacc, sum_mul_rescale]

end Represents

end OnlineSoftmax
