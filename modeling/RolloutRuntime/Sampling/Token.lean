import RolloutRuntime.Sampling.TopK
import Mathlib.Algebra.Order.BigOperators.Group.Finset
import Mathlib.Algebra.BigOperators.Field
import Mathlib.Algebra.Order.Field.Basic
import Mathlib.Data.Fin.VecNotation
import Mathlib.Data.Rat.Cast.Order
import Mathlib.Tactic.FieldSimp
import Mathlib.Tactic.Linarith
import Mathlib.Tactic.Positivity

/-!
# Sampling a token

`sample_token` scales the logits by the temperature, masks all but the largest ones, and draws a token from
the softmax distribution of what is left: it draws a number `r` below 1 with 24 bits and walks through the
tokens until the cumulative probability reaches `r`. The token with the cumulative probabilities `a` before
it and `b` up to it is returned for `a < r ≤ b`; only the first token is also returned for `r = 0`.

A token of probability 0 is therefore returned only if it is the first and `r = 0`. With `top_p` below 1 the
walk is the same, over the whole distribution: no token is left out.

The arithmetic is exact, over any ordered field. `expf` is `__expf` and `fltMax` is `FLT_MAX`.

## Main definitions

* `Sampling.xoshiro256Next`, `Sampling.uniform`: the generator, and the draw.
* `Sampling.walkFrom`, `Sampling.topPWalk`, `Sampling.plainWalk`: the cumulative walks.
* `Sampling.sampleToken`: one call of `sample_token`.
* `Sampling.massAbove`, `Sampling.InShare`: what the nucleus is made of, and the share of a token.
* `Sampling.tokenWeight`, `Sampling.tokenProb`: the distribution that a call draws from.

## Main results

* `Sampling.walkFrom_cases`, `Sampling.walkFrom_eq_some_iff`: the walk.
* `Sampling.walks_positive_iff`, `Sampling.sampleToken_weight_pos_iff`: when no token of weight 0 is
  returned, by a walk and by a call.
* `Sampling.sampleToken_nucleus_iff`: when the token is in the nucleus.

## References

* `cu/sample.cu`, `include/sample.h`.
-/

namespace RolloutRuntime

open Loops

namespace Sampling

/-! ### The generator -/

/-- The state of the generator. -/
abbrev RngState := Fin 4 → BitVec 64

/-- `rotl`. -/
def rotl (x : BitVec 64) (k : ℕ) : BitVec 64 := (x <<< k) ||| (x >>> (64 - k))

/-- `xoshiro256_next`: the result and the new state. -/
def xoshiro256Next (s : RngState) : BitVec 64 × RngState :=
  let result := rotl (s 1 * 5) 7 * 9
  let t := s 1 <<< 17
  let s2 := s 2 ^^^ s 0
  let s3 := s 3 ^^^ s 1
  let s1 := s 1 ^^^ s2
  let s0 := s 0 ^^^ s3
  (result, ![s0, s1, s2 ^^^ t, rotl s3 45])

/-- The bits of a result that are used. -/
def drawBits (s : RngState) : BitVec 64 := (xoshiro256Next s).1 &&& 0x00FFFFFF

theorem drawBits_lt (s : RngState) : (drawBits s).toNat < 16777216 := by
  have hle : (drawBits s).toNat ≤ (0x00FFFFFF : BitVec 64).toNat := by
    rw [drawBits, BitVec.toNat_and]
    exact Nat.and_le_right
  exact hle.trans_lt (by decide)

/-- The number that is drawn. -/
def uniform (K : Type) [Field K] (s : RngState) : K := ((drawBits s).toNat : K) / 16777216

/-- `SampleState`. -/
structure SampleState (K : Type) where
  rngState : RngState
  temperature : K
  topK : BitVec 16
  topP : K
  vocabSize : BitVec 32

/-- `MAX_VOCAB_SIZE`. -/
def maxVocabSize : BitVec 32 := 131072

/-- `sample_init`. -/
def sampleInit {K : Type} (seed : BitVec 64) (temp : K) (topK : BitVec 16) (topP : K) : SampleState K where
  rngState := ![seed, seed ^^^ 0x9e3779b97f4a7c15, rotl seed 17 ^^^ 0x3c6ef372fe94f82a, ~~~seed]
  temperature := temp
  topK := topK
  topP := topP
  vocabSize := maxVocabSize

variable {K : Type} [Field K] [LinearOrder K]

/-! ### The call -/

/-- The walk through the tokens from `i` on, with `m` tokens to go and the probability `cum` of those
before. -/
def walkFrom (p : ℕ → K) (r : K) : ℕ → ℕ → K → Option ℕ
  | 0, _, _ => none
  | m + 1, i, cum => if cum + p i ≥ r then some i else walkFrom p r m (i + 1) (cum + p i)

/-- The walk of the `top_p` branch over the exponentials `w`. -/
def topPWalk (n : ℕ) (w : ℕ → K) (r : K) : Option ℕ :=
  let sum := forRange n (fun i sum => sum + w i) 0
  let invSum := 1 / sum
  walkFrom (fun i => w i * invSum) r n 0 0

/-- The walk of the plain branch over the exponentials `w` with the sum `sum`. -/
def plainWalk (n : ℕ) (w : ℕ → K) (sum r : K) : Option ℕ := walkFrom (fun i => w i / sum) r n 0 0

/-- The largest logit, at least `-FLT_MAX`. -/
def maxVal (fltMax : K) (n : ℕ) (logits : ℕ → K) : K :=
  forRange n (fun i max => if logits i > max then logits i else max) (-fltMax)

/-- The logits after the temperature and the top-k filter; `buffer` is what the buffer of the filter holds
before. -/
def filterLogits (fltMax : K) (st : SampleState K) (logits buffer : ℕ → K) : ℕ → K :=
  let logits :=
    if st.temperature > 0 then
      let invTemp := 1 / st.temperature
      forRange st.vocabSize.toNat (fun i logits => Function.update logits i (logits i * invTemp)) logits
    else logits
  topKFilter (-fltMax) st.vocabSize.toNat st.topK.toNat logits buffer

/-- `sample_token`: the token, and the generator and the logits after the call. -/
def sampleToken (expf : K → K) (fltMax : K) (st : SampleState K) (logits buffer : ℕ → K) :
    ℕ × RngState × (ℕ → K) :=
  let n := st.vocabSize.toNat
  let logits := filterLogits fltMax st logits buffer
  let max := maxVal fltMax n logits
  let r := uniform K st.rngState
  let rngState := (xoshiro256Next st.rngState).2
  if st.topP > 0 ∧ st.topP < 1 then
    ((topPWalk n (fun i => expf (logits i - max)) r).getD (st.vocabSize - 1).toNat, rngState, logits)
  else
    let (logits, sum) := forRange n
      (fun i (logits, sum) =>
        let e := expf (logits i - max)
        (Function.update logits i e, sum + e)) (logits, 0)
    ((plainWalk n logits sum r).getD (st.vocabSize - 1).toNat, rngState, logits)

/-! ### The walk -/

/-- The probability of the tokens before `i`. -/
def cum (p : ℕ → K) (i : ℕ) : K := ∑ j ∈ Finset.range i, p j

/-- The walk returns token `i` for `r`: its share is what the cumulative probability gains at it, and the
first token has 0 as well. -/
def InShare (p : ℕ → K) (r : K) (i : ℕ) : Prop := (i = 0 ∨ cum p i < r) ∧ r ≤ cum p (i + 1)

section Walk

variable {p : ℕ → K} {r : K} {n i : ℕ}

omit [LinearOrder K] in
theorem cum_succ (p : ℕ → K) (i : ℕ) : cum p (i + 1) = cum p i + p i := Finset.sum_range_succ _ _

theorem walkFrom_congr {q : ℕ → K} (m i : ℕ) (c : K) (h : ∀ k, i ≤ k → k < i + m → p k = q k) :
    walkFrom p r m i c = walkFrom q r m i c := by
  induction m generalizing i c with
  | zero => rfl
  | succ m ih =>
    rw [walkFrom, walkFrom, h i le_rfl (by omega), ih (i + 1) _ fun k hk hlt => h k (by omega) (by omega)]

/-- **The walk.** It ends at the first token up to which the cumulative probability is at least `r`. -/
theorem walkFrom_cases (p : ℕ → K) (r : K) (n : ℕ) :
    (walkFrom p r n 0 0 = none ∧ ∀ k < n, cum p (k + 1) < r) ∨
      ∃ i < n, walkFrom p r n 0 0 = some i ∧ r ≤ cum p (i + 1) ∧ ∀ k < i, cum p (k + 1) < r := by
  have hloop : ∀ m i, i + m = n → (∀ k < i, cum p (k + 1) < r) →
      (walkFrom p r m i (cum p i) = none ∧ ∀ k < n, cum p (k + 1) < r) ∨
        ∃ j < n, walkFrom p r m i (cum p i) = some j ∧ r ≤ cum p (j + 1) ∧ ∀ k < j, cum p (k + 1) < r := by
    intro m
    induction m with
    | zero =>
      intro i hi hlt
      obtain rfl : i = n := hi
      exact Or.inl ⟨rfl, hlt⟩
    | succ m ih =>
      intro i hi hlt
      rw [walkFrom, ← cum_succ]
      by_cases hr : cum p (i + 1) ≥ r
      · rw [if_pos hr]
        exact Or.inr ⟨i, by omega, rfl, hr, hlt⟩
      · rw [if_neg hr]
        refine ih (i + 1) (by omega) fun k hk => ?_
        rcases Nat.lt_succ_iff_lt_or_eq.mp hk with hk | rfl
        · exact hlt k hk
        · exact not_le.mp hr
  have hstart := hloop n 0 (Nat.zero_add n) fun k hk => absurd hk (Nat.not_lt_zero k)
  rwa [cum, Finset.sum_range_zero] at hstart

variable [IsStrictOrderedRing K]

theorem cum_mono (hp : ∀ i < n, 0 ≤ p i) {j k : ℕ} (hjk : j ≤ k) (hk : k ≤ n) : cum p j ≤ cum p k := by
  refine Finset.sum_le_sum_of_subset_of_nonneg (Finset.range_mono hjk) fun i hi _ => ?_
  exact hp i ((Finset.mem_range.mp hi).trans_le hk)

theorem walkFrom_eq_some_iff (hp : ∀ i < n, 0 ≤ p i) :
    walkFrom p r n 0 0 = some i ↔ i < n ∧ InShare p r i := by
  rcases walkFrom_cases p r n with ⟨hnone, hlt⟩ | ⟨j, hj, hsome, hle, hlt⟩
  · rw [hnone]
    refine iff_of_false (by simp) ?_
    rintro ⟨hi, -, hr⟩
    exact absurd (hlt i hi) (not_lt.mpr hr)
  · rw [hsome, Option.some_inj]
    constructor
    · rintro rfl
      refine ⟨hj, ?_, hle⟩
      rcases Nat.eq_zero_or_pos j with hzero | hpos
      · exact Or.inl hzero
      · have hprev := hlt (j - 1) (by omega)
        rw [Nat.sub_add_cancel hpos] at hprev
        exact Or.inr hprev
    · rintro ⟨hi, hzero, hr⟩
      rcases lt_trichotomy j i with hji | rfl | hij
      · -- the walk cannot have ended before
        have hcum : cum p i < r := hzero.resolve_left (by omega)
        exact absurd (hle.trans (cum_mono hp hji hi.le)) (not_le.mpr hcum)
      · rfl
      · exact absurd (hlt i hij) (not_lt.mpr hr)

theorem InShare.eq_zero (hp : ∀ i < n, 0 ≤ p i) (hi : i < n) (h : InShare p 0 i) : i = 0 := by
  by_contra hne
  have hnonneg : 0 ≤ cum p i := by
    simpa [cum] using cum_mono hp (Nat.zero_le i) hi.le
  exact absurd (h.1.resolve_left hne) (not_lt.mpr hnonneg)

theorem InShare.pos (hr : 0 < r) (h : InShare p r i) : 0 < p i := by
  have hle := h.2
  rw [cum_succ] at hle
  rcases h.1 with rfl | hlt
  · have hcum : cum p 0 = 0 := Finset.sum_range_zero _
    rw [hcum] at hle
    linarith
  · linarith

omit [IsStrictOrderedRing K] in
theorem exists_walkFrom_eq_some (hr : r < cum p n) (hn : 0 < n) : ∃ i < n, walkFrom p r n 0 0 = some i := by
  rcases walkFrom_cases p r n with ⟨-, hlt⟩ | ⟨i, hi, hsome, -⟩
  · have hlast := hlt (n - 1) (by omega)
    rw [Nat.sub_add_cancel hn] at hlast
    exact absurd hr (not_lt.mpr hlast.le)
  · exact ⟨i, hi, hsome⟩

end Walk

section Prob

variable {n : ℕ} {w : ℕ → K}

/-- The probabilities of the tokens with the weights `w`. -/
def prob (n : ℕ) (w : ℕ → K) (i : ℕ) : K := w i / ∑ j ∈ Finset.range n, w j

theorem topPWalk_eq (n : ℕ) (w : ℕ → K) (r : K) : topPWalk n w r = walkFrom (prob n w) r n 0 0 := by
  have hprob : (fun i => w i * (1 / forRange n (fun i sum => sum + w i) 0)) = prob n w := by
    funext i
    rw [forRange_add, zero_add, prob, mul_one_div]
  rw [topPWalk, hprob]

theorem plainWalk_eq (n : ℕ) (w : ℕ → K) (r : K) :
    plainWalk n w (∑ j ∈ Finset.range n, w j) r = walkFrom (prob n w) r n 0 0 := rfl

theorem cum_prob (hsum : 0 < ∑ i ∈ Finset.range n, w i) : cum (prob n w) n = 1 := by
  simp only [cum, prob]
  rw [← Finset.sum_div, div_self hsum.ne']

theorem pos_of_sum_pos (hsum : 0 < ∑ i ∈ Finset.range n, w i) : 0 < n := by
  rcases Nat.eq_zero_or_pos n with rfl | hn
  · simp at hsum
  · exact hn

end Prob

section Draw

variable [IsStrictOrderedRing K] {n : ℕ} {w : ℕ → K} (s : RngState)

theorem uniform_nonneg : 0 ≤ uniform K s := by
  unfold uniform
  positivity

theorem uniform_lt_one : uniform K s < 1 := by
  rw [uniform, div_lt_one (by norm_num)]
  exact_mod_cast drawBits_lt s

theorem uniform_eq_zero_iff : uniform K s = 0 ↔ drawBits s = 0 := by
  rw [uniform, div_eq_zero_iff, Nat.cast_eq_zero]
  constructor
  · rintro (hbits | hden)
    · exact BitVec.eq_of_toNat_eq hbits
    · norm_num at hden
  · intro hbits
    rw [hbits]
    exact Or.inl rfl

theorem prob_nonneg (hw : ∀ i < n, 0 ≤ w i) : ∀ i < n, 0 ≤ prob n w i := fun i hi =>
  div_nonneg (hw i hi) (Finset.sum_nonneg fun j hj => hw j (Finset.mem_range.mp hj))

/-- The walk ends at a token, whatever is drawn. -/
theorem exists_walk_prob (hsum : 0 < ∑ i ∈ Finset.range n, w i) :
    ∃ i < n, walkFrom (prob n w) (uniform K s) n 0 0 = some i := by
  refine exists_walkFrom_eq_some ?_ (pos_of_sum_pos hsum)
  rw [cum_prob hsum]
  exact uniform_lt_one s

/-- **A token of weight 0 is returned only at the draw 0**, and then it is the first. -/
theorem walk_positive_iff (hw : ∀ i < n, 0 ≤ w i) (hsum : 0 < ∑ i ∈ Finset.range n, w i) :
    (∃ i < n, walkFrom (prob n w) (uniform K s) n 0 0 = some i ∧ 0 < w i) ↔
      drawBits s ≠ 0 ∨ 0 < w 0 := by
  obtain ⟨i, hi, hwalk⟩ := exists_walk_prob s hsum
  have hshare := ((walkFrom_eq_some_iff (prob_nonneg hw)).mp hwalk).2
  have hpos : (∃ j < n, walkFrom (prob n w) (uniform K s) n 0 0 = some j ∧ 0 < w j) ↔ 0 < w i := by
    constructor
    · rintro ⟨j, -, hj, hwj⟩
      obtain rfl : i = j := Option.some.inj (hwalk.symm.trans hj)
      exact hwj
    · exact fun hwi => ⟨i, hi, hwalk, hwi⟩
  rw [hpos]
  by_cases hzero : drawBits s = 0
  · -- at the draw 0 the walk stops at once
    rw [(uniform_eq_zero_iff s).mpr hzero] at hshare
    rw [hshare.eq_zero (prob_nonneg hw) hi]
    simp [hzero]
  · have huni : 0 < uniform K s :=
      lt_of_le_of_ne (uniform_nonneg s) fun h => hzero ((uniform_eq_zero_iff s).mp h.symm)
    refine iff_of_true ?_ (Or.inl hzero)
    exact (div_pos_iff_of_pos_right hsum).mp (hshare.pos huni)

end Draw

/-! ### Masked tokens -/

section Masked

variable [IsStrictOrderedRing K]

/-- **When no masked token is returned.** For every vector of weights that are not negative and have a
positive sum, and every state of the generator: both walks end at a token, and they end at a token of
positive weight exactly if the 24 bits drawn are not all zero or the first token has positive weight. -/
theorem walks_positive_iff (n : ℕ) (w : ℕ → K) (s : RngState) (hw : ∀ i < n, 0 ≤ w i)
    (hsum : 0 < ∑ i ∈ Finset.range n, w i) :
    (topPWalk n w (uniform K s) ≠ none ∧
      plainWalk n w (∑ i ∈ Finset.range n, w i) (uniform K s) ≠ none) ∧
      ((∃ i < n, topPWalk n w (uniform K s) = some i ∧ 0 < w i) ∧
        (∃ i < n, plainWalk n w (∑ i ∈ Finset.range n, w i) (uniform K s) = some i ∧ 0 < w i) ↔
        drawBits s ≠ 0 ∨ 0 < w 0) := by
  obtain ⟨i, -, hwalk⟩ := exists_walk_prob s hsum
  have hne : walkFrom (prob n w) (uniform K s) n 0 0 ≠ none := by simp [hwalk]
  rw [topPWalk_eq, plainWalk_eq, and_self_iff, and_self_iff]
  exact ⟨hne, walk_positive_iff s hw hsum⟩

end Masked

theorem maskedFirst_weights :
    let w : ℕ → ℚ := fun i => if i = 0 then 0 else 1
    (∀ i < 2, 0 ≤ w i) ∧ 0 < ∑ i ∈ Finset.range 2, w i := by
  intro w
  constructor
  · intro i _
    simp only [w]
    split_ifs <;> norm_num
  · simp [w, Finset.sum_range_succ]

/-- A generator seeded with 1 draws a number that is not 0, so the masked first token is passed over. -/
theorem walks_positive_seed_one :
    let s := (sampleInit (K := ℚ) 1 1 0 1).rngState
    let w : ℕ → ℚ := fun i => if i = 0 then 0 else 1
    (∀ i < 2, 0 ≤ w i) ∧ 0 < ∑ i ∈ Finset.range 2, w i ∧
      (∃ i < 2, topPWalk 2 w (uniform ℚ s) = some i ∧ 0 < w i) ∧
      ∃ i < 2, plainWalk 2 w (∑ i ∈ Finset.range 2, w i) (uniform ℚ s) = some i ∧ 0 < w i := by
  intro s w
  obtain ⟨hw, hsum⟩ := maskedFirst_weights
  exact ⟨hw, hsum, (walks_positive_iff 2 w s hw hsum).2.mpr (Or.inl (by decide))⟩

/-- A generator seeded with `0x9e3779b97f4a7c15` draws 0, and the masked first token is returned. -/
theorem walks_masked_seed :
    let s := (sampleInit (K := ℚ) 0x9e3779b97f4a7c15 1 0 1).rngState
    let w : ℕ → ℚ := fun i => if i = 0 then 0 else 1
    ((∀ i < 2, 0 ≤ w i) ∧ 0 < ∑ i ∈ Finset.range 2, w i) ∧ w 0 = 0 ∧
      topPWalk 2 w (uniform ℚ s) = some 0 ∧
      plainWalk 2 w (∑ i ∈ Finset.range 2, w i) (uniform ℚ s) = some 0 := by
  intro s w
  obtain ⟨hw, hsum⟩ := maskedFirst_weights
  have hdraw : uniform ℚ s = 0 := (uniform_eq_zero_iff s).mpr (by decide)
  have hwalk : walkFrom (prob 2 w) 0 2 0 0 = some 0 := by
    rw [walkFrom, if_pos]
    simp [prob, w]
  refine ⟨⟨hw, hsum⟩, rfl, ?_, ?_⟩
  · rw [topPWalk_eq, hdraw, hwalk]
  · rw [plainWalk_eq, hdraw, hwalk]

/-! ### The nucleus -/

/-- The probability of the tokens that are strictly more probable than token `t`. -/
def massAbove (p : ℕ → K) (n t : ℕ) : K := ∑ i ∈ (Finset.range n).filter (fun i => p t < p i), p i

/-- The probabilities that `sample_token` draws from: the softmax distribution of the logits after the
temperature and the top-k filter. -/
def tokenProb (expf : K → K) (fltMax : K) (st : SampleState K) (logits buffer : ℕ → K) : ℕ → K :=
  let logits := filterLogits fltMax st logits buffer
  prob st.vocabSize.toNat fun i => expf (logits i - maxVal fltMax st.vocabSize.toNat logits)

/-- The weights of the tokens: the exponentials of the same logits. -/
def tokenWeight (expf : K → K) (fltMax : K) (st : SampleState K) (logits buffer : ℕ → K) : ℕ → K :=
  let logits := filterLogits fltMax st logits buffer
  fun i => expf (logits i - maxVal fltMax st.vocabSize.toNat logits)

section Nucleus

variable {expf : K → K} {fltMax : K} {st : SampleState K} {logits buffer : ℕ → K}

theorem tokenProb_eq : tokenProb expf fltMax st logits buffer =
    prob st.vocabSize.toNat (tokenWeight expf fltMax st logits buffer) := rfl

theorem sampleToken_topP (htopP : 0 < st.topP ∧ st.topP < 1) :
    (sampleToken expf fltMax st logits buffer).1 =
      (walkFrom (tokenProb expf fltMax st logits buffer) (uniform K st.rngState) st.vocabSize.toNat 0
        0).getD (st.vocabSize - 1).toNat := by
  have hbranch : st.topP > 0 ∧ st.topP < 1 := htopP
  rw [sampleToken, if_pos hbranch, topPWalk_eq]
  rfl

omit [LinearOrder K] in
/-- The loop of the plain branch that replaces the logits by their exponentials and sums them up. -/
theorem forRange_exp (n : ℕ) (expf : K → K) (max : K) (logits : ℕ → K) :
    forRange n
        (fun i (acc : (ℕ → K) × K) =>
          (Function.update acc.1 i (expf (acc.1 i - max)), acc.2 + expf (acc.1 i - max))) (logits, 0) =
      (fun j => if j < n then expf (logits j - max) else logits j,
        ∑ i ∈ Finset.range n, expf (logits i - max)) := by
  induction n with
  | zero => simp
  | succ n ih =>
    rw [forRange_succ, ih]
    refine Prod.ext (funext fun j => ?_) ?_
    · dsimp only
      rw [if_neg (lt_irrefl n)]
      by_cases hj : j = n
      · rw [hj, Function.update_self, if_pos (Nat.lt_succ_self n)]
      · have hiff : j < n + 1 ↔ j < n := by omega
        rw [Function.update_of_ne hj]
        simp only [hiff]
    · simp [Finset.sum_range_succ]

/-- The token of the plain branch: it is drawn from the same distribution in the same way. -/
theorem sampleToken_plain (htopP : ¬ (0 < st.topP ∧ st.topP < 1)) :
    (sampleToken expf fltMax st logits buffer).1 =
      (walkFrom (tokenProb expf fltMax st logits buffer) (uniform K st.rngState) st.vocabSize.toNat 0
        0).getD (st.vocabSize - 1).toNat := by
  have hbranch : ¬ (st.topP > 0 ∧ st.topP < 1) := htopP
  have hloop := forRange_exp st.vocabSize.toNat expf
    (maxVal fltMax st.vocabSize.toNat (filterLogits fltMax st logits buffer))
    (filterLogits fltMax st logits buffer)
  rw [sampleToken, if_neg hbranch]
  simp only [hloop, plainWalk]
  congr 1
  refine walkFrom_congr _ _ _ fun k _ hk => ?_
  rw [Nat.zero_add] at hk
  simp only [if_pos hk]
  rfl

/-- The token of a call, on either branch. -/
theorem sampleToken_walk (expf : K → K) (fltMax : K) (st : SampleState K) (logits buffer : ℕ → K) :
    (sampleToken expf fltMax st logits buffer).1 =
      (walkFrom (tokenProb expf fltMax st logits buffer) (uniform K st.rngState) st.vocabSize.toNat 0
        0).getD (st.vocabSize - 1).toNat := by
  by_cases htopP : 0 < st.topP ∧ st.topP < 1
  · exact sampleToken_topP htopP
  · exact sampleToken_plain htopP

/-- `top_p` decides which branch is taken and nothing else: the token is the same for every value of it. -/
theorem sampleToken_topP_unused (topP : K) :
    (sampleToken expf fltMax { st with topP := topP } logits buffer).1 =
      (sampleToken expf fltMax st logits buffer).1 := by
  rw [sampleToken_walk, sampleToken_walk]
  rfl

variable [IsStrictOrderedRing K]

/-- **When a call returns no masked token.** With weights that are not negative and have a positive sum, the
token returned is below the size of the vocabulary on either branch, and its weight is positive exactly if
the 24 bits drawn are not all zero or the first token has positive weight. -/
theorem sampleToken_weight_pos_iff (expf : K → K) (fltMax : K) (st : SampleState K) (logits buffer : ℕ → K)
    (hw : ∀ i < st.vocabSize.toNat, 0 ≤ tokenWeight expf fltMax st logits buffer i)
    (hsum : 0 < ∑ i ∈ Finset.range st.vocabSize.toNat, tokenWeight expf fltMax st logits buffer i) :
    let token := (sampleToken expf fltMax st logits buffer).1
    token < st.vocabSize.toNat ∧
      (0 < tokenWeight expf fltMax st logits buffer token ↔
        drawBits st.rngState ≠ 0 ∨ 0 < tokenWeight expf fltMax st logits buffer 0) := by
  intro token
  obtain ⟨i, hi, hwalk⟩ := exists_walk_prob st.rngState hsum
  have htoken : token = i := by
    simp only [token]
    rw [sampleToken_walk, tokenProb_eq, hwalk, Option.getD_some]
  rw [htoken, ← walk_positive_iff st.rngState hw hsum]
  refine ⟨hi, fun hpos => ⟨i, hi, hwalk, hpos⟩, ?_⟩
  rintro ⟨j, -, hj, hpos⟩
  obtain rfl : i = j := Option.some.inj (hwalk.symm.trans hj)
  exact hpos

/-- **When the token is in the nucleus.** In exact arithmetic with any positive `expf`, for all logits, all
settings with `top_p` strictly between 0 and 1 and every state of the generator: the tokens strictly more
probable than the one returned have a probability of less than `top_p` exactly if the number drawn lies in
the share of no token for which they have not. -/
theorem sampleToken_nucleus_iff (expf : K → K) (hexpf : ∀ x, 0 < expf x) (fltMax : K) (st : SampleState K)
    (logits buffer : ℕ → K) (htopP : 0 < st.topP ∧ st.topP < 1) :
    let p := tokenProb expf fltMax st logits buffer
    let n := st.vocabSize.toNat
    massAbove p n (sampleToken expf fltMax st logits buffer).1 < st.topP ↔
      ∀ i < n, st.topP ≤ massAbove p n i → ¬ InShare p (uniform K st.rngState) i := by
  intro p n
  rw [sampleToken_topP htopP]
  rcases Nat.eq_zero_or_pos n with hzero | hn
  · -- there is no token at all
    have hnone : massAbove p n = fun _ => 0 := by
      funext t
      simp [massAbove, hzero]
    rw [hnone]
    exact iff_of_true htopP.1 fun i hi => absurd hi (by omega)
  · have hw : ∀ i < n, 0 ≤ expf (filterLogits fltMax st logits buffer i -
        maxVal fltMax n (filterLogits fltMax st logits buffer)) := fun i _ => (hexpf _).le
    have hsum : 0 < ∑ i ∈ Finset.range n, expf (filterLogits fltMax st logits buffer i -
        maxVal fltMax n (filterLogits fltMax st logits buffer)) :=
      Finset.sum_pos (fun i _ => hexpf _) ⟨0, Finset.mem_range.mpr hn⟩
    obtain ⟨i, hi, hwalk⟩ := exists_walk_prob st.rngState hsum
    have hshare (j : ℕ) : walkFrom p (uniform K st.rngState) n 0 0 = some j ↔
        j < n ∧ InShare p (uniform K st.rngState) j := walkFrom_eq_some_iff (prob_nonneg hw)
    have hwalk' : walkFrom p (uniform K st.rngState) n 0 0 = some i := hwalk
    rw [hwalk', Option.getD_some]
    constructor
    · intro hmass j hj hout hin
      obtain rfl : i = j := Option.some.inj (hwalk'.symm.trans ((hshare j).mpr ⟨hj, hin⟩))
      exact absurd hmass (not_lt.mpr hout)
    · intro hnone
      by_contra hmass
      exact hnone i hi (not_lt.mp hmass) ((hshare i).mp hwalk').2

end Nucleus

/-- An increasing positive function that takes fractions to fractions. -/
def growth (x : ℚ) : ℚ := if x ≤ 0 then 1 / (1 - x) else 1 + x

theorem growth_pos (x : ℚ) : 0 < growth x := by
  unfold growth
  split_ifs with hx
  · exact one_div_pos.mpr (by linarith)
  · linarith

theorem growth_strictMono : StrictMono growth := by
  intro x y hxy
  unfold growth
  split_ifs with hx hy hy
  · exact one_div_lt_one_div_of_lt (by linarith) (by linarith)
  · have hle : 1 / (1 - x) ≤ 1 := (div_le_one (by linarith)).mpr (by linarith)
    linarith
  · linarith
  · linarith

/-- Two tokens of probabilities 2/3 and 1/3, drawn from with the generator seeded with 1. -/
def twoTokens (topP : ℚ) : SampleState ℚ := { sampleInit 1 0 0 topP with vocabSize := 2 }

def twoLogits (i : ℕ) : ℚ := if i = 0 then 0 else -1

/-- With `top_p = 3/4` both tokens are in the nucleus. -/
theorem sampleToken_nucleus_both :
    let st := twoTokens (3 / 4)
    let p := tokenProb growth 100 st twoLogits fun _ => 0
    (∀ x, 0 < growth x) ∧ (0 < st.topP ∧ st.topP < 1) ∧
      massAbove p 2 (sampleToken growth 100 st twoLogits fun _ => 0).1 < 3 / 4 ∧
      ∀ i < 2, 3 / 4 ≤ massAbove p 2 i → ¬ InShare p (uniform ℚ st.rngState) i := by
  intro st p
  have htopP : 0 < st.topP ∧ st.topP < 1 := by decide +kernel
  have hmass : massAbove p 2 (sampleToken growth 100 st twoLogits fun _ => 0).1 < 3 / 4 := by
    decide +kernel
  exact ⟨growth_pos, htopP, hmass,
    (sampleToken_nucleus_iff growth growth_pos 100 st twoLogits (fun _ => 0) htopP).mp hmass⟩

/-- With `top_p = 1/2` the second token is not in the nucleus, and it is returned. -/
theorem sampleToken_outside_nucleus :
    let st := twoTokens (1 / 2)
    let p := tokenProb growth 100 st twoLogits fun _ => 0
    ((∀ x, 0 < growth x) ∧ StrictMono growth) ∧ (0 < st.topP ∧ st.topP < 1) ∧
      (sampleToken growth 100 st twoLogits fun _ => 0).1 = 1 ∧ massAbove p 2 1 = 2 / 3 ∧
      ¬ massAbove p 2 (sampleToken growth 100 st twoLogits fun _ => 0).1 < st.topP := by
  intro st p
  exact ⟨⟨growth_pos, growth_strictMono⟩, by decide +kernel, by decide +kernel, by decide +kernel,
    by decide +kernel⟩

end Sampling

end RolloutRuntime
