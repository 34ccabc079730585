import RolloutRuntime.Attention.Decode
import Mathlib.Analysis.SpecialFunctions.Log.Basic
import Mathlib.Analysis.Real.Sqrt

/-!
# The decode step and its reference

The test of the decode step compares it with a reference that goes through the tokens twice: once for the
scores and their maximum, and then for the softmax weights and the weighted sum of the values. The maximum
begins with `-1e30`, so it need not be one of the scores; in exact arithmetic it cancels. The step, which
goes through the tokens once and in tiles, has the same output.

## Main definitions

* `Attention.referenceScores`, `Attention.referenceProbs`, `Attention.referenceOut`: the three loops.
* `Attention.referenceDecodeFixed128`: the reference.

## Main results

* `Attention.referenceDecode_outVec`: the output of the reference is the softmax sum.
* `Attention.decode_eq_softmax`: so is that of the step, and its norm is positive from the first tile on.

## References

* `cu/attention_decode.cu` lines 60–162, `test/test_bench.cu` lines 109–155 and 658–736.
-/

namespace RolloutRuntime

open Loops OnlineSoftmax Sampling

namespace Attention

variable {K : Type} [Field K]

section Scores

variable [LinearOrder K]

/-- The first loop of the reference: `scores`, and `max_score` from `-1e30` on. -/
def referenceScores (scale : K) (q kv : ℕ → K) (seqLen : ℕ) (scores : ℕ → K) : (ℕ → K) × K :=
  forRange seqLen
    (fun t s =>
      let score := forRange headDim (fun d sum => sum + q d * kRow kv t d) 0 * scale
      (Function.update s.1 t score, if s.2 < score then score else s.2))
    (scores, -10 ^ 30)

end Scores

/-- The second loop: `probs`, and `denom`. -/
def referenceProbs (expf : K → K) (scores : ℕ → K) (maxScore : K) (seqLen : ℕ) (probs : ℕ → K) :
    (ℕ → K) × K :=
  forRange seqLen
    (fun t s =>
      let prob := expf (scores t - maxScore)
      (Function.update s.1 t prob, s.2 + prob))
    (probs, 0)

/-- The last loops: the output is cleared, and the values are added with their weights. -/
def referenceOut (probs : ℕ → K) (denom : K) (kv : ℕ → K) (seqLen : ℕ) (out : ℕ → K) : ℕ → K :=
  forRange seqLen
    (fun t out => forRange headDim
      (fun d out => Function.update out d (out d + probs t / denom * vRow kv t d)) out)
    (forRange headDim (fun d out => Function.update out d 0) out)

theorem referenceProbs_apply (expf : K → K) (scores : ℕ → K) (maxScore : K) (seqLen : ℕ) (probs : ℕ → K) :
    (∀ t < seqLen, (referenceProbs expf scores maxScore seqLen probs).1 t = expf (scores t - maxScore)) ∧
      (referenceProbs expf scores maxScore seqLen probs).2 =
        ∑ t ∈ Finset.range seqLen, expf (scores t - maxScore) := by
  refine forRange_induct (fun n (s : (ℕ → K) × K) => (∀ t < n, s.1 t = expf (scores t - maxScore)) ∧
    s.2 = ∑ t ∈ Finset.range n, expf (scores t - maxScore)) ?_ ?_
  · exact ⟨fun t ht => absurd ht (Nat.not_lt_zero t), rfl⟩
  · rintro n - s ⟨ih, hsum⟩
    refine ⟨fun t ht => ?_, ?_⟩
    · dsimp only
      rcases Nat.lt_succ_iff_lt_or_eq.mp ht with hlt | rfl
      · rw [Function.update_of_ne hlt.ne, ih t hlt]
      · rw [Function.update_self]
    · rw [Finset.sum_range_succ, ← hsum]

theorem referenceOut_apply (probs : ℕ → K) (denom : K) (kv : ℕ → K) (seqLen : ℕ) (out : ℕ → K) {d : ℕ}
    (hd : d < headDim) :
    referenceOut probs denom kv seqLen out d =
      ∑ t ∈ Finset.range seqLen, probs t / denom * vRow kv t d := by
  refine forRange_induct
    (fun n (out : ℕ → K) => out d = ∑ t ∈ Finset.range n, probs t / denom * vRow kv t d) ?_ ?_
  · rw [forRange_update headDim fun _ _ => (0 : K), if_pos hd]
    rfl
  · intro n _ out ih
    rw [forRange_update headDim fun d x => x + probs n / denom * vRow kv n d, if_pos hd, ih,
      Finset.sum_range_succ]

variable [LinearOrder K]

/-- `reference_decode_fixed128`: the output and the token. The three arrays are what the memory holds
before. -/
def referenceDecodeFixed128 (expf : K → K) (scale : K) (q kv : ℕ → K) (seqLen : BitVec 32)
    (scores probs out : ℕ → K) : (ℕ → K) × ℕ :=
  let seqLen := clampSeqLen seqLen
  let (scores, maxScore) := referenceScores scale q kv seqLen scores
  let (probs, denom) := referenceProbs expf scores maxScore seqLen probs
  let denom := if denom = 0 then 1 else denom
  let out := referenceOut probs denom kv seqLen out
  (out, referenceTokenId out)

theorem referenceScores_apply (scale : K) (q kv : ℕ → K) (seqLen : ℕ) (scores : ℕ → K) :
    ∀ t < seqLen, (referenceScores scale q kv seqLen scores).1 t = dot q kv t * scale := by
  refine forRange_induct (fun n (s : (ℕ → K) × K) => ∀ t < n, s.1 t = dot q kv t * scale)
    (fun t ht => absurd ht (Nat.not_lt_zero t)) ?_
  intro n _ s ih t ht
  simp only [forRange_add, zero_add]
  rcases Nat.lt_succ_iff_lt_or_eq.mp ht with hlt | rfl
  · rw [Function.update_of_ne hlt.ne, ih t hlt]
  · rw [Function.update_self]
    rfl

variable [IsStrictOrderedRing K]

/-- **The output of the reference.** -/
theorem referenceDecode_outVec (e : Exponential K) (scale : K) (q kv : ℕ → K) {seqLen : BitVec 32}
    (hseq : seqLen ≠ 0) (scores probs out : ℕ → K) {d : ℕ} (hd : d < headDim) :
    (referenceDecodeFixed128 e scale q kv seqLen scores probs out).1 d =
      softmaxSum e (fun t => dot q kv t * scale) (vRow kv) (clampSeqLen seqLen) d := by
  have hpos := clampSeqLen_pos hseq
  simp only [referenceDecodeFixed128]
  rw [referenceOut_apply _ _ _ _ _ hd]
  have hscore := referenceScores_apply scale q kv (clampSeqLen seqLen) scores
  generalize referenceScores scale q kv (clampSeqLen seqLen) scores = s at hscore ⊢
  generalize clampSeqLen seqLen = n at hpos hscore ⊢
  obtain ⟨hprob, hdenom⟩ := referenceProbs_apply e s.1 s.2 n probs
  have hne : (referenceProbs e s.1 s.2 n probs).2 ≠ 0 := by
    rw [hdenom]
    exact (sum_exp_pos hpos _).ne'
  have hshift : ∀ t ∈ Finset.range n, e (s.1 t - s.2) = e (dot q kv t * scale - s.2) := fun t ht => by
    rw [hscore t (Finset.mem_range.mp ht)]
  have hweight : ∀ t ∈ Finset.range n,
      (referenceProbs e s.1 s.2 n probs).1 t / (referenceProbs e s.1 s.2 n probs).2 * vRow kv t d =
        e (dot q kv t * scale - s.2) * vRow kv t d /
          ∑ t ∈ Finset.range n, e (dot q kv t * scale - s.2) := by
    intro t ht
    rw [hprob t (Finset.mem_range.mp ht), hdenom, hshift t ht, Finset.sum_congr rfl hshift,
      div_mul_eq_mul_div]
  rw [if_neg hne, Finset.sum_congr rfl hweight, ← Finset.sum_div]
  exact shifted_div_eq_softmaxSum e _ (vRow kv) n s.2 d

/-- For every query, block and `seq_len`, the output of the step is the sum of the values of the first
tokens weighted by the softmax of `q · K_t / sqrt 128`, which is what the reference computes; and the norm
is positive after each tile, so that it is what the output is divided by. -/
theorem decode_eq_softmax (e : Exponential ℝ) (desc : Descriptor) (args : Option (DecodeStepArgs ℝ))
    (kv : ℕ → ℝ) (sampleSt : Option (SampleState ℝ)) (scratch : DecodeWarpScratch ℝ)
    (scores probs out : ℕ → ℝ) :
    let q := queryComponent desc args sampleSt
    let n := effectiveSeqLen args
    let scale := 1 / √(headDim : ℝ)
    (∀ d : Fin headDim,
      (attentionDecodeStepFixed128 e scale desc args kv sampleSt scratch).outVec d =
          ∑ t ∈ Finset.range n,
            softmax e (fun t => (∑ i ∈ Finset.range headDim, q i * kRow kv t i) / √(headDim : ℝ)) n t *
              vRow kv t d ∧
        (attentionDecodeStepFixed128 e scale desc args kv sampleSt scratch).outVec d =
          (referenceDecodeFixed128 e scale q kv (requestedSeqLen args) scores probs out).1 d) ∧
      ∀ k, 0 < k → k ≤ strides 0 n tileTokens →
        0 < (tiles e scale (decodeLoadQuery scratch.qVec desc args sampleSt) kv n k
          (decodeStart scratch)).runningNorm := by
  intro q n scale
  refine ⟨fun d => ?_, fun k hpos hk => tiles_runningNorm_pos e scale _ kv n scratch hk hpos⟩
  have hout := decode_outVec e scale desc args kv sampleSt scratch d.isLt
  have hscores : (fun t => dot q kv t * scale) =
      fun t => (∑ i ∈ Finset.range headDim, q i * kRow kv t i) / √(headDim : ℝ) := by
    funext t
    rw [dot, mul_one_div]
  constructor
  · rw [hout, ← hscores]
    rfl
  · rw [hout, referenceDecode_outVec e scale q kv (requestedSeqLen_ne_zero args) scores probs out d.isLt]
    rfl

/-- The exponential function of the reals. -/
noncomputable def realExp : Exponential ℝ := ⟨Real.exp, Real.exp_pos, Real.exp_add⟩

/-- A query and a block in which the first token has the score `log 2` and the others 0. -/
noncomputable def oneHeavyQuery (i : ℕ) : ℝ := if i = 0 then √(headDim : ℝ) * Real.log 2 else 0

noncomputable def oneHeavyBlock (i : ℕ) : ℝ :=
  if i = 0 then 1 else ((i - tokensPerBlock * headDim : ℕ) : ℝ)

theorem oneHeavy_score {t : ℕ} (ht : t < 31) :
    (∑ i ∈ Finset.range headDim, oneHeavyQuery i * kRow oneHeavyBlock t i) / √(headDim : ℝ) =
      if t = 0 then Real.log 2 else 0 := by
  have hfirst : ∑ i ∈ Finset.range headDim, oneHeavyQuery i * kRow oneHeavyBlock t i =
      oneHeavyQuery 0 * kRow oneHeavyBlock t 0 := by
    refine Finset.sum_eq_single 0 (fun i _ hi => ?_) fun h => absurd (Finset.mem_range.mpr (by decide)) h
    rw [oneHeavyQuery, if_neg hi, zero_mul]
  have hroot : √(headDim : ℝ) ≠ 0 := by simp [headDim]
  rw [hfirst, oneHeavyQuery, if_pos rfl, kRow, oneHeavyBlock]
  split_ifs with hindex ht0
  · rw [mul_one, mul_div_cancel_left₀ _ hroot]
  · exact absurd ((Nat.mul_eq_zero.mp hindex).resolve_right (by decide)) ht0
  · exact absurd (by rw [‹t = 0›, Nat.zero_mul]) hindex
  · have hkey : t * headDim + 0 - tokensPerBlock * headDim = 0 := by
      simp only [headDim, tokensPerBlock]
      omega
    rw [hkey, Nat.cast_zero, mul_zero, zero_div]

/-- Over 31 tokens, which are two tiles, the first token counts twice. -/
theorem decode_eq_softmax_oneHeavy :
    (attentionDecodeStepFixed128 realExp (1 / √(headDim : ℝ)) default
      (some ⟨some oneHeavyQuery, none, 31⟩) oneHeavyBlock none
      ⟨fun _ => 0, fun _ => 0, fun _ => 0⟩).outVec 5 = 1865 := by
  have h := decode_eq_softmax realExp default (some ⟨some oneHeavyQuery, none, 31⟩) oneHeavyBlock none
    ⟨fun _ => 0, fun _ => 0, fun _ => 0⟩ (fun _ => 0) (fun _ => 0) (fun _ => 0)
  have hlen : effectiveSeqLen (some (⟨some oneHeavyQuery, none, 31⟩ : DecodeStepArgs ℝ)) = 31 := by
    simp [effectiveSeqLen, requestedSeqLen, clampSeqLen, tokensPerBlock]
  have hweight : ∀ t ∈ Finset.range 31, realExp ((∑ i ∈ Finset.range headDim,
      oneHeavyQuery i * kRow oneHeavyBlock t i) / √(headDim : ℝ)) = if t = 0 then 2 else 1 := by
    intro t ht
    rw [oneHeavy_score (Finset.mem_range.mp ht), apply_ite realExp]
    congr 1
    · exact Real.exp_log (by norm_num)
    · exact Real.exp_zero
  calc _ = ∑ t ∈ Finset.range 31, softmax realExp (fun t => (∑ i ∈ Finset.range headDim,
        oneHeavyQuery i * kRow oneHeavyBlock t i) / √(headDim : ℝ)) 31 t * vRow oneHeavyBlock t 5 := by
        rw [← hlen]
        exact (h.1 (5 : Fin 128)).1
    _ = ∑ t ∈ Finset.range 31, (if t = 0 then (2 : ℝ) else 1) / 32 * ((t * 128 + 5 : ℕ) : ℝ) := by
        refine Finset.sum_congr rfl fun t ht => ?_
        have hvalue : tokensPerBlock * headDim + (t * headDim + 5) ≠ 0 := by
          simp [tokensPerBlock, headDim]
        rw [softmax, hweight t ht, Finset.sum_congr rfl hweight, vRow, oneHeavyBlock, if_neg hvalue,
          Nat.add_sub_cancel_left, headDim]
        norm_num [Finset.sum_range_succ]
    _ = 1865 := by norm_num [Finset.sum_range_succ]

end Attention

end RolloutRuntime
