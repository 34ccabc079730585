import RolloutRuntime.Loops.FirstMax

/-!
# The token of a decode step

A decode step returns the index of the largest of its 128 outputs. The warp looks for it in two levels: each
lane scans its own outputs, every thirty-second one from its own number on, and lane 0 then scans the 32
winners. Both scans change to a later value only if it is larger. The reference scans the outputs in their
order.

Both find a largest output. Among several, the reference returns the one with the least index, and the warp
the one of the first lane, the least remainder modulo 32.

## Main definitions

* `Attention.laneBest`, `Attention.decodeTokenId`: the two scans of the warp.
* `Attention.referenceTokenId`: the scan of the reference.
* `Attention.LargestAt`: an output that no other exceeds.

## Main results

* `Attention.decodeTokenId_largest`: what the warp returns.
* `Attention.decodeTokenId_eq_reference_iff`: when it is what the reference returns.

## References

* `cu/attention_decode.cu` lines 171–194, `test/test_bench.cu` lines 150–155 and 716–719.
-/

namespace RolloutRuntime

open Loops

namespace Attention

variable {α : Type} [LinearOrder α]

/-- `DECODE_FIXED_HEAD_DIM`. -/
def headDim : ℕ := 128

/-- The lanes of a warp. -/
def warpSize : ℕ := 32

/-- The scan of one lane: `lane_best` and `lane_best_idx`. It begins with `-CUDART_INF_F`. -/
def laneBest (out : ℕ → α) (lane : ℕ) : WithBot α × ℕ :=
  forStride lane headDim warpSize
    (fun d best => if best.1 < (out d : WithBot α) then ((out d : WithBot α), d) else best) (⊥, 0)

/-- The scan of lane 0 over `best_vals` and `best_idx`: the `token_id`. -/
def decodeTokenId (out : ℕ → α) : ℕ :=
  (forRange (warpSize - 1)
    (fun i best =>
      if best.1 < (laneBest out (i + 1)).1 then ((laneBest out (i + 1)).1, (laneBest out (i + 1)).2)
      else best)
    ((laneBest out 0).1, (laneBest out 0).2)).2

/-- The `token_id` of `reference_decode_fixed128`. -/
def referenceTokenId (out : ℕ → α) : ℕ :=
  forRange (headDim - 1) (fun i token => if out token < out (i + 1) then i + 1 else token) 0

/-- No other output is larger than output `d`. -/
def LargestAt (out : ℕ → α) (d : ℕ) : Prop := d < headDim ∧ ∀ d' < headDim, out d' ≤ out d

variable {out : ℕ → α}

theorem laneBest_isFirstMax (out : ℕ → α) {lane : ℕ} (hlane : lane < warpSize) :
    ∃ k, IsFirstMax (fun k => out (lane + k * warpSize)) 4 k ∧
      laneBest out lane = ((out (lane + k * warpSize) : WithBot α), lane + k * warpSize) := by
  have hcount : strides lane headDim warpSize = 3 + 1 := by
    simp only [strides, headDim, warpSize] at hlane ⊢
    omega
  rw [laneBest, forStride, hcount]
  exact forRange_firstMax_bot (fun k => out (lane + k * warpSize)) (fun k => lane + k * warpSize) 3 0

theorem exists_lane {d : ℕ} (hd : d < headDim) : ∃ k < 4, d = d % warpSize + k * warpSize := by
  refine ⟨d / warpSize, ?_, ?_⟩
  · simp only [headDim, warpSize] at hd ⊢
    omega
  · rw [Nat.mul_comm]
    exact (Nat.mod_add_div d warpSize).symm

theorem lane_add_lt {lane k : ℕ} (hlane : lane < warpSize) (hk : k < 4) :
    lane + k * warpSize < headDim := by
  simp only [headDim, warpSize] at hlane ⊢
  omega

theorem le_laneBest (out : ℕ → α) {d : ℕ} (hd : d < headDim) :
    (out d : WithBot α) ≤ (laneBest out (d % warpSize)).1 := by
  obtain ⟨k, hk, hdk⟩ := exists_lane hd
  obtain ⟨i, ⟨-, hmax, -⟩, hbest⟩ := laneBest_isFirstMax out (Nat.mod_lt d (by decide : 0 < warpSize))
  have hle : out (d % warpSize + k * warpSize) ≤ out (d % warpSize + i * warpSize) := hmax k hk
  rw [← hdk] at hle
  rw [hbest, WithBot.coe_le_coe]
  exact hle

/-- The token is the winner of the first lane that has a largest one. -/
theorem decodeTokenId_isFirstMax (out : ℕ → α) :
    ∃ lane, IsFirstMax (fun i => (laneBest out i).1) warpSize lane ∧
      decodeTokenId out = (laneBest out lane).2 := by
  obtain ⟨lane, hlane, hscan⟩ :=
    forRange_firstMax (fun i => (laneBest out i).1) (fun i => (laneBest out i).2) (warpSize - 1)
  refine ⟨lane, hlane, ?_⟩
  rw [decodeTokenId, hscan]

/-- **What the warp returns**: a largest output, with the least remainder modulo 32 of all of these, and the
first of those with this remainder. -/
theorem decodeTokenId_largest (out : ℕ → α) :
    LargestAt out (decodeTokenId out) ∧
      ∀ d, LargestAt out d → decodeTokenId out % warpSize ≤ d % warpSize ∧
        (d % warpSize = decodeTokenId out % warpSize → decodeTokenId out ≤ d) := by
  obtain ⟨lane, ⟨hlane, hmax, hfirst⟩, htoken⟩ := decodeTokenId_isFirstMax out
  obtain ⟨k, hkfirst, hbest⟩ := laneBest_isFirstMax out hlane
  have hlt := lane_add_lt hlane hkfirst.1
  have hmod : (lane + k * warpSize) % warpSize = lane := by
    rw [Nat.add_mul_mod_self_right, Nat.mod_eq_of_lt hlane]
  rw [htoken, hbest, hmod]
  simp only [hbest] at hmax hfirst
  refine ⟨⟨hlt, fun d hd => ?_⟩, fun d ⟨hd, hdmax⟩ => ⟨?_, fun hres => ?_⟩⟩
  · have hle := (le_laneBest out hd).trans (hmax _ (Nat.mod_lt d (by decide)))
    exact WithBot.coe_le_coe.mp hle
  · -- the outputs of an earlier lane are all smaller
    by_contra hearlier
    have hsmall := (le_laneBest out hd).trans_lt (hfirst _ (Nat.lt_of_not_le hearlier))
    exact absurd (hdmax _ hlt) (not_le.mpr (WithBot.coe_lt_coe.mp hsmall))
  · obtain ⟨i, hi, hdi⟩ := exists_lane hd
    rw [hres] at hdi
    have hle : k ≤ i := by
      refine hkfirst.le ?_
      rw [← hdi]
      exact hdmax _ hlt
    rw [hdi]
    exact Nat.add_le_add_left (Nat.mul_le_mul_right _ hle) _

theorem referenceTokenId_isFirstMax (out : ℕ → α) : IsFirstMax out headDim (referenceTokenId out) :=
  forRange_firstMax_index out (headDim - 1)

/-- The reference returns the least index of a largest output. -/
theorem referenceTokenId_least (out : ℕ → α) :
    LargestAt out (referenceTokenId out) ∧ ∀ d, LargestAt out d → referenceTokenId out ≤ d := by
  have h := referenceTokenId_isFirstMax out
  exact ⟨⟨h.1, h.2.1⟩, fun d hd => h.le (hd.2 _ h.1)⟩

/-- The token of the warp is that of the reference, the least index of a largest output, if and only if the
least index of a largest output has the least remainder modulo 32 of all of them. -/
theorem decodeTokenId_eq_reference_iff (out : ℕ → α) :
    (decodeTokenId out = referenceTokenId out ∧ LargestAt out (decodeTokenId out) ∧
      ∀ d, LargestAt out d → decodeTokenId out ≤ d) ↔
    ∀ d d', LargestAt out d → (∀ c, LargestAt out c → d ≤ c) → LargestAt out d' →
      d % warpSize ≤ d' % warpSize := by
  obtain ⟨hlargest, hleast⟩ := decodeTokenId_largest out
  obtain ⟨hreference, hfirst⟩ := referenceTokenId_least out
  constructor
  · rintro ⟨heq, -, hle⟩ d d' hd hdle hd'
    have hdtoken : d = decodeTokenId out := le_antisymm (hdle _ hlargest) (hle d hd)
    rw [hdtoken]
    exact (hleast d' hd').1
  · intro hres
    have heq : decodeTokenId out = referenceTokenId out := by
      refine le_antisymm ?_ (hfirst _ hlargest)
      refine (hleast _ hreference).2 (le_antisymm ?_ (hleast _ hreference).1)
      exact hres _ _ hreference hfirst hlargest
    refine ⟨heq, hlargest, fun d hd => ?_⟩
    rw [heq]
    exact hfirst d hd

/-- Outputs 1 and 32 are both the largest: the reference takes the first of them, and the warp the one of
lane 0. -/
theorem decodeTokenId_tie :
    let out : ℕ → ℕ := fun d => if d = 1 ∨ d = 32 then 1 else 0
    decodeTokenId out = 32 ∧ referenceTokenId out = 1 := by
  intro out
  have hlargest : ∀ d, LargestAt out d ↔ d = 1 ∨ d = 32 := by
    intro d
    constructor
    · rintro ⟨-, hmax⟩
      by_contra hne
      have hle := hmax 1 (by decide)
      simp only [out, true_or, if_true, if_neg hne] at hle
      omega
    · intro hd
      refine ⟨?_, fun d' _ => ?_⟩
      · rcases hd with rfl | rfl <;> decide
      · simp only [out, if_pos hd]
        split_ifs <;> omega
  constructor
  · obtain ⟨htoken, hleast⟩ := decodeTokenId_largest out
    have hres := (hleast 32 ((hlargest 32).mpr (Or.inr rfl))).1
    rcases (hlargest _).mp htoken with h | h
    · rw [h] at hres
      exact absurd hres (by decide)
    · exact h
  · obtain ⟨htoken, hleast⟩ := referenceTokenId_least out
    have hle := hleast 1 ((hlargest 1).mpr (Or.inl rfl))
    rcases (hlargest _).mp htoken with h | h <;> omega

end Attention

end RolloutRuntime
