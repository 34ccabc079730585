import RolloutRuntime.Loops.Counted
import Mathlib.Order.Basic
import Mathlib.Order.Lattice
import Mathlib.Data.Nat.Count

/-!
# The top-k filter

The filter finds the `k`-th largest logit with a buffer of `k` thresholds in decreasing order: each logit
is inserted before the first threshold below it, and the last threshold drops out. Logits below the last
threshold are masked at the end. The buffer has 256 places, so for a larger `k` the filter keeps the
largest 256.

The logits are read over any linear order; `lowest` is `-FLT_MAX`.

## Main definitions

* `Sampling.insertThreshold`, `Sampling.topThresholds`: the buffer.
* `Sampling.topKFilter`: the filter of `sample_token`.
* `Sampling.Ranks`: the buffer holds the largest logits seen.

## Main results

* `Sampling.insertThreshold_cases`: what an insertion does.
* `Sampling.topThresholds_ranks`: the buffer after all logits.
* `Sampling.topKFilter_unmasked_iff`: which logits are kept.

## References

* `cu/sample.cu` lines 49–75, `include/sample.h` lines 11–20.
-/

namespace RolloutRuntime

open Loops

namespace Sampling

variable {α : Type} [LinearOrder α]

/-! ### The filter -/

/-- The number of thresholds the buffer has room for. -/
def maxThresholds : ℕ := 256

/-- `for (k = nk - 1; k > j; k--) thresholds[k] = thresholds[k - 1]`. -/
def shiftDown (nk j : ℕ) (thresholds : ℕ → α) : ℕ → α :=
  forRange (nk - 1 - j)
    (fun m thresholds => Function.update thresholds (nk - 1 - m) (thresholds (nk - 1 - m - 1))) thresholds

/-- The loop that inserts `v` into the buffer, from index `j` on with `m` indices to go. -/
def insertFrom (nk : ℕ) (v : α) (thresholds : ℕ → α) : ℕ → ℕ → ℕ → α
  | 0, _ => thresholds
  | m + 1, j =>
    if v > thresholds j then Function.update (shiftDown nk j thresholds) j v
    else insertFrom nk v thresholds m (j + 1)

/-- The insertion of one logit into the buffer. -/
def insertThreshold (nk : ℕ) (v : α) (thresholds : ℕ → α) : ℕ → α := insertFrom nk v thresholds nk 0

/-- The buffer after all logits; what it held before does not matter. -/
def topThresholds (lowest : α) (vocabSize nk : ℕ) (logits buffer : ℕ → α) : ℕ → α :=
  let thresholds := forRange nk (fun i thresholds => Function.update thresholds i lowest) buffer
  forRange vocabSize (fun i thresholds => insertThreshold nk (logits i) thresholds) thresholds

/-- The top-k filter of `sample_token`. The buffer starts with anything in it. -/
def topKFilter (lowest : α) (vocabSize topK : ℕ) (logits buffer : ℕ → α) : ℕ → α :=
  if topK > 0 ∧ topK < vocabSize then
    let nk := if topK < maxThresholds then topK else maxThresholds
    let cutoff := topThresholds lowest vocabSize nk logits buffer (nk - 1)
    forRange vocabSize
      (fun i logits => Function.update logits i (if logits i < cutoff then lowest else logits i)) logits
  else logits

/-! ### One insertion -/

section Insertion

variable {nk j k : ℕ} {v : α} {thresholds : ℕ → α}

omit [LinearOrder α] in
theorem shiftDown_apply (hj : j < nk) (thresholds : ℕ → α) (k : ℕ) :
    shiftDown nk j thresholds k = if j < k ∧ k < nk then thresholds (k - 1) else thresholds k := by
  -- after `m` iterations the indices from `nk - m` on are shifted
  have hloop : ∀ m ≤ nk - 1 - j, ∀ k, forRange m
      (fun m thresholds => Function.update thresholds (nk - 1 - m) (thresholds (nk - 1 - m - 1)))
      thresholds k = if nk - 1 - m < k ∧ k < nk then thresholds (k - 1) else thresholds k := by
    intro m
    induction m with
    | zero =>
      intro _ k
      rw [forRange_zero, if_neg (by omega)]
    | succ m ih =>
      intro hm k
      rw [forRange_succ]
      by_cases hk : k = nk - 1 - m
      · subst hk
        rw [Function.update_self, ih (by omega), if_neg (by omega), if_pos (by omega)]
      · have hiff : nk - 1 - (m + 1) < k ∧ k < nk ↔ nk - 1 - m < k ∧ k < nk := by omega
        rw [Function.update_of_ne hk, ih (by omega)]
        simp only [hiff]
  have hiff : nk - 1 - (nk - 1 - j) < k ∧ k < nk ↔ j < k ∧ k < nk := by omega
  rw [shiftDown, hloop _ le_rfl]
  simp only [hiff]

/-- **One insertion.** Either no threshold is below `v` and the buffer stays, or `v` goes to the first index
with a threshold below it, and the thresholds from there on move down by one. -/
theorem insertThreshold_cases (nk : ℕ) (v : α) (thresholds : ℕ → α) :
    (insertThreshold nk v thresholds = thresholds ∧ ∀ k < nk, v ≤ thresholds k) ∨
      ∃ p < nk, thresholds p < v ∧ (∀ k < p, v ≤ thresholds k) ∧ ∀ k, insertThreshold nk v thresholds k =
        if k = p then v else if p < k ∧ k < nk then thresholds (k - 1) else thresholds k := by
  have hloop : ∀ m j, j + m = nk → (∀ k < j, v ≤ thresholds k) →
      (insertFrom nk v thresholds m j = thresholds ∧ ∀ k < nk, v ≤ thresholds k) ∨
        ∃ p < nk, thresholds p < v ∧ (∀ k < p, v ≤ thresholds k) ∧
          ∀ k, insertFrom nk v thresholds m j k =
            if k = p then v else if p < k ∧ k < nk then thresholds (k - 1) else thresholds k := by
    intro m
    induction m with
    | zero =>
      intro j hj hle
      obtain rfl : j = nk := hj
      exact Or.inl ⟨rfl, hle⟩
    | succ m ih =>
      intro j hj hle
      rw [insertFrom]
      by_cases hlt : v > thresholds j
      · rw [if_pos hlt]
        refine Or.inr ⟨j, by omega, hlt, hle, fun k => ?_⟩
        by_cases hk : k = j
        · rw [hk, Function.update_self, if_pos rfl]
        · rw [Function.update_of_ne hk, if_neg hk, shiftDown_apply (by omega)]
      · rw [if_neg hlt]
        refine ih (j + 1) (by omega) fun k hk => ?_
        rcases Nat.lt_succ_iff_lt_or_eq.mp hk with hk | rfl
        · exact hle k hk
        · exact not_lt.mp hlt
  exact hloop nk 0 (by omega) fun k hk => absurd hk (Nat.not_lt_zero k)

end Insertion

/-! ### The buffer -/

/-- The thresholds are the largest of the first `n` logits, in decreasing order: `a` is below the threshold
number `j` exactly if it is below more than `j` logits. -/
structure Ranks (lowest : α) (nk : ℕ) (logits : ℕ → α) (n : ℕ) (thresholds : ℕ → α) : Prop where
  lowest_le : ∀ j < nk, lowest ≤ thresholds j
  lt_iff : ∀ j < nk, ∀ a, lowest ≤ a → (a < thresholds j ↔ j < Nat.count (fun i => a < logits i) n)

section Buffer

variable {lowest : α} {nk n : ℕ} {logits thresholds : ℕ → α}

/-- No more than `p` logits are above what the threshold number `p` does not exceed. -/
theorem Ranks.count_le (h : Ranks lowest nk logits n thresholds) {p : ℕ} (hp : p < nk) {a : α}
    (ha : lowest ≤ a) (hle : thresholds p ≤ a) : Nat.count (fun i => a < logits i) n ≤ p :=
  not_lt.mp ((h.lt_iff p hp a ha).not.mp (not_lt.mpr hle))

/-- At least `p` logits are above what is below the first `p` thresholds. -/
theorem Ranks.le_count (h : Ranks lowest nk logits n thresholds) {p : ℕ} (hp : p ≤ nk) {a : α}
    (ha : lowest ≤ a) (hlt : ∀ k < p, a < thresholds k) : p ≤ Nat.count (fun i => a < logits i) n := by
  rcases Nat.eq_zero_or_pos p with rfl | hpos
  · exact Nat.zero_le _
  · have hprev := (h.lt_iff (p - 1) (by omega) a ha).mp (hlt (p - 1) (by omega))
    omega

theorem Ranks.insert_none (h : Ranks lowest nk logits n thresholds) (hle : ∀ k < nk, logits n ≤ thresholds k) :
    Ranks lowest nk logits (n + 1) thresholds := by
  refine ⟨h.lowest_le, fun j hj a ha => ?_⟩
  have hiff := h.lt_iff j hj a ha
  rw [Nat.count_succ, hiff]
  split_ifs with hav
  · have hcount := hiff.mp (hav.trans_le (hle j hj))
    omega
  · rfl

theorem Ranks.insert_at {thresholds' : ℕ → α} (h : Ranks lowest nk logits n thresholds)
    (hn : lowest < logits n) {p : ℕ} (hp : p < nk) (hlt : thresholds p < logits n)
    (hle : ∀ k < p, logits n ≤ thresholds k)
    (heq : ∀ k, thresholds' k =
      if k = p then logits n else if p < k ∧ k < nk then thresholds (k - 1) else thresholds k) :
    Ranks lowest nk logits (n + 1) thresholds' := by
  refine ⟨fun j hj => ?_, fun j hj a ha => ?_⟩
  · rw [heq]
    split_ifs with hjp hshift
    · exact hn.le
    · exact h.lowest_le _ (by omega)
    · exact h.lowest_le j hj
  · -- how many logits are above `a`, as against the index of the new one
    have hlow : ¬ a < logits n → Nat.count (fun i => a < logits i) n ≤ p := fun hav =>
      h.count_le hp ha (hlt.le.trans (not_lt.mp hav))
    have hhigh : a < logits n → p ≤ Nat.count (fun i => a < logits i) n := fun hav =>
      h.le_count hp.le ha fun k hk => hav.trans_le (hle k hk)
    rw [heq, Nat.count_succ]
    rcases lt_trichotomy j p with hjp | rfl | hpj
    · rw [if_neg hjp.ne, if_neg (by omega), h.lt_iff j hj a ha]
      split_ifs with hav
      · have hcount := hhigh hav
        omega
      · rfl
    · rw [if_pos rfl]
      split_ifs with hav
      · exact iff_of_true hav (Nat.lt_succ_of_le (hhigh hav))
      · exact iff_of_false hav (Nat.not_lt.mpr (hlow hav))
    · rw [if_neg hpj.ne', if_pos ⟨hpj, hj⟩, h.lt_iff (j - 1) (by omega) a ha]
      split_ifs with hav
      · omega
      · have hcount := hlow hav
        omega

theorem Ranks.insert (h : Ranks lowest nk logits n thresholds) (hn : lowest < logits n) :
    Ranks lowest nk logits (n + 1) (insertThreshold nk (logits n) thresholds) := by
  rcases insertThreshold_cases nk (logits n) thresholds with ⟨heq, hle⟩ | ⟨p, hp, hlt, hle, heq⟩
  · rw [heq]
    exact h.insert_none hle
  · exact h.insert_at hn hp hlt hle heq

/-- **The buffer after all logits.** -/
theorem topThresholds_ranks (vocabSize : ℕ) (buffer : ℕ → α) (hlogits : ∀ i < vocabSize, lowest < logits i) :
    Ranks lowest nk logits vocabSize (topThresholds lowest vocabSize nk logits buffer) := by
  refine forRange_induct (fun n thresholds => Ranks lowest nk logits n thresholds) ?_ ?_
  · have hinit (j : ℕ) (hj : j < nk) :
        forRange nk (fun i thresholds => Function.update thresholds i lowest) buffer j = lowest := by
      rw [forRange_update nk (fun _ _ => lowest), if_pos hj]
    refine ⟨fun j hj => (hinit j hj).ge, fun j hj a ha => ?_⟩
    rw [hinit j hj, Nat.count_zero]
    exact iff_of_false (not_lt.mpr ha) (Nat.not_lt_zero j)
  · exact fun i hi thresholds h => h.insert (hlogits i hi)

end Buffer

/-- The filter, entry by entry. -/
theorem topKFilter_apply {lowest : α} {vocabSize topK : ℕ} {logits buffer : ℕ → α} (hpos : 0 < topK)
    (hlt : topK < vocabSize) (hlogits : ∀ i < vocabSize, lowest < logits i) {i : ℕ} (hi : i < vocabSize) :
    topKFilter lowest vocabSize topK logits buffer i =
      if Nat.count (fun j => logits i < logits j) vocabSize < min topK 256 then logits i else lowest := by
  set nk := if topK < maxThresholds then topK else maxThresholds with hnk
  have hmin : nk = min topK 256 := by
    rw [hnk, maxThresholds]
    split_ifs <;> omega
  have hranks : Ranks lowest nk logits vocabSize (topThresholds lowest vocabSize nk logits buffer) :=
    topThresholds_ranks vocabSize buffer hlogits
  have hcut := hranks.lt_iff (nk - 1) (by omega) (logits i) (hlogits i hi).le
  have hfilter : topKFilter lowest vocabSize topK logits buffer i =
      if logits i < topThresholds lowest vocabSize nk logits buffer (nk - 1) then lowest else logits i := by
    rw [topKFilter, if_pos ⟨hpos, hlt⟩]
    exact (forRange_update vocabSize (fun _ x => if x < _ then lowest else x) logits i).trans (if_pos hi)
  rw [hfilter, ← hmin]
  by_cases hmask : logits i < topThresholds lowest vocabSize nk logits buffer (nk - 1)
  · have hcount := hcut.mp hmask
    rw [if_pos hmask, if_neg (by omega)]
  · have hcount := hcut.not.mp hmask
    rw [if_neg hmask, if_pos (by omega)]

/-- **Which logits are kept.** For every vocabulary and every `k` that the filter applies to, and all logits
above `lowest`: the filter leaves an entry unmasked exactly if fewer than `min k 256` entries are strictly
greater, and then leaves it as it is. -/
theorem topKFilter_unmasked_iff (lowest : α) (vocabSize : ℕ) (topK : BitVec 16) (logits buffer : ℕ → α)
    (hpos : 0 < topK.toNat) (hlt : topK.toNat < vocabSize) (hlogits : ∀ i < vocabSize, lowest < logits i)
    (i : ℕ) (hi : i < vocabSize) :
    (topKFilter lowest vocabSize topK.toNat logits buffer i ≠ lowest ↔
      Nat.count (fun j => logits i < logits j) vocabSize < min topK.toNat 256) ∧
      (topKFilter lowest vocabSize topK.toNat logits buffer i ≠ lowest →
        topKFilter lowest vocabSize topK.toNat logits buffer i = logits i) := by
  rw [topKFilter_apply hpos hlt hlogits hi]
  split_ifs with hkept
  · exact ⟨iff_of_true (hlogits i hi).ne' hkept, fun _ => rfl⟩
  · exact ⟨iff_of_false (fun h => h rfl) hkept, fun h => absurd rfl h⟩

/-- Two of four logits are kept, those of the tie at the cutoff among them. -/
theorem topKFilter_unmasked_tie :
    let logits : ℕ → ℤ := fun i => [3, 7, 7, 5].getD i 0
    let kept := topKFilter (-1) 4 (1#16).toNat logits (fun _ => 0)
    (∀ i < 4, -1 < logits i) ∧ (kept 1 ≠ -1 ∧ kept 2 ≠ -1) ∧ (kept 1 ≠ -1 → kept 1 = logits 1) := by
  intro logits kept
  have hlogits : ∀ i < 4, -1 < logits i := by decide
  have hspec (i : ℕ) (hi : i < 4) :=
    topKFilter_unmasked_iff (-1) 4 1#16 logits (fun _ => 0) (by decide) (by decide) hlogits i hi
  exact ⟨hlogits, ⟨(hspec 1 (by decide)).1.mpr (by decide), (hspec 2 (by decide)).1.mpr (by decide)⟩,
    (hspec 1 (by decide)).2⟩

/-- With `k = 257` an entry with 256 greater ones is masked. -/
theorem topKFilter_masks_beyond_buffer :
    let logits : ℕ → ℤ := fun i => 257 - i
    (0 < (257#16).toNat ∧ (257#16).toNat < 258 ∧ ∀ i < 258, -1 < logits i) ∧
      Nat.count (fun j => logits 256 < logits j) 258 = 256 ∧
      topKFilter (-1) 258 (257#16).toNat logits (fun _ => 0) 256 = -1 ∧
      ¬ (topKFilter (-1) 258 (257#16).toNat logits (fun _ => 0) 256 ≠ -1 ↔
        Nat.count (fun j => logits 256 < logits j) 258 < (257#16).toNat) := by
  intro logits
  have hpos : 0 < (257#16).toNat := by decide
  have hlt : (257#16).toNat < 258 := by decide
  have hlogits : ∀ i < 258, -1 < logits i := by
    intro i hi
    simp only [logits]
    omega
  have hcount : Nat.count (fun j => logits 256 < logits j) 258 = 256 := by decide +kernel
  have hmasked : topKFilter (-1) 258 (257#16).toNat logits (fun _ => 0) 256 = -1 := by
    rw [topKFilter_apply hpos hlt hlogits (by decide), hcount, if_neg (by decide)]
  refine ⟨⟨hpos, hlt, hlogits⟩, hcount, hmasked, ?_⟩
  rw [hmasked, hcount]
  decide

end Sampling

end RolloutRuntime
