import RolloutRuntime.Loops.KeepLargest
import RolloutRuntime.Sampling.TopK

/-!
# The buffer of thresholds

The buffer of the top-k filter keeps the largest logits seen, in decreasing order and as often as they
occur; until there are enough of them the rest is `-FLT_MAX`. `RolloutRuntime.Sampling.TopK` says what the
filter needs of this, how many logits are above a threshold. Here are the contents of the buffer themselves,
for logits that may be `-FLT_MAX` too, and the accesses: a twin of each loop, and of the read of the cutoff
after them, fails at an access beyond the part of the buffer that is in use, and none does.

## Main definitions

* `Sampling.readThreshold`, `Sampling.writeThreshold`: accesses that are checked.
* `Sampling.topThresholdsChecked`, `Sampling.cutoffChecked`: the loops and the cutoff with checked accesses.
* `Sampling.topKFilterChecked`: the filter with checked accesses.
* `Sampling.entries`: the part of the buffer in use.

## Main results

* `Sampling.topThresholdsChecked_eq`, `Sampling.topKFilterChecked_eq`: no access fails.
* `Sampling.entries_insertThreshold`: one insertion.
* `Sampling.topThresholds_largest`: the buffer after any number of logits.

## References

* `cu/sample.cu` lines 52–75.
-/

namespace RolloutRuntime

open Loops KeepLargest

namespace Sampling

variable {α : Type}

/-! ### Accesses -/

/-- `thresholds[k]`, which fails beyond the first `nk` entries. -/
def readThreshold (nk : ℕ) (thresholds : ℕ → α) (k : ℕ) : Option α :=
  if k < nk then some (thresholds k) else none

/-- `thresholds[k] = v`, which fails beyond the first `nk` entries. -/
def writeThreshold (nk : ℕ) (thresholds : ℕ → α) (k : ℕ) (v : α) : Option (ℕ → α) :=
  if k < nk then some (Function.update thresholds k v) else none

/-- `shiftDown` with checked accesses. -/
def shiftDownChecked (nk j : ℕ) (thresholds : ℕ → α) : Option (ℕ → α) :=
  forRangeOpt (nk - 1 - j)
    (fun m thresholds => (readThreshold nk thresholds (nk - 1 - m - 1)).bind fun x =>
      writeThreshold nk thresholds (nk - 1 - m) x) thresholds

section Checked

variable {nk : ℕ} {thresholds : ℕ → α}

theorem readThreshold_of_lt {k : ℕ} (h : k < nk) : readThreshold nk thresholds k = some (thresholds k) :=
  if_pos h

theorem writeThreshold_of_lt {k : ℕ} (h : k < nk) (v : α) :
    writeThreshold nk thresholds k v = some (Function.update thresholds k v) :=
  if_pos h

theorem shiftDownChecked_eq {j : ℕ} (hj : j < nk) :
    shiftDownChecked nk j thresholds = some (shiftDown nk j thresholds) := by
  refine forRangeOpt_eq_some fun m hm s => ?_
  rw [readThreshold_of_lt (by omega), Option.bind_some, writeThreshold_of_lt (by omega)]

end Checked

/-! ### The part in use -/

/-- The part of the buffer that is in use. -/
def entries (nk : ℕ) (thresholds : ℕ → α) : List α := (List.range nk).map thresholds

@[simp] theorem length_entries (nk : ℕ) (thresholds : ℕ → α) : (entries nk thresholds).length = nk := by
  rw [entries, List.length_map, List.length_range]

@[simp] theorem getElem_entries (nk : ℕ) (thresholds : ℕ → α) {k : ℕ}
    (h : k < (entries nk thresholds).length) : (entries nk thresholds)[k] = thresholds k := by
  simp only [entries, List.getElem_map, List.getElem_range]

variable [LinearOrder α]

/-- `insertFrom` with checked accesses. -/
def insertFromChecked (nk : ℕ) (v : α) (thresholds : ℕ → α) : ℕ → ℕ → Option (ℕ → α)
  | 0, _ => some thresholds
  | m + 1, j => (readThreshold nk thresholds j).bind fun x =>
    if v > x then (shiftDownChecked nk j thresholds).bind fun thresholds => writeThreshold nk thresholds j v
    else insertFromChecked nk v thresholds m (j + 1)

/-- `topThresholds` with checked accesses. -/
def topThresholdsChecked (lowest : α) (vocabSize nk : ℕ) (logits buffer : ℕ → α) : Option (ℕ → α) :=
  (forRangeOpt nk (fun i thresholds => writeThreshold nk thresholds i lowest) buffer).bind
    (forRangeOpt vocabSize fun i thresholds => insertFromChecked nk (logits i) thresholds nk 0)

/-- `thresholds[nk - 1]` after the loops, with checked accesses. -/
def cutoffChecked (lowest : α) (vocabSize nk : ℕ) (logits buffer : ℕ → α) : Option α :=
  (topThresholdsChecked lowest vocabSize nk logits buffer).bind fun thresholds =>
    readThreshold nk thresholds (nk - 1)

/-- `topKFilter` with checked accesses. -/
def topKFilterChecked (lowest : α) (vocabSize topK : ℕ) (logits buffer : ℕ → α) : Option (ℕ → α) :=
  if topK > 0 ∧ topK < vocabSize then
    let nk := if topK < maxThresholds then topK else maxThresholds
    (cutoffChecked lowest vocabSize nk logits buffer).bind fun cutoff =>
      some (forRange vocabSize
        (fun i logits => Function.update logits i (if logits i < cutoff then lowest else logits i)) logits)
  else some logits

theorem insertFromChecked_eq (nk : ℕ) (v : α) (thresholds : ℕ → α) {m j : ℕ} (h : j + m = nk) :
    insertFromChecked nk v thresholds m j = some (insertFrom nk v thresholds m j) := by
  induction m generalizing j with
  | zero => rfl
  | succ m ih =>
    have hj : j < nk := by omega
    rw [insertFromChecked, insertFrom, readThreshold_of_lt hj, Option.bind_some]
    split_ifs
    · rw [shiftDownChecked_eq hj, Option.bind_some, writeThreshold_of_lt hj]
    · exact ih (by omega)

/-- **No access fails.** -/
theorem topThresholdsChecked_eq (lowest : α) (vocabSize nk : ℕ) (logits buffer : ℕ → α) :
    topThresholdsChecked lowest vocabSize nk logits buffer =
      some (topThresholds lowest vocabSize nk logits buffer) := by
  have hinit : forRangeOpt nk (fun i thresholds => writeThreshold nk thresholds i lowest) buffer =
      some (forRange nk (fun i thresholds => Function.update thresholds i lowest) buffer) :=
    forRangeOpt_eq_some fun i hi s => writeThreshold_of_lt hi lowest
  rw [topThresholdsChecked, hinit, Option.bind_some]
  exact forRangeOpt_eq_some fun i _ s => insertFromChecked_eq nk (logits i) s (Nat.zero_add nk)

/-- The cutoff is in the part in use, which the `top_k > 0` of the filter sees to. -/
theorem cutoffChecked_eq (lowest : α) (vocabSize : ℕ) {nk : ℕ} (h : 0 < nk) (logits buffer : ℕ → α) :
    cutoffChecked lowest vocabSize nk logits buffer =
      some (topThresholds lowest vocabSize nk logits buffer (nk - 1)) := by
  rw [cutoffChecked, topThresholdsChecked_eq, Option.bind_some]
  exact readThreshold_of_lt (Nat.sub_lt h Nat.one_pos)

/-- **No access of the filter fails**, whatever `top_k` is. -/
theorem topKFilterChecked_eq (lowest : α) (vocabSize topK : ℕ) (logits buffer : ℕ → α) :
    topKFilterChecked lowest vocabSize topK logits buffer =
      some (topKFilter lowest vocabSize topK logits buffer) := by
  unfold topKFilterChecked topKFilter
  split_ifs with hfilter hlt
  · dsimp only
    rw [cutoffChecked_eq lowest vocabSize hfilter.1, Option.bind_some]
  · dsimp only
    rw [cutoffChecked_eq lowest vocabSize (by decide : 0 < maxThresholds), Option.bind_some]
  · rfl

/-! ### Contents -/

/-- **One insertion**: the logit goes before the first entry below it, and the last entry drops out. -/
theorem entries_insertThreshold (nk : ℕ) (v : α) (thresholds : ℕ → α) :
    entries nk (insertThreshold nk v thresholds) =
      ((entries nk thresholds).orderedInsert (· > ·) v).take nk := by
  have hlen := length_entries nk thresholds
  rcases insertThreshold_cases nk v thresholds with ⟨heq, hle⟩ | ⟨p, hp, hlt, hle, heq⟩
  · have hend : (entries nk thresholds).orderedInsert (· > ·) v =
        (entries nk thresholds).insertIdx (entries nk thresholds).length v := by
      refine orderedInsert_eq_insertIdx _ le_rfl (fun h => absurd h (lt_irrefl _)) fun k h _ => ?_
      rw [getElem_entries]
      exact not_lt.mpr (hle k (hlen ▸ h))
    rw [heq, hend, List.insertIdx_length_self, List.take_left' hlen]
  · have hple : p ≤ (entries nk thresholds).length := hp.le.trans_eq hlen.symm
    have hat : (entries nk thresholds).orderedInsert (· > ·) v = (entries nk thresholds).insertIdx p v := by
      refine orderedInsert_eq_insertIdx _ hple (fun h => ?_) fun k h hk => ?_
      · rwa [getElem_entries]
      · rw [getElem_entries]
        exact not_lt.mpr (hle k hk)
    rw [hat]
    refine List.ext_getElem ?_ fun k hk hk' => ?_
    · rw [List.length_take, List.length_insertIdx_of_le_length hple, length_entries, hlen]
      exact (min_eq_left nk.le_succ).symm
    · rw [length_entries] at hk
      rw [getElem_entries, heq, List.getElem_take]
      rcases lt_trichotomy k p with hlt | rfl | hgt
      · rw [if_neg hlt.ne, if_neg fun h => absurd h.1 hlt.not_gt, List.getElem_insertIdx_of_lt hlt,
          getElem_entries]
      · rw [if_pos rfl, List.getElem_insertIdx_self]
      · rw [if_neg hgt.ne', if_pos ⟨hgt, hk⟩, List.getElem_insertIdx_of_gt hgt, getElem_entries]

/-- **The buffer after any number of logits.** For every size of the buffer, all logits and whatever the
buffer held before: no access goes beyond the entries in use, the read of the cutoff included, and these
are the largest of the logits seen, in decreasing order and each as often as it occurs, with the least
value for those that are missing. -/
theorem topThresholds_largest [OrderBot α] (nk i : ℕ) (logits buffer : ℕ → α) :
    topThresholdsChecked ⊥ i nk logits buffer = some (topThresholds ⊥ i nk logits buffer) ∧
      entries nk (topThresholds ⊥ i nk logits buffer) =
        (((List.range i).map logits).insertionSort (· ≥ ·)).take nk ++ List.replicate (nk - i) ⊥ ∧
      (entries nk (topThresholds ⊥ i nk logits buffer)).Pairwise (· ≥ ·) ∧
      (0 < nk → cutoffChecked ⊥ i nk logits buffer =
        some (topThresholds ⊥ i nk logits buffer (nk - 1))) := by
  have hkept : entries nk (topThresholds ⊥ i nk logits buffer) =
      (padded nk ((List.range i).map logits)).take nk := by
    refine forRange_induct (fun i thresholds => entries nk thresholds =
      (padded nk ((List.range i).map logits)).take nk) ?_ fun i _ thresholds h => ?_
    · refine List.ext_getElem ?_ fun k hk hk' => ?_
      · simp [padded]
      · rw [length_entries] at hk
        rw [getElem_entries, forRange_update nk (fun _ _ => ⊥), if_pos hk]
        simp [padded]
    · rw [entries_insertThreshold, h, take_padded_snoc, List.range_succ, List.map_append, List.map_singleton]
  refine ⟨topThresholdsChecked_eq ⊥ i nk logits buffer, ?_, ?_, ?_⟩
  · rw [hkept, take_padded, List.length_map, List.length_range]
  · rw [hkept]
    exact (pairwise_padded nk _).sublist (List.take_sublist nk _)
  · exact fun hnk => cutoffChecked_eq ⊥ i hnk logits buffer

end Sampling

end RolloutRuntime
