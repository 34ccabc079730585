import Mathlib.Algebra.BigOperators.Group.Finset.Piecewise
import RolloutRuntime.Pipeline.BenchmarkStages
import RolloutRuntime.Pipeline.BenchmarkWindows

/-!
# Runs of the pipeline benchmark

The credits of the decode stage are released batch by batch, and a stage that admission has filled to its
credit limit is never drained again. The benchmark stays clear of that: it schedules the stage after every
32 admissions, so at most 32 of its 256 credits are in use. Whatever the device answers, every rollout is
admitted at once, scheduled and finished, and its record is the first free one, so the records of the first
32 ids are used over and over.

The wait for the last completions is less fortunate: completions that are polled while the command ring is
full are not counted, and then the wait never ends.

## Main definitions

* `DispatchedAt`: what was dispatched for the finished rollouts.
* `BenchAt`: the context with given numbers of rollouts started, admitted, scheduled and finished.

## Main results

* `scheduleDecodeBatches_spec`, `rolloutPass_spec`, `rolloutLoop_spec`: what the loops do.
* `benchmark_serves_every_rollout`: every rollout is served.
* `benchmark_posts_windows`: what is posted to the device.
* `benchmark_ends_iff`: when the wait for the last completions ends.

## References

* `bench/bench_pipeline.cu` lines 166–383, `src/pipeline.c`, `src/rollout.c`, `src/reward.c`.
-/

namespace RolloutRuntime

open Concurrency RingBuffer Bitmap

/-! ### Serving the scheduled rollouts -/

section Run

variable (fuel : ℕ) (device : ℕ → RingAnswers) (toFloat : ℚ → BitVec 32) (tokens : BitVec 32)

/-- The descriptors posted if `ks` are the numbers of windows accepted of the rollouts. -/
def postedWindows (ks : List ℕ) : List Descriptor :=
  ks.zipIdx.flatMap fun x => firstWindows tokens.toNat (benchId x.2) x.1

/-- For each of the first `f` rollouts, the number of its windows that the command ring takes: those before
the first that is refused. The windows of a rollout come after those dispatched for the rollouts before it,
the refused one included. -/
def windowCounts : ℕ → List ℕ
  | 0 => []
  | f + 1 =>
    let ks := windowCounts f
    ks ++ [takenWindows device (windowTotal tokens) (ks.map fun k => min (k + 1) (windowTotal tokens)).sum]

/-- What was dispatched for `f` finished rollouts. -/
structure DispatchedAt (f : ℕ) (c : BenchContext) : Prop where
  windows : c.windows = ((windowCounts device tokens f).map fun k => min (k + 1) (windowTotal tokens)).sum
  posted : c.posted = postedWindows tokens (windowCounts device tokens f)
  descriptorsPosted : c.metrics.descriptorsPosted = c.posted.length
  pipelineOverflow :
    c.metrics.pipelineOverflow = (windowCounts device tokens f).countP (· < windowTotal tokens)
  polled : PolledAt device c
  traced : DescTraced c

/-- The events of `p` started and `f` finished rollouts. -/
structure TracedAt (p f : ℕ) (tr : List TracePoint) : Prop where
  started : tr.filter (·.type = .rolloutAlloc) = (benchIds p).map fun rid => ⟨.rolloutAlloc, rid, 0⟩
  scored : tr.filter (ofTypes .rewardPosted .rewardScored) =
    pairPoints .rewardPosted .rewardScored ((benchIds f).map fun rid => (rid, tokens))
  finished : tr.filter (ofTypes .rewardPosted .trajectoryDone) =
    pairPoints .rewardPosted .trajectoryDone ((benchIds f).map fun rid => (rid, tokens))

/-- The context of the benchmark with `p` rollouts started, `a` admitted to the decode stage, `t`
scheduled and `f` finished. -/
structure BenchAt (p a t f : ℕ) (c : BenchContext) : Prop where
  stages : StagesAt p a t f c.pipeline
  slab : SlabAt f p c.slab
  rewards : Hoards c.rewardRing ((benchIds f).map (rewardDesc toFloat tokens))
  metrics : MetricsAt t f c.metrics
  refused : c.refused = 0
  traced : TracedAt tokens p f c.trace
  dispatched : DispatchedAt device tokens f c

variable {fuel device toFloat tokens} {p a t f : ℕ} {c : BenchContext}

theorem length_windowCounts (f : ℕ) : (windowCounts device tokens f).length = f := by
  induction f with
  | zero => rfl
  | succ f ih => rw [windowCounts, List.length_append, List.length_singleton, ih]

theorem DispatchedAt.windowCounts_succ (h : DispatchedAt device tokens f c) :
    windowCounts device tokens (f + 1) =
      windowCounts device tokens f ++ [takenWindows device (windowTotal tokens) c.windows] := by
  rw [windowCounts, h.windows]

/-- The windows of a rollout start after those dispatched for the rollouts before it. -/
theorem eq_takenWindows_of_windowCounts {n r k : ℕ} (h : (windowCounts device tokens n)[r]? = some k) :
    k = takenWindows device (windowTotal tokens)
      (((windowCounts device tokens n).take r).map fun k => min (k + 1) (windowTotal tokens)).sum := by
  induction n with
  | zero => cases h
  | succ n ih =>
    have hlen : (windowCounts device tokens n).length = n := length_windowCounts n
    rw [windowCounts] at h ⊢
    rcases Nat.lt_trichotomy r n with hlt | rfl | hgt
    · rw [List.getElem?_append_left (by omega)] at h
      rw [List.take_append_of_le_length (by omega)]
      exact ih h
    · rw [List.getElem?_append_right (by omega), hlen, Nat.sub_self] at h
      rw [List.take_append_of_le_length (by omega), List.take_of_length_le (by omega)]
      exact (Option.some_inj.mp h).symm
    · rw [List.getElem?_eq_none (by simp; omega)] at h
      cases h

theorem postedWindows_append (ks : List ℕ) (k : ℕ) :
    postedWindows tokens (ks ++ [k]) =
      postedWindows tokens ks ++ firstWindows tokens.toNat (benchId ks.length) k := by
  simp [postedWindows, List.zipIdx_append]

theorem Hoards.rewardPush {r : RewardRing} (f : ℕ)
    (h : Hoards r ((benchIds f).map (rewardDesc toFloat tokens))) :
    Hoards ((rewardPush (rewardDesc toFloat tokens (benchId f))).run Op.effect r).2
      ((benchIds (f + 1)).map (rewardDesc toFloat tokens)) := by
  rw [benchIds_succ, List.map_append, List.map_singleton]
  exact h.push (by decide) true (rewardDesc toFloat tokens (benchId f))

theorem TracedAt.dispatched {c' : BenchContext} (h : TracedAt tokens p f c.trace) (hsame : SameStages c c') :
    TracedAt tokens p f c'.trace := by
  refine ⟨(hsame.trace _ fun x hx => ?_).trans h.started, (hsame.trace _ fun x hx => ?_).trans h.scored,
    (hsame.trace _ fun x hx => ?_).trans h.finished⟩
  all_goals
    simp only [dispatchEvents, List.mem_cons, List.not_mem_nil, or_false] at hx
    obtain hx | hx | hx := hx <;> simp [ofTypes, hx]

theorem TracedAt.other {tr new : List TracePoint} (h : TracedAt tokens p f tr)
    (hstarted : ∀ x ∈ new, decide (x.type = .rolloutAlloc) = false)
    (hscored : ∀ x ∈ new, ofTypes .rewardPosted .rewardScored x = false)
    (hfinished : ∀ x ∈ new, ofTypes .rewardPosted .trajectoryDone x = false) :
    TracedAt tokens p f (tr ++ new) :=
  ⟨(filter_append_of_false hstarted).trans h.started, (filter_append_of_false hscored).trans h.scored,
    (filter_append_of_false hfinished).trans h.finished⟩

theorem TracedAt.finish {tr : List TracePoint} (h : TracedAt tokens p f tr) :
    TracedAt tokens p (f + 1) (tr ++ finishPoints tokens (benchId f)) := by
  refine ⟨?_, ?_, ?_⟩
  · exact (filter_append_of_false (by simp [finishPoints])).trans h.started
  · rw [List.filter_append, h.scored, benchIds_succ, List.map_append, pairPoints_append]
    simp [finishPoints, ofTypes, pairPoints]
  · rw [List.filter_append, h.finished, benchIds_succ, List.map_append, pairPoints_append]
    simp [finishPoints, ofTypes, pairPoints]

theorem TracedAt.start {tr : List TracePoint} (h : TracedAt tokens p f tr) :
    TracedAt tokens (p + 1) f (tr ++ [⟨.rolloutAlloc, benchId p, 0⟩]) := by
  refine ⟨?_, (filter_append_of_false (by simp [ofTypes])).trans h.scored,
    (filter_append_of_false (by simp [ofTypes])).trans h.finished⟩
  rw [List.filter_append, h.started, benchIds_succ, List.map_append]
  simp

/-- Serving one rollout: it is dispatched, and finished whatever the device answers. -/
theorem serve_one (htokens : tokens.toNat < 2 ^ 31) (hfuel : tokens.toNat < fuel)
    (h : BenchAt device toFloat tokens p a t f c) (hf : f < p) (hp : p ≤ f + 32) :
    ∃ c', dispatchWindows device tokens (benchId f) fuel 0 (benchId f % 128) c = some c' ∧
      BenchAt device toFloat tokens p a t (f + 1) (finishRollout toFloat tokens c' (benchId f)) ∧
      (finishRollout toFloat tokens c' (benchId f)).pipeline.credits = c.pipeline.credits := by
  have hdisp := h.dispatched
  have hkv : 32 * 0 < tokens.toNat →
      benchId f % 128 = BitVec.ofNat 32 (((benchId f).toNat + 32 * 0) % 128) := by
    intro _
    apply BitVec.eq_of_toNat_eq
    have hblocks : (128 : BitVec 32).toNat = 128 := rfl
    rw [BitVec.toNat_umod, hblocks, BitVec.toNat_ofNat]
    omega
  obtain ⟨c', hrun, hsame, hwindows, hposted, hover, hcount, hpolled, htraced⟩ :=
    dispatchWindows_spec device htokens (benchId f) fuel 0 0 (benchId f % 128) c rfl (Nat.zero_le _) hkv
      (by omega) c.posted (by simp [firstWindows]) hdisp.polled hdisp.traced
  rw [Nat.sub_zero] at hwindows hposted hover
  rw [Nat.zero_add] at hposted hover
  have hstate : (c'.slab.slots (benchRecord f)).state = .decoding := by
    rw [hsame.slab, h.slab.state, if_pos]
    exact Finset.mem_image_of_mem _ (Finset.mem_Ico.mpr ⟨le_rfl, hf⟩)
  have hrewards := h.rewards.rewardPush f
  rw [← hsame.rewardRing] at hrewards
  refine ⟨c', hrun, ?_, ?_⟩
  · rw [finishRollout_eq toFloat tokens _ (rolloutGet_benchId f) hstate]
    refine ⟨?_, ?_, ?_, ⟨?_, ?_, ?_, ?_, ?_⟩, hsame.refused.trans h.refused,
      (h.traced.dispatched hsame).finish, ?_, ?_, ?_, ?_, hpolled, ?_⟩
    · rw [hsame.pipeline]
      exact finishPushes_stagesAt h.stages
    · rw [hsame.slab]
      exact h.slab.finish hf hp
    · dsimp only
      exact hrewards
    · exact congrArg (· + 1) (hsame.rewardHandoffs.trans h.metrics.rewardHandoffs)
    · exact congrArg (· + 1) (hsame.rolloutsCompleted.trans h.metrics.rolloutsCompleted)
    · exact hsame.decodeRolloutsScheduled.trans h.metrics.decodeRolloutsScheduled
    · exact hsame.decodeBatches.trans h.metrics.decodeBatches
    · exact hsame.decodeBatchPeak.trans h.metrics.decodeBatchPeak
    · rw [hdisp.windowCounts_succ, List.map_append, List.sum_append, ← hdisp.windows]
      exact hwindows
    · rw [hdisp.windowCounts_succ, postedWindows_append, length_windowCounts, ← hdisp.posted]
      exact hposted
    · have := hdisp.descriptorsPosted
      change c'.metrics.descriptorsPosted = c'.posted.length
      omega
    · rw [hdisp.windowCounts_succ, List.countP_append, ← hdisp.pipelineOverflow]
      refine hover.trans ?_
      by_cases hlt : takenWindows device (windowTotal tokens) c.windows < windowTotal tokens <;> simp [hlt]
    · exact (filter_append_of_false (by simp [finishPoints, ofTypes])).trans htraced
  · rw [finishRollout_eq toFloat tokens _ (rolloutGet_benchId f) hstate]
    change c'.pipeline.credits = c.pipeline.credits
    rw [hsame.pipeline]

/-- **Serving the scheduled rollouts.** -/
theorem serveRollouts_spec (htokens : tokens.toNat < 2 ^ 31) (hfuel : tokens.toNat < fuel) (n : ℕ)
    (h : BenchAt device toFloat tokens p a t f c) (hf : f + n ≤ p) (hp : p ≤ f + 32) :
    ∃ c', serveRollouts fuel device toFloat tokens ((List.range' f n).map benchId) c = some c' ∧
      BenchAt device toFloat tokens p a t (f + n) c' ∧ c'.pipeline.credits = c.pipeline.credits := by
  induction n generalizing f c with
  | zero => exact ⟨c, rfl, h, rfl⟩
  | succ n ih =>
    obtain ⟨c₁, hrun, hone, hcredits⟩ := serve_one htokens hfuel h (by omega) hp
    obtain ⟨c₂, hrest, hn, hcredits'⟩ := ih hone (by omega) (by omega)
    refine ⟨c₂, ?_, by rwa [Nat.add_right_comm] at hn, hcredits'.trans hcredits⟩
    rw [List.range'_succ, List.map_cons, serveRollouts, hrun, Option.bind_some, hrest]

/-- The batch window of the decode stage takes all that is queued. -/
theorem targetBatch_stagesAt (h : StagesAt p a t f c.pipeline) (ht : t ≤ a) (ha : a ≤ t + 32)
    (hused : c.pipeline.credits.decodeUsed.toNat = a - t) :
    (pipelineStageTargetBatch c.pipeline (some .decode) decodeBatchLimit).toNat = a - t := by
  have hlimit : (256 : BitVec 32).toNat = 256 := rfl
  have hmax : decodeBatchLimit.toNat = 32 := rfl
  have hbal : Balanced 256 c.pipeline := by
    refine ⟨h.policy, h.ring, h.limit, ?_, ?_⟩
    · rw [h.admitted, h.scheduled, length_benchIds, length_benchIds]
      omega
    · rw [BitVec.le_def]
      omega
  rw [targetBatch_toNat hbal, hused, hlimit, hmax]
  omega

/-- **Scheduling the decode stage.** All queued rollouts are dispatched and finished, and their credits
are released. -/
theorem scheduleDecodeBatches_spec (htokens : tokens.toNat < 2 ^ 31) (hfuel : tokens.toNat < fuel)
    (h : BenchAt device toFloat tokens a a t t c) (ha : a < 2 ^ 32) (hdvd : 32 ∣ t) (ht : t < a)
    (hfit : a ≤ t + 32) (hused : c.pipeline.credits.decodeUsed.toNat = a - t) :
    ∃ c', scheduleDecodeBatches fuel device toFloat tokens c = some (a - t, c') ∧
      BenchAt device toFloat tokens a a a a c' ∧ c'.pipeline.credits.decodeUsed.toNat = 0 := by
  have hbatch := targetBatch_stagesAt h.stages ht.le hfit hused
  have hmax : decodeBatchLimit.toNat = 32 := rfl
  rw [scheduleDecodeBatches]
  generalize pipelineStageTargetBatch c.pipeline (some .decode) decodeBatchLimit = batch at hbatch
  have hle : (if batch > decodeBatchLimit then decodeBatchLimit else batch) = batch := by
    rw [if_neg]
    rw [gt_iff_lt, BitVec.not_lt, BitVec.le_def]
    omega
  have hne : batch ≠ 0 := by
    rintro rfl
    have : (0 : BitVec 32).toNat = 0 := rfl
    omega
  obtain ⟨s, hsched, hstages, hcredits⟩ :=
    scheduleBatch_stagesAt (a - t) h.stages ha (by omega)
  have hlen : ((List.range' t (a - t)).map benchId).length = a - t := by
    rw [List.length_map, List.length_range']
  rw [Nat.add_sub_cancel' ht.le] at hstages
  simp only [hle, if_neg hne, hbatch, hsched, hlen, if_neg (show ¬ a - t = 0 by omega)]
  -- the batch is counted before its rollouts are served
  have hcounted : BenchAt device toFloat tokens a a a t ({ c with
      pipeline := s
      metrics := noteDecodeBatchMetrics c.metrics (a - t) }.tracePush .decodeBatch
        (BitVec.ofNat 32 (a - t)) tokens) := by
    have hdisp := h.dispatched
    refine ⟨hstages, h.slab, h.rewards, ⟨h.metrics.rewardHandoffs, h.metrics.rolloutsCompleted, ?_, ?_, ?_⟩,
      h.refused, h.traced.other (by simp) (by simp [ofTypes]) (by simp [ofTypes]), hdisp.windows,
      hdisp.posted, hdisp.descriptorsPosted, hdisp.pipelineOverflow, hdisp.polled,
      (filter_append_of_false (by simp [ofTypes])).trans hdisp.traced⟩
    · simp only [BenchContext.tracePush, noteDecodeBatchMetrics, h.metrics.decodeRolloutsScheduled]
      omega
    · simp only [BenchContext.tracePush, noteDecodeBatchMetrics, h.metrics.decodeBatches]
      omega
    · simp only [BenchContext.tracePush, noteDecodeBatchMetrics, h.metrics.decodeBatchPeak]
      split_ifs <;> omega
  obtain ⟨c', hserve, hserved, hcredits'⟩ :=
    serveRollouts_spec htokens hfuel (a - t) hcounted (by omega) (by omega)
  rw [Nat.add_sub_cancel' ht.le] at hserved
  rw [hserve]
  refine ⟨_, rfl, ⟨⟨hserved.stages.policy, hserved.stages.ring, hserved.stages.admitted,
    hserved.stages.scheduled, hserved.stages.limit, hserved.stages.prefill, hserved.stages.reward,
    hserved.stages.trajectory, hserved.stages.done⟩, hserved.slab, hserved.rewards, hserved.metrics,
    hserved.refused, hserved.traced, ?_⟩, ?_⟩
  · have hdisp := hserved.dispatched
    exact ⟨hdisp.windows, hdisp.posted, hdisp.descriptorsPosted, hdisp.pipelineOverflow,
      hdisp.polled, hdisp.traced⟩
  · have hrelease : c'.pipeline.credits.decodeUsed = BitVec.ofNat 32 (a - t) := by
      rw [hcredits']
      change s.credits.decodeUsed = _
      rw [hcredits, ← hused, BitVec.ofNat_toNat, BitVec.setWidth_eq]
    change (releaseCredits c'.pipeline.credits.decodeUsed (BitVec.ofNat 32 (a - t))).toNat = 0
    rw [hrelease, releaseCredits, if_neg (by simp), BitVec.sub_self]
    rfl

/-! ### The main loop -/

/-- Starting a rollout: it gets the record after those of its group, and its transitions to the decode
stage are accepted. -/
theorem startRollout_spec (h : BenchAt device toFloat tokens a a t f c) (hf : f ≤ a) (ha : a < f + 32)
    (hdvd : 32 ∣ f) (r : ℕ) :
    ∃ slab, rolloutAlloc c.slab = some (benchRecord a, slab) ∧
      BenchAt device toFloat tokens (a + 1) a t f (startRollout tokens c slab (benchRecord a) r) ∧
      (startRollout tokens c slab (benchRecord a) r).pipeline.credits = c.pipeline.credits := by
  have hscan := h.slab.bitmap.scan
  rw [unusedBits_false, leastUnused_heldRecords hf ha hdvd] at hscan
  refine ⟨_, by rw [rolloutAlloc, hscan, Option.map_some], ?_⟩
  simp only [startRollout]
  rw [@BenchContext.transition_eq _ (benchRecord a) .free .prefillReady (by simp) rfl]
  rw [@BenchContext.transition_eq _ (benchRecord a) .prefillReady .decoding (by simp [BenchContext.push]) rfl]
  refine ⟨⟨pipelinePush_prefill h.stages, ⟨?_, fun i => ?_⟩, h.rewards, h.metrics, h.refused,
    h.traced.start, ?_⟩, rfl⟩
  · rw [heldRecords_succ hf]
    exact h.slab.bitmap.take (benchRecord a)
  · rw [heldRecords_succ hf]
    by_cases hi : i = benchRecord a
    · subst hi
      simp [BenchContext.push, setState]
    · simp [BenchContext.push, setState, hi, h.slab.state]
  · have hdisp := h.dispatched
    exact ⟨hdisp.windows, hdisp.posted, hdisp.descriptorsPosted, hdisp.pipelineOverflow,
      hdisp.polled, (filter_append_of_false (by simp [ofTypes])).trans hdisp.traced⟩

/-- A started rollout is admitted to the decode stage at once. -/
theorem admitDecode_spec (h : BenchAt device toFloat tokens (a + 1) a t f c) (ha : a < t + 32)
    (hused : c.pipeline.credits.decodeUsed.toNat = a - t) (hfuel : 0 < fuel) :
    ∃ c', admitDecode fuel device toFloat tokens (benchId a) fuel c = some (true, c') ∧
      BenchAt device toFloat tokens (a + 1) (a + 1) t f c' ∧
      c'.pipeline.credits.decodeUsed.toNat = a + 1 - t := by
  obtain ⟨s, hpush, hstages, hused'⟩ := pipelineTryPush_stagesAt h.stages ha hused
  obtain ⟨passes, rfl⟩ := Nat.exists_eq_succ_of_ne_zero hfuel.ne'
  refine ⟨{ c with pipeline := s }, ?_, ⟨hstages, h.slab, h.rewards, h.metrics, h.refused, h.traced, ?_⟩,
    hused'⟩
  · rw [admitDecode, hpush]
  · have hdisp := h.dispatched
    exact ⟨hdisp.windows, hdisp.posted, hdisp.descriptorsPosted, hdisp.pipelineOverflow,
      hdisp.polled, hdisp.traced⟩

/-- **One pass of the main loop.** Whatever the device answers, the rollout is admitted, and a full group
of 32 is finished. -/
theorem rolloutPass_spec (htokens : tokens.toNat < 2 ^ 31) (hfuel : tokens.toNat < fuel) {r : ℕ}
    (h : BenchAt device toFloat tokens r r (32 * (r / 32)) (32 * (r / 32)) c) (hr : r + 1 < 2 ^ 32)
    (hused : c.pipeline.credits.decodeUsed.toNat = r % 32) :
    ∃ c', rolloutPass fuel device toFloat tokens r c (rolloutAlloc c.slab) = some (true, c') ∧
      BenchAt device toFloat tokens (r + 1) (r + 1) (32 * ((r + 1) / 32)) (32 * ((r + 1) / 32)) c' ∧
      c'.pipeline.credits.decodeUsed.toNat = (r + 1) % 32 := by
  obtain ⟨slab, halloc, hstart, hcredits⟩ := startRollout_spec h (by omega) (by omega) ⟨_, rfl⟩ r
  obtain ⟨c₁, hadmit, hadmitted, hused₁⟩ :=
    admitDecode_spec hstart (by omega) (by rw [hcredits, hused]; omega) (Nat.zero_lt_of_lt hfuel)
  rw [halloc, rolloutPass, ofNat_benchRecord, hadmit, Option.bind_some, if_pos rfl]
  by_cases hgroup : (r + 1) % 32 = 0
  · obtain ⟨c₂, hsched, hserved, hused₂⟩ :=
      scheduleDecodeBatches_spec htokens hfuel hadmitted (by omega) ⟨_, rfl⟩ (by omega) (by omega)
        hused₁
    have hall : 32 * ((r + 1) / 32) = r + 1 := by omega
    rw [if_pos hgroup, hsched, hall]
    exact ⟨c₂, rfl, hserved, by omega⟩
  · have hsame : (r + 1) / 32 = r / 32 := by omega
    rw [if_neg hgroup, hsame]
    exact ⟨c₁, rfl, hadmitted, by omega⟩

/-- **The main loop.** Every rollout is admitted, and every group of 32 is finished before the next one
starts. -/
theorem rolloutLoop_spec (htokens : tokens.toNat < 2 ^ 31) (hfuel : tokens.toNat < fuel) (left r : ℕ)
    (h : BenchAt device toFloat tokens r r (32 * (r / 32)) (32 * (r / 32)) c) (hr : r + left < 2 ^ 32)
    (hused : c.pipeline.credits.decodeUsed.toNat = r % 32) :
    ∃ c', rolloutLoop fuel device toFloat tokens left r c = some c' ∧
      BenchAt device toFloat tokens (r + left) (r + left) (32 * ((r + left) / 32))
        (32 * ((r + left) / 32)) c' ∧
      c'.pipeline.credits.decodeUsed.toNat = (r + left) % 32 := by
  induction left generalizing r c with
  | zero => exact ⟨c, rfl, h, hused⟩
  | succ left ih =>
    obtain ⟨c₁, hpass, hnext, hused₁⟩ := rolloutPass_spec htokens hfuel h (by omega) hused
    rw [show r + (left + 1) = r + 1 + left by omega, rolloutLoop, hpass, Option.bind_some, if_pos rfl]
    exact ih (r + 1) hnext (by omega) hused₁

theorem drainDecode_of_empty (passes : ℕ)
    (h : (pipelineOccupancy c.pipeline (some .decode)).toNat = 0) :
    drainDecode fuel device toFloat tokens passes c = some c := by
  have hempty : ¬ pipelineOccupancy c.pipeline (some .decode) > 0 := by
    rw [gt_iff_lt, BitVec.lt_def, h]
    exact Nat.not_lt_zero _
  cases passes <;> rw [drainDecode, if_neg hempty]

/-- The rest of the decode stage is drained in one pass. -/
theorem drainDecode_spec (htokens : tokens.toNat < 2 ^ 31) (hfuel : tokens.toNat < fuel) {n : ℕ}
    (h : BenchAt device toFloat tokens n n (32 * (n / 32)) (32 * (n / 32)) c) (hn : n < 2 ^ 32)
    (hused : c.pipeline.credits.decodeUsed.toNat = n % 32) :
    ∃ c', drainDecode fuel device toFloat tokens fuel c = some c' ∧ BenchAt device toFloat tokens n n n n c' ∧
      c'.pipeline.credits.decodeUsed.toNat = 0 := by
  have hocc {t : ℕ} {c : BenchContext} (h : StagesAt n n t t c.pipeline) :
      (pipelineOccupancy c.pipeline (some .decode)).toNat = n - t := by
    have hocc := Contents.occupancy h.ring (by decide)
    rwa [h.admitted, h.scheduled, length_benchIds, length_benchIds] at hocc
  have hzero : (0 : BitVec 32).toNat = 0 := rfl
  obtain ⟨passes, rfl⟩ := Nat.exists_eq_succ_of_ne_zero (Nat.ne_zero_of_lt hfuel)
  have hfirst := hocc h.stages
  by_cases hrest : n % 32 = 0
  · have hall : 32 * (n / 32) = n := by omega
    rw [hall] at h hfirst
    exact ⟨c, drainDecode_of_empty _ (by omega), h, by omega⟩
  · obtain ⟨c₁, hsched, hserved, hused₁⟩ :=
      scheduleDecodeBatches_spec htokens hfuel h hn ⟨_, rfl⟩ (by omega) (by omega) (by omega)
    have hlast := hocc hserved.stages
    refine ⟨c₁, ?_, hserved, hused₁⟩
    rw [drainDecode, if_pos (by rw [gt_iff_lt, BitVec.lt_def]; omega)]
    simp only [hsched, Option.bind_some]
    exact drainDecode_of_empty _ (by omega)

theorem benchInit_at : BenchAt device toFloat tokens 0 0 0 0 benchInit where
  stages := ⟨rfl, Ring.zeroed_inv _, rfl, rfl, rfl, .zeroed _, .zeroed _, .zeroed _, .zeroed _⟩
  slab := ⟨represents_ones, fun _ => rfl⟩
  rewards := .zeroed _
  metrics := ⟨rfl, rfl, rfl, rfl, rfl⟩
  refused := rfl
  traced := ⟨rfl, rfl, rfl⟩
  dispatched := ⟨rfl, rfl, rfl, rfl, rfl, rfl⟩

/-- The context after the loops of the benchmark. -/
theorem benchmark_spec (htokens : 0 ≤ tokens.toInt) (hfuel : tokens.toNat < fuel) (nRollouts : BitVec 32) :
    ∃ c, benchmark fuel device toFloat tokens nRollouts = some c ∧
      BenchAt device toFloat tokens nRollouts.toInt.toNat nRollouts.toInt.toNat nRollouts.toInt.toNat
        nRollouts.toInt.toNat c ∧
      c.pipeline.credits.decodeUsed.toNat = 0 := by
  have htokens' : tokens.toNat < 2 ^ 31 := by
    have := BitVec.toInt_eq_toNat_cond tokens
    split_ifs at this <;> omega
  have hn : nRollouts.toInt.toNat < 2 ^ 32 := by
    have := @BitVec.toInt_lt 32 nRollouts
    omega
  obtain ⟨c₁, hloop, hstarted, hused₁⟩ :=
    rolloutLoop_spec htokens' hfuel nRollouts.toInt.toNat 0 benchInit_at (by omega) rfl
  rw [Nat.zero_add] at hstarted hused₁
  obtain ⟨c₂, hdrain, hserved, hused₂⟩ := drainDecode_spec htokens' hfuel hstarted hn hused₁
  exact ⟨c₂, by rw [benchmark, hloop, Option.bind_some, hdrain], hserved, hused₂⟩

end Run

section Results

variable (device : ℕ → RingAnswers) (toFloat : ℚ → BitVec 32) (tokens nRollouts : BitVec 32)

/-- **Every rollout is served.** Whatever the device answers, the loops of the benchmark end with every
rollout admitted, scheduled and finished, in order and in the records of the first 32 ids, with no
transition refused, all credits released and all records free. The queues after the decode stage and the
reward ring, which nobody empties, hold no more than fits, though every hand-over is counted. -/
theorem benchmark_serves_every_rollout (htokens : 0 ≤ tokens.toInt) {fuel : ℕ}
    (hfuel : tokens.toNat < fuel) :
    ∃ c, benchmark fuel device toFloat tokens nRollouts = some c ∧
      (c.pipeline.queues .decode).published = benchIds nRollouts.toInt.toNat ∧
      (c.pipeline.queues .decode).taken = benchIds nRollouts.toInt.toNat ∧
      c.pipeline.credits.decodeUsed = 0 ∧
      (∀ i, bit c.slab.freeBitmap i = true ∧ (c.slab.slots i).state = .free) ∧ c.refused = 0 ∧
      c.metrics.rolloutsCompleted = nRollouts.toInt.toNat ∧
      c.metrics.rewardHandoffs = nRollouts.toInt.toNat ∧
      c.metrics.decodeRolloutsScheduled = nRollouts.toInt.toNat ∧
      c.metrics.decodeBatches = (nRollouts.toInt.toNat + 31) / 32 ∧
      c.metrics.decodeBatchPeak = min nRollouts.toInt.toNat 32 ∧
      (∀ q ∈ [Stage.prefill, .reward, .trajectory, .done],
        (c.pipeline.queues q).published = (benchIds nRollouts.toInt.toNat).take 4096 ∧
          (c.pipeline.queues q).taken = []) ∧
      c.rewardRing.published =
        ((benchIds nRollouts.toInt.toNat).map (rewardDesc toFloat tokens)).take 1024 := by
  obtain ⟨c, hrun, h, hused⟩ :=
    @benchmark_spec fuel device toFloat tokens htokens hfuel nRollouts
  generalize nRollouts.toInt.toNat = n at h ⊢
  have hheld : heldRecords n n = ∅ := by rw [heldRecords, Finset.Ico_self, Finset.image_empty]
  refine ⟨c, hrun, h.stages.admitted, h.stages.scheduled, BitVec.eq_of_toNat_eq hused, fun i => ⟨?_, ?_⟩,
    h.refused, h.metrics.rolloutsCompleted, h.metrics.rewardHandoffs, h.metrics.decodeRolloutsScheduled,
    h.metrics.decodeBatches, h.metrics.decodeBatchPeak, ?_, h.rewards.published⟩
  · have hbit := h.slab.bitmap i
    rw [hheld] at hbit
    simpa using hbit
  · rw [h.slab.state, hheld, if_neg (Finset.notMem_empty i)]
  · intro q hq
    have hqueue : Hoards (c.pipeline.queues q) (benchIds n) := by
      simp only [List.mem_cons, List.not_mem_nil, or_false] at hq
      obtain rfl | rfl | rfl | rfl := hq
      exacts [h.stages.prefill, h.stages.reward, h.stages.trajectory, h.stages.done]
    exact ⟨hqueue.published, hqueue.taken⟩

/-- Forty rollouts of seventy steps on a device that refuses every window: two batches. -/
theorem benchmark_serves_forty :
    ∃ c, benchmark 71 (fun _ => ⟨true, false, [], false⟩) (fun _ => 0) 70 40 = some c ∧
      c.metrics.rolloutsCompleted = 40 ∧ c.metrics.decodeBatches = 2 := by
  obtain ⟨c, hrun, -, -, -, -, -, hcompleted, -, -, hbatches, -⟩ :=
    benchmark_serves_every_rollout (fun _ => ⟨true, false, [], false⟩) (fun _ => 0) 70 40 (by decide)
      (show (70 : BitVec 32).toNat < 71 by decide)
  exact ⟨c, hrun, hcompleted, hbatches⟩

/-- **What is posted.** The descriptors the command ring accepted are, rollout by rollout, the steps of
the first windows of each, with their blocks, cookies and places. These are the windows before the first one
that the device refuses twice; the windows of a rollout come after those dispatched for the rollouts before
it. A rollout of which a window was refused is counted as an overflow, and it is finished all the same. -/
theorem benchmark_posts_windows (htokens : 0 ≤ tokens.toInt) {fuel : ℕ} (hfuel : tokens.toNat < fuel) :
    ∃ (c : BenchContext) (ks : List ℕ), benchmark fuel device toFloat tokens nRollouts = some c ∧
      c.metrics.rolloutsCompleted = nRollouts.toInt.toNat ∧
      ks.length = nRollouts.toInt.toNat ∧
      (∀ r k, ks[r]? = some k →
        let start := ((ks.take r).map fun k => min (k + 1) (windowTotal tokens)).sum
        k ≤ windowTotal tokens ∧ (∀ i < k, (device (start + i)).takes = true) ∧
          (k < windowTotal tokens → (device (start + k)).takes = false)) ∧
      c.posted = ks.zipIdx.flatMap (fun x =>
        (List.range (min tokens.toNat (32 * x.1))).map (benchDescriptor tokens.toNat (benchId x.2))) ∧
      c.metrics.descriptorsPosted = c.posted.length ∧
      c.metrics.pipelineOverflow = ks.countP (· < windowTotal tokens) := by
  obtain ⟨c, hrun, h, -⟩ := @benchmark_spec fuel device toFloat tokens htokens hfuel nRollouts
  refine ⟨c, windowCounts device tokens nRollouts.toInt.toNat, hrun, h.metrics.rolloutsCompleted,
    length_windowCounts _, fun r k hk => ?_, h.dispatched.posted, h.dispatched.descriptorsPosted,
    h.dispatched.pipelineOverflow⟩
  obtain rfl := eq_takenWindows_of_windowCounts hk
  exact ⟨takenWindows_le _ _ _, fun i => takes_of_lt_takenWindows device, not_takes_takenWindows device⟩

/-- Two rollouts of forty steps, with the second window refused: three windows are tried. -/
theorem benchmark_posts_two :
    ∃ (c : BenchContext) (ks : List ℕ),
      benchmark 41 (fun i => ⟨true, i ≠ 1, [], i ≠ 1⟩) (fun _ => 0) 40 2 = some c ∧
        c.metrics.rolloutsCompleted = 2 ∧ ks = [1, 2] ∧ c.metrics.pipelineOverflow = 1 := by
  obtain ⟨c, ks, hrun, hdone, hks, hall, -, -, hover⟩ :=
    benchmark_posts_windows (fun i => ⟨true, i ≠ 1, [], i ≠ 1⟩) (fun _ => 0) 40 2 (by decide)
      (show (40 : BitVec 32).toNat < 41 by decide)
  obtain ⟨k₀, k₁, rfl⟩ := List.length_eq_two.mp hks
  obtain ⟨hle₀, htaken₀, hrefused₀⟩ := hall 0 k₀ rfl
  have hk₀ : k₀ = 1 := by
    have hpos : k₀ ≠ 0 := by
      rintro rfl
      have hfalse : true = false := hrefused₀ (by decide)
      cases hfalse
    have hlt : ¬ 1 < k₀ := by
      intro hlt
      have hfalse : false = true := htaken₀ 1 hlt
      cases hfalse
    omega
  subst hk₀
  obtain ⟨hle₁, -, hrefused₁⟩ := hall 1 k₁ rfl
  have hk₁ : k₁ = 2 := by
    have hzero : k₁ ≠ 0 := by
      rintro rfl
      have hfalse : true = false := hrefused₁ (by decide)
      cases hfalse
    have hone : k₁ ≠ 1 := by
      rintro rfl
      have hfalse : true = false := hrefused₁ (by decide)
      cases hfalse
    have hle : k₁ ≤ 2 := hle₁
    omega
  subst hk₁
  exact ⟨c, _, hrun, hdone, rfl, hover⟩

end Results

/-! ### The wait for the last completions -/

section Wait

variable (polled : ℕ → List Completion) (expected : ℕ)

/-- The events of the completions polled by the wait. -/
def waitPoints (completions : List Completion) : List TracePoint :=
  completions.flatMap fun d => [completionPoint .descConsumed d, completionPoint .completionPolled d]

theorem waitForCompletions_of_le {comps : ℕ} (h : expected ≤ comps) (passes i : ℕ) (tr : List TracePoint) :
    waitForCompletions polled expected passes i comps tr = some (comps, tr) := by
  cases passes <;> rw [waitForCompletions, if_neg h.not_gt]

theorem waitForCompletions_eq_some {passes i comps m : ℕ} {tr tr' : List TracePoint}
    (h : waitForCompletions polled expected passes i comps tr = some (m, tr')) :
    ∃ k, m = comps + ((List.range' i k).flatMap polled).length ∧ expected ≤ m ∧
      tr' = tr ++ waitPoints ((List.range' i k).flatMap polled) := by
  induction passes generalizing i comps tr with
  | zero =>
    rcases Nat.lt_or_ge comps expected with hlt | hge
    · rw [waitForCompletions, if_pos hlt] at h
      cases h
    · rw [waitForCompletions_of_le polled expected hge] at h
      obtain ⟨rfl, rfl⟩ := Prod.mk.inj (Option.some_inj.mp h)
      exact ⟨0, rfl, hge, (List.append_nil _).symm⟩
  | succ passes ih =>
    rcases Nat.lt_or_ge comps expected with hlt | hge
    · rw [waitForCompletions, if_pos hlt] at h
      obtain ⟨k, rfl, hle, rfl⟩ := ih h
      refine ⟨k + 1, ?_, hle, ?_⟩
      · rw [List.range'_succ, List.flatMap_cons, List.length_append, Nat.add_assoc]
      · rw [List.range'_succ, List.flatMap_cons, waitPoints, waitPoints, List.flatMap_append,
          List.append_assoc]
    · rw [waitForCompletions_of_le polled expected hge] at h
      obtain ⟨rfl, rfl⟩ := Prod.mk.inj (Option.some_inj.mp h)
      exact ⟨0, rfl, hge, (List.append_nil _).symm⟩

theorem waitForCompletions_ends (passes i comps : ℕ) (tr : List TracePoint)
    (h : expected ≤ comps + ((List.range' i passes).flatMap polled).length) :
    ∃ m, waitForCompletions polled expected passes i comps tr = some m := by
  induction passes generalizing i comps tr with
  | zero => exact ⟨(comps, tr), waitForCompletions_of_le polled expected h 0 i tr⟩
  | succ passes ih =>
    rw [waitForCompletions]
    split_ifs with hlt
    · refine ih (i + 1) (comps + (polled i).length) _ ?_
      rwa [List.range'_succ, List.flatMap_cons, List.length_append, ← Nat.add_assoc] at h
    · exact ⟨(comps, tr), rfl⟩

end Wait

/-- **When the benchmark ends.** Suppose the device answers every posted descriptor with one completion.
The benchmark waits for as many completions as descriptors were posted, but does not count those it polled
when the command ring was full. So the wait ends exactly if no completion was polled then. -/
theorem benchmark_ends_iff (device : ℕ → RingAnswers) (toFloat : ℚ → BitVec 32)
    (tokens nRollouts : BitVec 32) (htokens : 0 ≤ tokens.toInt) {fuel : ℕ} (hfuel : tokens.toNat < fuel)
    {c : BenchContext} (hrun : benchmark fuel device toFloat tokens nRollouts = some c)
    (polled : ℕ → List Completion)
    (hone : ∀ k, c.metrics.descriptorsConsumed + ((List.range k).flatMap polled).length ≤
      c.metrics.descriptorsPosted)
    (hall : ∃ k, c.metrics.descriptorsConsumed + ((List.range k).flatMap polled).length =
      c.metrics.descriptorsPosted) :
    (∃ passes m, waitForCompletions polled c.metrics.descriptorsPosted passes 0 0 c.trace = some m) ↔
      ∀ i < c.windows, (device i).prepared → ¬ (device i).submitted → (device i).polled = [] := by
  obtain ⟨c', hrun', h, -⟩ := @benchmark_spec fuel device toFloat tokens htokens hfuel nRollouts
  obtain rfl := Option.some_inj.mp (hrun.symm.trans hrun')
  have hdisp := h.dispatched
  have hzero : c.metrics.descriptorsConsumed = 0 ↔
      ∀ i < c.windows, (device i).prepared → ¬ (device i).submitted → (device i).polled = [] := by
    rw [hdisp.polled, Finset.sum_eq_zero_iff]
    refine forall_congr' fun i => ?_
    rw [Finset.mem_range, retryPolled, ite_eq_right_iff, and_imp]
    simp only [List.length_eq_zero_iff]
  rw [← hzero]
  constructor
  · rintro ⟨passes, ⟨m, tr⟩, hwait⟩
    obtain ⟨k, rfl, hle, -⟩ := waitForCompletions_eq_some polled _ hwait
    have hk := hone k
    rw [List.range_eq_range'] at hk
    omega
  · intro hconsumed
    obtain ⟨k, hk⟩ := hall
    rw [List.range_eq_range'] at hk
    obtain ⟨m, hm⟩ := waitForCompletions_ends polled c.metrics.descriptorsPosted k 0 0 c.trace (by omega)
    exact ⟨k, m, hm⟩

/-- The benchmark of one rollout on a device that answers everything at the first poll ends. -/
theorem benchmark_ends_one :
    ∃ (c : BenchContext) (polled : ℕ → List Completion),
      benchmark 2 (fun _ => ⟨true, true, [], true⟩) (fun _ => 0) 1 1 = some c ∧
        ∃ passes m, waitForCompletions polled c.metrics.descriptorsPosted passes 0 0 c.trace = some m := by
  obtain ⟨c, hrun, h, -⟩ :=
    @benchmark_spec 2 (fun _ => ⟨true, true, [], true⟩) (fun _ => 0) 1 (by decide) (by decide) 1
  have hdisp := h.dispatched
  have hconsumed : c.metrics.descriptorsConsumed = 0 := by
    rw [hdisp.polled]
    exact Finset.sum_eq_zero fun i _ => rfl
  have hpolled (k : ℕ) : ((List.range (k + 1)).flatMap fun i =>
      if i = 0 then List.replicate c.metrics.descriptorsPosted (default : Completion) else []) =
      List.replicate c.metrics.descriptorsPosted default := by
    rw [List.range_succ_eq_map, List.flatMap_cons, if_pos rfl, List.flatMap_map]
    simp
  refine ⟨c, _, hrun, (benchmark_ends_iff _ _ 1 1 (by decide) (by decide) hrun
    (fun i => if i = 0 then List.replicate c.metrics.descriptorsPosted default else [])
    (fun k => ?_) ⟨1, ?_⟩).mpr fun _ _ _ hfull => absurd rfl hfull⟩
  · rw [hconsumed, Nat.zero_add]
    cases k with
    | zero => exact Nat.zero_le _
    | succ k => rw [hpolled, List.length_replicate]
  · rw [hconsumed, hpolled, List.length_replicate, Nat.zero_add]

end RolloutRuntime
