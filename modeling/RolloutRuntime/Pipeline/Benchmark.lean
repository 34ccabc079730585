import RolloutRuntime.Decode.Dispatch
import RolloutRuntime.Pipeline.Drain
import RolloutRuntime.Rollout.Slab
import RolloutRuntime.Trace.Ring

/-!
# The pipeline benchmark

The benchmark takes rollouts through the whole pipeline. It allocates a record for each, walks the record
through its states, admits it to the decode stage and, after every 32 admissions, schedules the decode
stage: the queued rollouts are dispatched to the device in windows of at most 32 steps and then finished,
with a hand-over to the reward ring and the trajectory and done queues, and their records are freed. The
results of the transitions, of the pushes and of the hand-over are ignored.

What the device does is a parameter: it decides, for every window, whether the command ring has room for
it, which completions are there to be polled if it has not, and whether there is room after that. A loop of
the source that may not end is given a number of passes, and returns nothing if they do not suffice.

The traced benchmark is the same program with an event recorded at each step; the model keeps these events
in the order in which they are recorded, without their timestamps.

The counters of the metrics are natural numbers; in the source they have 64 bits. A reward is the bit
pattern of a floating point number, which a parameter rounds the quotient to.

## Main definitions

* `RingAnswers`: what the rings answer to one window.
* `RuntimeMetrics`, `BenchContext`.
* `dispatchDecodeWindow`, `dispatchWindows`, `finishRollout`, `noteDecodeBatchMetrics`,
  `scheduleDecodeBatches`, `admitDecode`, `rolloutPass`, `rolloutLoop`, `drainDecode`, `benchmark`,
  `waitForCompletions`.

## References

* `bench/bench_pipeline.cu` lines 45–383, `bench/bench_trace_pipeline.cu` lines 169–411,
  `include/metrics.h`, `src/reward.c`.
-/

namespace RolloutRuntime

open Concurrency RingBuffer Trace

/-! ### The context -/

/-- The arguments of one call of `trace_push`. -/
structure TracePoint where
  type : TraceEvent
  rolloutId : BitVec 32
  seq : BitVec 32
  deriving DecidableEq, Repr

/-- The counters of `RuntimeMetrics` that the benchmark keeps. -/
structure RuntimeMetrics where
  descriptorsPosted : ℕ
  descriptorsConsumed : ℕ
  rewardHandoffs : ℕ
  ringFullSpins : ℕ
  rolloutsCompleted : ℕ
  pipelineOverflow : ℕ
  decodeBatches : ℕ
  decodeRolloutsScheduled : ℕ
  decodeBatchPeak : ℕ
  deriving DecidableEq, Repr

/-- The part of the benchmark's context that its loops work on. -/
structure BenchContext where
  pipeline : RolloutPipeline
  slab : RolloutSlab
  rewardRing : RewardRing
  metrics : RuntimeMetrics
  /-- The windows dispatched so far. -/
  windows : ℕ
  /-- The descriptors the command ring accepted. -/
  posted : List Descriptor
  /-- The transitions that were refused; the source ignores them. -/
  refused : ℕ
  /-- The events of the traced benchmark. -/
  trace : List TracePoint

/-- The context after `bench_init` and `pipeline_credits_set`. -/
def benchInit : BenchContext where
  pipeline := pipelineCreditsSet pipelineInit 256 128 128 1024
  slab := rolloutSlabInit
  rewardRing := Ring.zeroed 32 10 default
  metrics := ⟨0, 0, 0, 0, 0, 0, 0, 0, 0⟩
  windows := 0
  posted := []
  refused := 0
  trace := []

/-- `rollout_transition` with its result ignored. -/
def BenchContext.transition (c : BenchContext) (i : RolloutId) (src dst : RolloutState) : BenchContext :=
  let x := rolloutTransition c.slab i src dst
  { c with slab := x.2, refused := if x.1 then c.refused else c.refused + 1 }

/-- `pipeline_push` with its result ignored. -/
def BenchContext.push (c : BenchContext) (q : Stage) (rid : BitVec 32) : BenchContext :=
  { c with pipeline := (pipelinePush c.pipeline (some q) rid).2 }

/-- `trace_push`. -/
def BenchContext.tracePush (c : BenchContext) (ev : TraceEvent) (rid seq : BitVec 32) : BenchContext :=
  { c with trace := c.trace ++ [⟨ev, rid, seq⟩] }

/-! ### Dispatching a rollout -/

/-- `DECODE_BATCH_LIMIT`. -/
def decodeBatchLimit : BitVec 32 := 32

/-- How the device and the rings answer one call of `dispatch_decode_window`. -/
structure RingAnswers where
  /-- The kernels that prepare the slots were launched. -/
  prepared : Bool
  /-- The first submission finds room. -/
  submitted : Bool
  /-- The completions polled before the second submission. -/
  polled : List Completion
  /-- The second submission finds room. -/
  resubmitted : Bool
  deriving DecidableEq, Repr

/-- The event of a polled completion. -/
def completionPoint (ev : TraceEvent) (d : Completion) : TracePoint := ⟨ev, d.seqId.setWidth 32, d.tokenId⟩

/-- The descriptor of the step at place `i` of a window. -/
def windowDescriptor (rid stepStart kvBlockBase : BitVec 32) (i : ℕ) : Descriptor where
  seqId := rid.setWidth 64
  kvBlockOffset := (kvBlockBase + BitVec.ofNat 32 i) % 128
  numKvBlocks := 1
  attentionFlags := 0
  pad := 0
  outputTokenOffset := stepStart + BitVec.ofNat 32 i
  rewardCookie := rid.setWidth 64 <<< 32 ||| (stepStart + BitVec.ofNat 32 i).setWidth 64
  batchSize := 0
  batchIndex := 0

/-- The loop that fills a window, with `n` steps to go. -/
def fillWindow (rid stepStart kvBlockBase : BitVec 32) :
    ℕ → DecodeDispatchBatch → Option DecodeDispatchBatch
  | 0, b => some b
  | n + 1, b =>
    (decodeBatchPush b (windowDescriptor rid stepStart kvBlockBase b.descs.length)).bind
      (fillWindow rid stepStart kvBlockBase n)

/-- `dispatch_decode_window`; a submission of an empty window is refused. -/
def dispatchDecodeWindow (a : RingAnswers) (c : BenchContext)
    (rid stepStart stepCount kvBlockBase : BitVec 32) : Bool × BenchContext :=
  let c := { c with windows := c.windows + 1 }
  let n := if stepCount > 32 then 32 else stepCount
  match fillWindow rid stepStart kvBlockBase n.toNat decodeBatchReset with
  | none => (false, c)
  | some b =>
    let accept (c : BenchContext) : BenchContext :=
      { c with
        metrics := { c.metrics with descriptorsPosted := c.metrics.descriptorsPosted + b.descs.length }
        posted := c.posted ++ b.stamped
        trace := c.trace ++ b.descs.flatMap fun d =>
          [⟨.descPosted, rid, d.outputTokenOffset⟩, ⟨.descCommitted, rid, d.outputTokenOffset⟩] }
    if !a.prepared then (false, c)
    else if b.descs.length ≠ 0 ∧ a.submitted then (true, accept c)
    else
      let c := { c with
        metrics := { c.metrics with
          ringFullSpins := c.metrics.ringFullSpins + 1
          descriptorsConsumed := c.metrics.descriptorsConsumed + a.polled.length }
        trace := c.trace ++ a.polled.map (completionPoint .completionPolled) }
      if b.descs.length ≠ 0 ∧ a.resubmitted then (true, accept c) else (false, c)

section Loops

variable (fuel : ℕ) (device : ℕ → RingAnswers) (toFloat : ℚ → BitVec 32) (tokens : BitVec 32)

/-- The loop over the windows of a rollout, from step `t` on. -/
def dispatchWindows (rid : BitVec 32) :
    (passes : ℕ) → (t kvBlock : BitVec 32) → BenchContext → Option BenchContext
  | 0, _, _, _ => none
  | passes + 1, t, kvBlock, c =>
    if t < tokens then
      let window := if tokens - t > 32 then 32 else tokens - t
      match dispatchDecodeWindow (device c.windows) c rid t window kvBlock with
      | (false, c) =>
        some { c with metrics := { c.metrics with pipelineOverflow := c.metrics.pipelineOverflow + 1 } }
      | (true, c) => dispatchWindows rid passes (t + 32) ((kvBlock + window) % 128) c
    else some c

/-! ### Finishing a rollout -/

/-- `reward_score_mock`. -/
def rewardScoreMock (n : BitVec 32) : BitVec 32 := toFloat ((n &&& 0xFF).toNat / 255)

/-- The hand-over of a rollout to the reward ring. -/
def rewardDesc (rid : BitVec 32) : RewardDesc :=
  ⟨rid, 0, tokens, 0, rewardScoreMock toFloat tokens, 0⟩

/-- `finish_rollout`. -/
def finishRollout (c : BenchContext) (rid : BitVec 32) : BenchContext :=
  match rolloutGet rid with
  | none => c
  | some i =>
    let c := (c.transition i .decoding .rewardPending).push .reward rid
    let c := { c with
      rewardRing := ((rewardPush (rewardDesc toFloat tokens rid)).run Op.effect c.rewardRing).2
      metrics := { c.metrics with rewardHandoffs := c.metrics.rewardHandoffs + 1 } }
    let c := (c.tracePush .rewardPosted rid tokens).tracePush .rewardScored rid tokens
    let c := (c.transition i .rewardPending .trajectoryReady).push .trajectory rid
    let c := (c.transition i .trajectoryReady .done).push .done rid
    let c := { c with
      metrics := { c.metrics with rolloutsCompleted := c.metrics.rolloutsCompleted + 1 } }
    let c := c.tracePush .trajectoryDone rid tokens
    { c with slab := rolloutFree c.slab rid }.tracePush .rolloutFree rid 0

/-! ### Scheduling the decode stage -/

/-- `note_decode_batch_metrics`; on one thread the exchange succeeds at once. -/
def noteDecodeBatchMetrics (m : RuntimeMetrics) (batchSize : ℕ) : RuntimeMetrics :=
  { m with
    decodeBatches := m.decodeBatches + 1
    decodeRolloutsScheduled := m.decodeRolloutsScheduled + batchSize
    decodeBatchPeak := if m.decodeBatchPeak < batchSize then batchSize else m.decodeBatchPeak }

/-- At most `n` calls of `pipeline_schedule`, up to the first that finds nothing: the ids. -/
def scheduleBatch : ℕ → RolloutPipeline → List (BitVec 32) × RolloutPipeline
  | 0, p => ([], p)
  | n + 1, p =>
    match pipelineSchedule p (some .decode) with
    | (none, p) => ([], p)
    | (some rid, p) =>
      let x := scheduleBatch n p
      (rid :: x.1, x.2)

/-- The loop that dispatches and finishes the scheduled rollouts. -/
def serveRollouts : List (BitVec 32) → BenchContext → Option BenchContext
  | [], c => some c
  | rid :: rids, c =>
    (dispatchWindows device tokens rid fuel 0 (rid % 128) c).bind fun c =>
      serveRollouts rids (finishRollout toFloat tokens c rid)

/-- `schedule_decode_batches`: the number of rollouts launched. -/
def scheduleDecodeBatches (c : BenchContext) : Option (ℕ × BenchContext) :=
  let batch := pipelineStageTargetBatch c.pipeline (some .decode) decodeBatchLimit
  let batch := if batch > decodeBatchLimit then decodeBatchLimit else batch
  if batch = 0 then some (0, c)
  else
    let x := scheduleBatch batch.toNat c.pipeline
    let launched := x.1.length
    if launched = 0 then some (0, { c with pipeline := x.2 })
    else
      let c := { c with pipeline := x.2, metrics := noteDecodeBatchMetrics c.metrics launched }
      let c := c.tracePush .decodeBatch (BitVec.ofNat 32 launched) tokens
      (serveRollouts fuel device toFloat tokens x.1 c).map fun c =>
        (launched, { c with
          pipeline := pipelineRelease c.pipeline (some .decode) (BitVec.ofNat 32 launched) })

/-! ### The main loop -/

/-- The loop that admits a rollout to the decode stage, and schedules the stage if it is refused:
whether the rollout was admitted. -/
def admitDecode (rid : BitVec 32) : (passes : ℕ) → BenchContext → Option (Bool × BenchContext)
  | 0, _ => none
  | passes + 1, c =>
    match pipelineTryPush c.pipeline (some .decode) rid with
    | (true, p) => some (true, { c with pipeline := p })
    | (false, p) =>
      (scheduleDecodeBatches fuel device toFloat tokens { c with pipeline := p }).bind fun x =>
        if x.1 = 0 then
          some (false, { x.2 with
            metrics := { x.2.metrics with pipelineOverflow := x.2.metrics.pipelineOverflow + 1 } })
        else admitDecode rid passes x.2

/-- The record of rollout `r` after its allocation: the slab, and the walk to the decode stage. -/
def startRollout (c : BenchContext) (slab : RolloutSlab) (i : RolloutId) (r : ℕ) : BenchContext :=
  let c := c.tracePush .rolloutAlloc (BitVec.ofNat 32 i) 0
  let record := { slab.slots i with maxTokens := tokens, rngSeed := BitVec.ofNat 64 (42 + r) }
  let c := { c with slab := { slab with slots := Function.update slab.slots i record } }
  let c := (c.transition i .free .prefillReady).push .prefill (BitVec.ofNat 32 i)
  c.transition i .prefillReady .decoding

/-- One pass of the main loop, for rollout `r` and the given result of the allocation: whether the loop
goes on. It ends if there is no record. -/
def rolloutPass (r : ℕ) (c : BenchContext) : Option (RolloutId × RolloutSlab) → Option (Bool × BenchContext)
  | none => some (false, c)
  | some (i, slab) =>
    let rid := BitVec.ofNat 32 i
    (admitDecode fuel device toFloat tokens rid fuel (startRollout tokens c slab i r)).bind fun x =>
      if x.1 then
        if (r + 1) % 32 = 0 then
          (scheduleDecodeBatches fuel device toFloat tokens x.2).map fun y => (true, y.2)
        else some (true, x.2)
      else some (true, { x.2 with slab := rolloutFree x.2.slab rid }.tracePush .rolloutFree rid 0)

/-- The main loop, from rollout `r` on with `left` rollouts to go. -/
def rolloutLoop : (left r : ℕ) → BenchContext → Option BenchContext
  | 0, _, c => some c
  | left + 1, r, c =>
    (rolloutPass fuel device toFloat tokens r c (rolloutAlloc c.slab)).bind fun x =>
      if x.1 then rolloutLoop left (r + 1) x.2 else some x.2

/-- The loop that schedules the decode stage until it is empty. -/
def drainDecode : (passes : ℕ) → BenchContext → Option BenchContext
  | passes, c =>
    if pipelineOccupancy c.pipeline (some .decode) > 0 then
      match passes with
      | 0 => none
      | passes + 1 =>
        (scheduleDecodeBatches fuel device toFloat tokens c).bind fun x => drainDecode passes x.2
    else some c

/-- The loops of the benchmark, up to the wait for the last completions. A number of rollouts that is
not positive is none. -/
def benchmark (nRollouts : BitVec 32) : Option BenchContext :=
  (rolloutLoop fuel device toFloat tokens nRollouts.toInt.toNat 0 benchInit).bind
    (drainDecode fuel device toFloat tokens fuel)

end Loops

/-- The wait for the last completions: call `i` of `drain_completions` polls `polled i`. It returns the
number of completions and the events. -/
def waitForCompletions (polled : ℕ → List Completion) (expected : ℕ) :
    (passes i comps : ℕ) → List TracePoint → Option (ℕ × List TracePoint)
  | passes, i, comps, trace =>
    if comps < expected then
      match passes with
      | 0 => none
      | passes + 1 =>
        waitForCompletions polled expected passes (i + 1) (comps + (polled i).length)
          (trace ++ (polled i).flatMap fun d =>
            [completionPoint .descConsumed d, completionPoint .completionPolled d])
    else some (comps, trace)

end RolloutRuntime
