import RolloutRuntime.Rings.Progress

/-!
# The stages of the rollout pipeline

The pipeline keeps one ring of rollout ids for each of its six stages. Admission to three of the stages
is gated by credits: a push takes a credit, and the credits of finished rollouts are released by the
caller. A batch window for a stage is suggested from the occupancy of its ring and the credits left.

The functions run on one thread, so the ring programs are run without interference. A stage is passed
as a number in the source; here `none` stands for a number that names no stage. Return codes are
booleans, `true` for zero. The slab of rollouts is no part of these functions.

## Main definitions

* `Stage`, `PipelineCredits`, `RolloutPipeline`.
* `pipelinePush`, `pipelinePop`, `pipelineTryPush`, `pipelineRelease`,
  `pipelineSetSchedulePolicy`, `pipelineSchedule`, `pipelineOccupancy`,
  `pipelineStageAvailableCredits`, `pipelineStageTargetBatch`.

## Main results

* `idRingPush_spec`, `idRingPop_inv`, `idRingPop_spec`: the two ends of a ring without interference.

## References

* `include/pipeline.h`, `src/pipeline.c`.
-/

namespace RolloutRuntime

open Concurrency RingBuffer

/-! ### The state -/

/-- `pipeline_q_t`. -/
inductive Stage
  | free
  | prefill
  | decode
  | reward
  | trajectory
  | done
  deriving DecidableEq, Repr

/-- `PipelineCredits`. -/
structure PipelineCredits where
  maxDecodeCredits : BitVec 32
  maxRewardCredits : BitVec 32
  maxTrajectoryCredits : BitVec 32
  kvBlockLimit : BitVec 32
  decodeUsed : BitVec 32
  rewardUsed : BitVec 32
  trajectoryUsed : BitVec 32
  kvBlocksUsed : BitVec 32
  deriving DecidableEq, Repr

/-- `SchedulePolicy`. -/
inductive SchedulePolicy
  | fifo
  | shortestRemaining
  | prefixSharing
  deriving DecidableEq, Repr

/-- The rings, the credits and the policy of a `RolloutPipeline`. -/
structure RolloutPipeline where
  queues : Stage → IdRing
  credits : PipelineCredits
  policy : SchedulePolicy

/-- `pipeline_init`. -/
def pipelineInit : RolloutPipeline :=
  ⟨fun _ => Ring.zeroed 32 12 0, ⟨0, 0, 0, 0, 0, 0, 0, 0⟩, .fifo⟩

/-- `pipeline_credits_set`. -/
def pipelineCreditsSet (p : RolloutPipeline) (maxDecode maxReward maxTrajectory kvLimit : BitVec 32) :
    RolloutPipeline :=
  { p with credits := { p.credits with
      maxDecodeCredits := maxDecode
      maxRewardCredits := maxReward
      maxTrajectoryCredits := maxTrajectory
      kvBlockLimit := kvLimit } }

/-! ### The queues -/

/-- `pipeline_push`. -/
def pipelinePush (p : RolloutPipeline) (q : Option Stage) (rolloutId : BitVec 32) :
    Bool × RolloutPipeline :=
  match q with
  | none => (false, p)
  | some q =>
    let x := (idRingPush rolloutId).run Op.effect (p.queues q)
    (x.1, { p with queues := Function.update p.queues q x.2 })

/-- `pipeline_pop`. -/
def pipelinePop (p : RolloutPipeline) (q : Option Stage) : Option (BitVec 32) × RolloutPipeline :=
  match q with
  | none => (none, p)
  | some q =>
    let x := idRingPop.run Op.effect (p.queues q)
    (x.1, { p with queues := Function.update p.queues q x.2 })

/-- The common part of the gated stages of `pipeline_try_push`: refuse if the credits are used up, and
count the credit of an accepted push. A limit of zero stands for no limit. -/
def gatedPush (p : RolloutPipeline) (q : Stage) (rolloutId max used : BitVec 32)
    (count : PipelineCredits → PipelineCredits) : Bool × RolloutPipeline :=
  if max ≠ 0 ∧ used ≥ max then (false, p)
  else
    match pipelinePush p (some q) rolloutId with
    | (false, p) => (false, p)
    | (true, p) => (true, { p with credits := count p.credits })

/-- `pipeline_try_push`. -/
def pipelineTryPush (p : RolloutPipeline) (q : Option Stage) (rolloutId : BitVec 32) :
    Bool × RolloutPipeline :=
  match q with
  | some .decode =>
    gatedPush p .decode rolloutId p.credits.maxDecodeCredits p.credits.decodeUsed
      fun c => { c with decodeUsed := c.decodeUsed + 1 }
  | some .reward =>
    gatedPush p .reward rolloutId p.credits.maxRewardCredits p.credits.rewardUsed
      fun c => { c with rewardUsed := c.rewardUsed + 1 }
  | some .trajectory =>
    gatedPush p .trajectory rolloutId p.credits.maxTrajectoryCredits p.credits.trajectoryUsed
      fun c => { c with trajectoryUsed := c.trajectoryUsed + 1 }
  | q => pipelinePush p q rolloutId

/-- The credits used after `n` of them are released. -/
def releaseCredits (used n : BitVec 32) : BitVec 32 := if n > used then 0 else used - n

/-- `pipeline_release`. -/
def pipelineRelease (p : RolloutPipeline) (q : Option Stage) (n : BitVec 32) : RolloutPipeline :=
  match q with
  | some .decode =>
    { p with credits := { p.credits with decodeUsed := releaseCredits p.credits.decodeUsed n } }
  | some .reward =>
    { p with credits := { p.credits with rewardUsed := releaseCredits p.credits.rewardUsed n } }
  | some .trajectory =>
    { p with credits :=
        { p.credits with trajectoryUsed := releaseCredits p.credits.trajectoryUsed n } }
  | _ => p

/-- `pipeline_set_schedule_policy`; the policies other than first-in first-out are rejected. -/
def pipelineSetSchedulePolicy (p : RolloutPipeline) (policy : SchedulePolicy) :
    Bool × RolloutPipeline :=
  if policy ≠ .fifo then (false, p) else (true, { p with policy := policy })

/-- `pipeline_schedule`; the policies other than first-in first-out schedule nothing. -/
def pipelineSchedule (p : RolloutPipeline) (q : Option Stage) :
    Option (BitVec 32) × RolloutPipeline :=
  match q with
  | none => (none, p)
  | some q => if p.policy = .fifo then pipelinePop p (some q) else (none, p)

/-! ### Batch windows -/

/-- `pipeline_occupancy`. -/
def pipelineOccupancy (p : RolloutPipeline) (q : Option Stage) : BitVec 32 :=
  match q with
  | none => 0
  | some q => (p.queues q).prod - (p.queues q).cons

/-- The credits left. -/
def headroom (max used : BitVec 32) : BitVec 32 := if max > used then max - used else 0

/-- `pipeline_stage_available_credits`. -/
def pipelineStageAvailableCredits (p : RolloutPipeline) (q : Option Stage) : BitVec 32 :=
  match q with
  | some .decode => headroom p.credits.maxDecodeCredits p.credits.decodeUsed
  | some .reward => headroom p.credits.maxRewardCredits p.credits.rewardUsed
  | some .trajectory => headroom p.credits.maxTrajectoryCredits p.credits.trajectoryUsed
  | _ => BitVec.allOnes 32

/-- `pipeline_stage_target_batch`. -/
def pipelineStageTargetBatch (p : RolloutPipeline) (q : Option Stage) (maxBatch : BitVec 32) :
    BitVec 32 :=
  let occ := pipelineOccupancy p q
  let credit := pipelineStageAvailableCredits p q
  let limit := if credit ≠ BitVec.allOnes 32 ∧ credit < maxBatch then credit else maxBatch
  if occ < limit then occ else limit

/-! ### The rings without interference -/

/-- A push appends the id, or changes neither list. -/
theorem idRingPush_spec (id : BitVec 32) {r : IdRing} (hr : r.Inv) :
    ∃ ok r', (idRingPush id).run Op.effect r = (ok, r') ∧ r'.Inv ∧ r'.taken = r.taken ∧
      r'.published = r.published ++ if ok then [id] else [] := by
  have hok : (spsc 32 12 (unguarded _)).Ok .producer _ (idRingPush id) r :=
    push_ok (by decide) (roomSound_spaceTest (by decide) true false 1) hr trivial
  obtain ⟨ok, r', hrun, hinv, htaken, hpub, -⟩ := producer_run_of_ok hr hok
  exact ⟨ok, r', hrun, hinv, htaken, hpub⟩

/-- A pop keeps the ring in order and publishes nothing. -/
theorem idRingPop_inv {r : IdRing} (hr : r.Inv) :
    ∃ x r', idRingPop.run Op.effect r = (x, r') ∧ r'.Inv ∧ r'.published = r.published := by
  have hok : (spsc 32 12 (unguarded _)).Ok .consumer _ idRingPop r :=
    consume_ok (by decide) emptySound_orderedEmpty
  obtain ⟨x, r', hrun, hinv, -⟩ := run_of_ok hr hok
  refine ⟨x, r', hrun, hinv, ?_⟩
  rw [idRingPop, consume_run] at hrun
  split_ifs at hrun <;>
  · obtain ⟨rfl, rfl⟩ := Prod.mk.inj hrun
    rfl

/-- Before the indices wrap, a pop from a ring with an element takes the oldest one. -/
theorem idRingPop_spec {r : IdRing} (hr : r.Inv) (hwrap : r.published.length < 2 ^ 32)
    (hlt : r.taken.length < r.published.length) :
    ∃ id r', idRingPop.run Op.effect r = (some id, r') ∧ r'.Inv ∧ r'.published = r.published ∧
      r'.taken = r.taken ++ [id] := by
  have hcons : r.cons.toNat = r.taken.length := by
    rw [hr.cons_eq, BitVec.toNat_ofNat, Nat.mod_eq_of_lt (by omega)]
  have hprod : r.prod.toNat = r.published.length := by
    rw [hr.prod_eq, BitVec.toNat_ofNat, Nat.mod_eq_of_lt hwrap]
  have hne : ¬ orderedEmpty r.cons r.prod = true := by
    simp only [orderedEmpty, ge_iff_le, decide_eq_true_eq, BitVec.le_def]
    omega
  have hold := Contents.oldest hr (by decide) hlt
  refine ⟨r.slots (mask 12 r.cons), { r with
    cons := r.cons + 1
    taken := r.taken ++ [r.slots (mask 12 r.cons)] }, ?_, Contents.take hr hold, rfl, rfl⟩
  rw [idRingPop, consume_run, if_neg hne]

end RolloutRuntime
