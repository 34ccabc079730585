import RolloutRuntime.Pipeline.Stages

/-!
# Runs of the pipeline

A run of the pipeline is any sequence of calls of its queue functions, for any stage and in any order.
What one call can do is said once, by `PipelineStep`: it is refused and changes nothing, or it appends an
id to one queue, takes the oldest id of one queue, or leaves all queues alone. From this the queues lose
no work: over a whole run the ids taken from a queue are a prefix of those pushed to it.

## Main definitions

* `Gate`: the stages whose admission is gated by credits.
* `PipelineCall`, `Reply`, `pipelineCall`, `pipelineRun`: calls, what they return, and runs.
* `PipelineStep`: what a call can do.

## Main results

* `pipelineCall_step`: a call does one of the steps.
* `pipeline_no_work_loss`: ids are taken in the order in which they were pushed, a call leaves the
  other queues alone, and a refused call changes nothing.

## References

* `src/pipeline.c` lines 46–206.
-/

namespace RolloutRuntime

open Concurrency RingBuffer

/-! ### The gated stages -/

/-- The stages whose admission is gated by credits. -/
inductive Gate
  | decode
  | reward
  | trajectory
  deriving DecidableEq, Repr

/-- The stage of a gate. -/
def Gate.stage : Gate → Stage
  | .decode => .decode
  | .reward => .reward
  | .trajectory => .trajectory

namespace PipelineCredits

/-- The limit of a gate. -/
def max (c : PipelineCredits) : Gate → BitVec 32
  | .decode => c.maxDecodeCredits
  | .reward => c.maxRewardCredits
  | .trajectory => c.maxTrajectoryCredits

/-- The credits used at a gate. -/
def used (c : PipelineCredits) : Gate → BitVec 32
  | .decode => c.decodeUsed
  | .reward => c.rewardUsed
  | .trajectory => c.trajectoryUsed

/-- The credits with those used at one gate replaced. -/
def setUsed (c : PipelineCredits) (g : Gate) (n : BitVec 32) : PipelineCredits :=
  match g with
  | .decode => { c with decodeUsed := n }
  | .reward => { c with rewardUsed := n }
  | .trajectory => { c with trajectoryUsed := n }

@[simp] theorem used_setUsed (c : PipelineCredits) (g : Gate) (n : BitVec 32) :
    (c.setUsed g n).used g = n := by
  cases g <;> rfl

theorem used_setUsed_of_ne (c : PipelineCredits) {g g' : Gate} (h : g' ≠ g) (n : BitVec 32) :
    (c.setUsed g n).used g' = c.used g' := by
  cases g <;> cases g' <;> first | rfl | exact absurd rfl h

@[simp] theorem max_setUsed (c : PipelineCredits) (g g' : Gate) (n : BitVec 32) :
    (c.setUsed g n).max g' = c.max g' := by
  cases g <;> cases g' <;> rfl

end PipelineCredits

theorem Gate.stage_injective {g g' : Gate} (h : g.stage = g'.stage) : g = g' := by
  cases g <;> cases g' <;> first | rfl | cases h

/-! ### The functions, without interference -/

section Functions

variable (p : RolloutPipeline)

/-- The ring with an id appended. -/
def idRingPushed (r : IdRing) (id : BitVec 32) : IdRing :=
  { r with
    slots := Function.update r.slots (mask 12 r.prod) id
    prod := r.prod + 1
    published := r.published ++ [id] }

/-- The ring with its oldest id taken out. -/
def idRingPopped (r : IdRing) : IdRing :=
  { r with
    cons := r.cons + 1
    taken := r.taken ++ [r.slots (mask 12 r.cons)] }

theorem idRingPush_run (id : BitVec 32) (r : IdRing) : (idRingPush id).run Op.effect r =
    if spaceTest 12 r.prod r.cons 1 then (false, r) else (true, idRingPushed r id) := by
  rw [idRingPush, push_run rfl, idRingPushed]

theorem idRingPop_run (r : IdRing) : idRingPop.run Op.effect r =
    if orderedEmpty r.cons r.prod then (none, r)
    else (some (r.slots (mask 12 r.cons)), idRingPopped r) :=
  consume_run _ r

/-- The pipeline with an id appended to a queue. -/
def RolloutPipeline.pushed (q : Stage) (id : BitVec 32) : RolloutPipeline :=
  { p with queues := Function.update p.queues q (idRingPushed (p.queues q) id) }

/-- The oldest id of a queue. -/
def RolloutPipeline.oldest (q : Stage) : BitVec 32 := (p.queues q).slots (mask 12 (p.queues q).cons)

/-- The pipeline with the oldest id of a queue taken out. -/
def RolloutPipeline.popped (q : Stage) : RolloutPipeline :=
  { p with queues := Function.update p.queues q (idRingPopped (p.queues q)) }

@[simp] theorem RolloutPipeline.pushed_queues (q : Stage) (id : BitVec 32) :
    (p.pushed q id).queues q = idRingPushed (p.queues q) id :=
  Function.update_self _ _ _

@[simp] theorem RolloutPipeline.popped_queues (q : Stage) :
    (p.popped q).queues q = idRingPopped (p.queues q) :=
  Function.update_self _ _ _

@[simp] theorem RolloutPipeline.pushed_queues_of_ne {q q' : Stage} (h : q' ≠ q) (id : BitVec 32) :
    (p.pushed q id).queues q' = p.queues q' :=
  Function.update_of_ne h _ _

@[simp] theorem RolloutPipeline.popped_queues_of_ne {q q' : Stage} (h : q' ≠ q) :
    (p.popped q).queues q' = p.queues q' :=
  Function.update_of_ne h _ _

/-- The queue has no room. -/
def RolloutPipeline.full (q : Stage) : Bool := spaceTest 12 (p.queues q).prod (p.queues q).cons 1

/-- The queue is reported empty. -/
def RolloutPipeline.drained (q : Stage) : Bool := orderedEmpty (p.queues q).cons (p.queues q).prod

theorem pipelinePush_some (q : Stage) (id : BitVec 32) :
    pipelinePush p (some q) id = if p.full q then (false, p) else (true, p.pushed q id) := by
  simp only [pipelinePush, idRingPush_run]
  by_cases h : p.full q = true
  · have htest : spaceTest 12 (p.queues q).prod (p.queues q).cons 1 = true := h
    rw [if_pos htest, if_pos h]
    simp only [Function.update_eq_self]
  · have htest : ¬ spaceTest 12 (p.queues q).prod (p.queues q).cons 1 = true := h
    rw [if_neg htest, if_neg h]
    rfl

theorem pipelineTryPush_gate (g : Gate) (id : BitVec 32) :
    pipelineTryPush p (some g.stage) id =
      if p.credits.max g ≠ 0 ∧ p.credits.used g ≥ p.credits.max g then (false, p)
      else if p.full g.stage then (false, p)
      else (true, { p.pushed g.stage id with
        credits := p.credits.setUsed g (p.credits.used g + 1) }) := by
  have hgated : pipelineTryPush p (some g.stage) id =
      gatedPush p g.stage id (p.credits.max g) (p.credits.used g)
        fun c => c.setUsed g (c.used g + 1) := by
    cases g <;> rfl
  rw [hgated, gatedPush, pipelinePush_some]
  by_cases h : p.full g.stage = true
  · rw [if_pos h, if_pos h]
  · rw [if_neg h, if_neg h]
    rfl

theorem pipelineTryPush_of_ungated {q : Option Stage} (hq : ∀ g : Gate, q ≠ some g.stage)
    (id : BitVec 32) : pipelineTryPush p q id = pipelinePush p q id := by
  rcases q with _ | _ | _ | _ | _ | _ | _
  · rfl
  · rfl
  · rfl
  · exact absurd rfl (hq .decode)
  · exact absurd rfl (hq .reward)
  · exact absurd rfl (hq .trajectory)
  · rfl

theorem pipelinePop_some (q : Stage) :
    pipelinePop p (some q) = if p.drained q then (none, p) else (some (p.oldest q), p.popped q) := by
  simp only [pipelinePop, idRingPop_run]
  by_cases h : p.drained q = true
  · have htest : orderedEmpty (p.queues q).cons (p.queues q).prod = true := h
    rw [if_pos htest, if_pos h]
    simp only [Function.update_eq_self]
  · have htest : ¬ orderedEmpty (p.queues q).cons (p.queues q).prod = true := h
    rw [if_neg htest, if_neg h]
    rfl

theorem pipelineRelease_gate (g : Gate) (n : BitVec 32) :
    pipelineRelease p (some g.stage) n =
      { p with credits := p.credits.setUsed g (releaseCredits (p.credits.used g) n) } := by
  cases g <;> rfl

theorem pipelineRelease_of_ungated {q : Option Stage} (hq : ∀ g : Gate, q ≠ some g.stage)
    (n : BitVec 32) : pipelineRelease p q n = p := by
  rcases q with _ | _ | _ | _ | _ | _ | _
  · rfl
  · rfl
  · rfl
  · exact absurd rfl (hq .decode)
  · exact absurd rfl (hq .reward)
  · exact absurd rfl (hq .trajectory)
  · rfl

theorem pipelineStageAvailableCredits_gate (g : Gate) :
    pipelineStageAvailableCredits p (some g.stage) = headroom (p.credits.max g) (p.credits.used g) := by
  cases g <;> rfl

end Functions

/-! ### Calls and runs -/

/-- The calls of the pipeline, and a direct store to its policy. -/
inductive PipelineCall
  | push (q : Option Stage) (id : BitVec 32)
  | tryPush (q : Option Stage) (id : BitVec 32)
  | pop (q : Option Stage)
  | schedule (q : Option Stage)
  | release (q : Option Stage) (n : BitVec 32)
  | creditsSet (maxDecode maxReward maxTrajectory kvLimit : BitVec 32)
  | setSchedulePolicy (policy : SchedulePolicy)
  | storePolicy (policy : SchedulePolicy)

/-- What a call returns: `-1`, zero or nothing, or zero and an id. -/
inductive Reply
  | refused
  | ok
  | took (id : BitVec 32)
  deriving DecidableEq

/-- The reply of a function that returns a code. -/
def Reply.ofCode (ok : Bool) : Reply := if ok then .ok else .refused

/-- The reply of a function that returns an id. -/
def Reply.ofTaken : Option (BitVec 32) → Reply
  | none => .refused
  | some id => .took id

/-- One call: its reply, and the pipeline after it. -/
def pipelineCall (p : RolloutPipeline) : PipelineCall → Reply × RolloutPipeline
  | .push q id => (pipelinePush p q id).map Reply.ofCode fun p => p
  | .tryPush q id => (pipelineTryPush p q id).map Reply.ofCode fun p => p
  | .pop q => (pipelinePop p q).map Reply.ofTaken fun p => p
  | .schedule q => (pipelineSchedule p q).map Reply.ofTaken fun p => p
  | .release q n => (.ok, pipelineRelease p q n)
  | .creditsSet maxDecode maxReward maxTrajectory kvLimit =>
    (.ok, pipelineCreditsSet p maxDecode maxReward maxTrajectory kvLimit)
  | .setSchedulePolicy policy => (pipelineSetSchedulePolicy p policy).map Reply.ofCode fun p => p
  | .storePolicy policy => (.ok, { p with policy := policy })

/-- A run of calls: the replies, and the pipeline after it. -/
def pipelineRun (p : RolloutPipeline) : List PipelineCall → List (PipelineCall × Reply) × RolloutPipeline
  | [] => ([], p)
  | c :: cs =>
    let x := pipelineCall p c
    let y := pipelineRun x.2 cs
    ((c, x.1) :: y.1, y.2)

/-- The queue a call is about, if any. -/
def PipelineCall.queue : PipelineCall → Option Stage
  | .push q _ => q
  | .tryPush q _ => q
  | .pop q => q
  | .schedule q => q
  | _ => none

/-- The id that a call with this reply pushed to a queue. -/
def pushedTo (q : Stage) : PipelineCall × Reply → List (BitVec 32)
  | (.push q' id, .ok) => if q' = some q then [id] else []
  | (.tryPush q' id, .ok) => if q' = some q then [id] else []
  | _ => []

/-- The id that a call with this reply took from a queue. -/
def takenFrom (q : Stage) : PipelineCall × Reply → List (BitVec 32)
  | (.pop q', .took id) => if q' = some q then [id] else []
  | (.schedule q', .took id) => if q' = some q then [id] else []
  | _ => []

/-! ### What a call can do -/

/-- What a call can do, with its reply. -/
inductive PipelineStep (p : RolloutPipeline) : PipelineCall → Reply → RolloutPipeline → Prop
  | refused (c : PipelineCall) : PipelineStep p c .refused p
  | push (q : Stage) (id : BitVec 32) (hroom : p.full q = false) :
      PipelineStep p (.push (some q) id) .ok (p.pushed q id)
  | pass (q : Stage) (id : BitVec 32) (hq : ∀ g : Gate, q ≠ g.stage) (hroom : p.full q = false) :
      PipelineStep p (.tryPush (some q) id) .ok (p.pushed q id)
  | enter (g : Gate) (id : BitVec 32)
      (hcredit : p.credits.max g = 0 ∨ p.credits.used g < p.credits.max g)
      (hroom : p.full g.stage = false) :
      PipelineStep p (.tryPush (some g.stage) id) .ok
        { p.pushed g.stage id with credits := p.credits.setUsed g (p.credits.used g + 1) }
  | pop (q : Stage) (hne : p.drained q = false) :
      PipelineStep p (.pop (some q)) (.took (p.oldest q)) (p.popped q)
  | schedule (q : Stage) (hpolicy : p.policy = .fifo) (hne : p.drained q = false) :
      PipelineStep p (.schedule (some q)) (.took (p.oldest q)) (p.popped q)
  | release (g : Gate) (n : BitVec 32) :
      PipelineStep p (.release (some g.stage) n) .ok
        { p with credits := p.credits.setUsed g (releaseCredits (p.credits.used g) n) }
  | releaseNone (q : Option Stage) (n : BitVec 32) (hq : ∀ g : Gate, q ≠ some g.stage) :
      PipelineStep p (.release q n) .ok p
  | creditsSet (maxDecode maxReward maxTrajectory kvLimit : BitVec 32) :
      PipelineStep p (.creditsSet maxDecode maxReward maxTrajectory kvLimit) .ok
        (pipelineCreditsSet p maxDecode maxReward maxTrajectory kvLimit)
  | setSchedulePolicy :
      PipelineStep p (.setSchedulePolicy .fifo) .ok { p with policy := .fifo }
  | storePolicy (policy : SchedulePolicy) :
      PipelineStep p (.storePolicy policy) .ok { p with policy := policy }

theorem gate_or_not (q : Option Stage) : (∃ g : Gate, q = some g.stage) ∨ ∀ g : Gate, q ≠ some g.stage := by
  by_cases h : ∃ g : Gate, q = some g.stage
  · exact .inl h
  · exact .inr fun g hg => h ⟨g, hg⟩

/-- **Every call does one of the steps.** -/
theorem pipelineCall_step (p : RolloutPipeline) (c : PipelineCall) :
    PipelineStep p c (pipelineCall p c).1 (pipelineCall p c).2 := by
  cases c with
  | push q id =>
    rcases q with _ | q
    · exact .refused _
    · simp only [pipelineCall, pipelinePush_some]
      split_ifs with hfull
      · exact .refused _
      · exact .push q id (Bool.not_eq_true _ ▸ hfull)
  | tryPush q id =>
    rcases gate_or_not q with ⟨g, rfl⟩ | hq
    · simp only [pipelineCall, pipelineTryPush_gate]
      split_ifs with hcredit hfull
      · exact .refused _
      · exact .refused _
      · refine .enter g id ?_ (Bool.not_eq_true _ ▸ hfull)
        rcases not_and_or.mp hcredit with h | h
        · exact .inl (not_not.mp h)
        · exact .inr (BitVec.not_le.mp h)
    · simp only [pipelineCall, pipelineTryPush_of_ungated p hq]
      rcases q with _ | q
      · exact .refused _
      · simp only [pipelinePush_some]
        split_ifs with hfull
        · exact .refused _
        · exact .pass q id (fun g hg => hq g (congrArg some hg)) (Bool.not_eq_true _ ▸ hfull)
  | pop q =>
    rcases q with _ | q
    · exact .refused _
    · simp only [pipelineCall, pipelinePop_some]
      split_ifs with hne
      · exact .refused _
      · exact .pop q (Bool.not_eq_true _ ▸ hne)
  | schedule q =>
    rcases q with _ | q
    · exact .refused _
    · simp only [pipelineCall, pipelineSchedule, pipelinePop_some]
      split_ifs with hpolicy hne
      · exact .refused _
      · exact .schedule q hpolicy (Bool.not_eq_true _ ▸ hne)
      · exact .refused _
  | release q n =>
    rcases gate_or_not q with ⟨g, rfl⟩ | hq
    · simp only [pipelineCall, pipelineRelease_gate]
      exact .release g n
    · simp only [pipelineCall, pipelineRelease_of_ungated p hq]
      exact .releaseNone q n hq
  | creditsSet maxDecode maxReward maxTrajectory kvLimit => exact .creditsSet _ _ _ _
  | setSchedulePolicy policy =>
    simp only [pipelineCall, pipelineSetSchedulePolicy]
    split_ifs with hpolicy
    · exact .refused _
    · obtain rfl := not_not.mp hpolicy
      exact .setSchedulePolicy
  | storePolicy policy => exact .storePolicy policy

/-! ### What a run does to the queues -/

section Step

variable {p p' : RolloutPipeline} {c : PipelineCall} {r : Reply} {q : Stage}

theorem pushed_queue (hr : (p.queues q).Inv) (hroom : p.full q = false) (id : BitVec 32) :
    ((p.pushed q id).queues q).Inv ∧
      ((p.pushed q id).queues q).published = (p.queues q).published ++ [id] ∧
      ((p.pushed q id).queues q).taken = (p.queues q).taken := by
  have htest : ¬ spaceTest 12 (p.queues q).prod (p.queues q).cons 1 = true := by
    rw [Bool.not_eq_true]
    exact hroom
  obtain ⟨ok, ring, hrun, hinv, -⟩ := idRingPush_spec id hr
  rw [idRingPush_run, if_neg htest] at hrun
  obtain ⟨-, rfl⟩ := Prod.mk.inj hrun
  rw [RolloutPipeline.pushed_queues]
  exact ⟨hinv, rfl, rfl⟩

theorem popped_queue (hr : (p.queues q).Inv) (hne : p.drained q = false) :
    ((p.popped q).queues q).Inv ∧
      ((p.popped q).queues q).published = (p.queues q).published ∧
      ((p.popped q).queues q).taken = (p.queues q).taken ++ [p.oldest q] := by
  have htest : ¬ orderedEmpty (p.queues q).cons (p.queues q).prod = true := by
    rw [Bool.not_eq_true]
    exact hne
  obtain ⟨x, ring, hrun, hinv, -⟩ := idRingPop_inv hr
  rw [idRingPop_run, if_neg htest] at hrun
  obtain ⟨-, rfl⟩ := Prod.mk.inj hrun
  rw [RolloutPipeline.popped_queues]
  exact ⟨hinv, rfl, rfl⟩

/-- A refused call changes nothing. -/
theorem PipelineStep.eq_of_refused (h : PipelineStep p c .refused p') : p' = p := by
  cases h
  rfl

/-- A call leaves the queues it is not about alone. -/
theorem PipelineStep.queues_of_ne (h : PipelineStep p c r p') (hq : c.queue ≠ some q) :
    p'.queues q = p.queues q := by
  cases h with
  | push q' id hroom => exact p.pushed_queues_of_ne (fun h => hq (congrArg some h.symm)) id
  | pass q' id _ hroom => exact p.pushed_queues_of_ne (fun h => hq (congrArg some h.symm)) id
  | enter g id _ hroom => exact p.pushed_queues_of_ne (fun h => hq (congrArg some h.symm)) id
  | pop q' hne => exact p.popped_queues_of_ne fun h => hq (congrArg some h.symm)
  | schedule q' _ hne => exact p.popped_queues_of_ne fun h => hq (congrArg some h.symm)
  | refused | release | releaseNone | creditsSet | setSchedulePolicy | storePolicy => rfl

theorem lists_of_ne (hq : c.queue ≠ some q) : pushedTo q (c, r) = [] ∧ takenFrom q (c, r) = [] := by
  cases c with
  | push q' id | tryPush q' id =>
    cases r <;> simp only [pushedTo, takenFrom, if_neg (show ¬ q' = some q from hq), and_self]
  | pop q' | schedule q' =>
    cases r <;> simp only [pushedTo, takenFrom, if_neg (show ¬ q' = some q from hq), and_self]
  | release | creditsSet | setSchedulePolicy | storePolicy => exact ⟨rfl, rfl⟩

/-- What a call does to a queue is what its reply says. -/
theorem PipelineStep.queue (h : PipelineStep p c r p') (hr : (p.queues q).Inv) :
    (p'.queues q).Inv ∧
      (p'.queues q).published = (p.queues q).published ++ pushedTo q (c, r) ∧
      (p'.queues q).taken = (p.queues q).taken ++ takenFrom q (c, r) := by
  by_cases hq : c.queue = some q
  · cases h with
    | refused =>
      cases c <;> exact ⟨hr, (List.append_nil _).symm, (List.append_nil _).symm⟩
    | push q' id hroom | pass q' id _ hroom | enter g id _ hroom =>
      obtain rfl := Option.some_inj.mp hq
      simp only [pushedTo, takenFrom, if_true, List.append_nil]
      exact pushed_queue hr hroom id
    | pop q' hne | schedule q' _ hne =>
      obtain rfl := Option.some_inj.mp hq
      simp only [pushedTo, takenFrom, if_true, List.append_nil]
      exact popped_queue hr hne
    | release | releaseNone | creditsSet | setSchedulePolicy | storePolicy => cases hq
  · obtain ⟨hpush, htake⟩ := lists_of_ne (r := r) hq
    rw [h.queues_of_ne hq, hpush, htake, List.append_nil, List.append_nil]
    exact ⟨hr, rfl, rfl⟩

/-- **What a run does to a queue** is what its replies say. -/
theorem pipelineRun_queue (cs : List PipelineCall) (p : RolloutPipeline) (q : Stage)
    (hr : (p.queues q).Inv) :
    ((pipelineRun p cs).2.queues q).Inv ∧
      ((pipelineRun p cs).2.queues q).published =
        (p.queues q).published ++ (pipelineRun p cs).1.flatMap (pushedTo q) ∧
      ((pipelineRun p cs).2.queues q).taken =
        (p.queues q).taken ++ (pipelineRun p cs).1.flatMap (takenFrom q) := by
  induction cs generalizing p with
  | nil => exact ⟨hr, (List.append_nil _).symm, (List.append_nil _).symm⟩
  | cons c cs ih =>
    obtain ⟨hr', hpub, htaken⟩ := (pipelineCall_step p c).queue hr
    obtain ⟨hr'', hpub', htaken'⟩ := ih (pipelineCall p c).2 hr'
    simp only [pipelineRun, List.flatMap_cons]
    rw [hpub', htaken', hpub, htaken, List.append_assoc, List.append_assoc]
    exact ⟨hr'', rfl, rfl⟩

theorem pipelineRun_inv (cs : List PipelineCall) (q : Stage) :
    ((pipelineRun pipelineInit cs).2.queues q).Inv :=
  (pipelineRun_queue cs pipelineInit q (Ring.zeroed_inv _)).1

end Step

/-- **No work is lost.** In every run of calls from the start, the ids taken from a queue are a prefix of
those pushed to it. In the state reached, a call leaves the queues it is not about alone, and a call that
is refused changes nothing at all. -/
theorem pipeline_no_work_loss (cs : List PipelineCall) :
    (∀ q, (pipelineRun pipelineInit cs).1.flatMap (takenFrom q) <+:
      (pipelineRun pipelineInit cs).1.flatMap (pushedTo q)) ∧
    ∀ c, (∀ q, c.queue ≠ some q →
        (pipelineCall (pipelineRun pipelineInit cs).2 c).2.queues q =
          (pipelineRun pipelineInit cs).2.queues q) ∧
      ((pipelineCall (pipelineRun pipelineInit cs).2 c).1 = .refused →
        (pipelineCall (pipelineRun pipelineInit cs).2 c).2 = (pipelineRun pipelineInit cs).2) := by
  refine ⟨fun q => ?_, fun c => ⟨fun q hq => (pipelineCall_step _ c).queues_of_ne hq, fun href => ?_⟩⟩
  · obtain ⟨hr, hpub, htaken⟩ := pipelineRun_queue cs pipelineInit q (Ring.zeroed_inv _)
    have hle := Contents.taken_le hr
    rw [hpub, htaken] at hle
    exact hle
  · have hstep := pipelineCall_step (pipelineRun pipelineInit cs).2 c
    rw [href] at hstep
    exact hstep.eq_of_refused

end RolloutRuntime
