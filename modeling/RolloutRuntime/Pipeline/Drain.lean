import RolloutRuntime.Pipeline.Queues

/-!
# Draining the decode stage

A caller admits rollouts to the decode stage by `pipeline_try_push` and empties the stage by a drain
cycle: it asks for a batch window, schedules that many rollouts and releases their credits. In such a
run the credits used are the rollouts in the queue. The batch window is bounded by the credits left,
though, so on a stage that admission has filled to its credit limit the window is zero: the cycle takes
nothing and releases nothing, and no further rollout is ever admitted.

## Main definitions

* `drainCycle`, `DecodeCall`, `decodeRun`: the drain cycle, and runs of admissions and drain cycles.
* `Drains`: the drain cycle takes a rollout and frees a credit, if there is a rollout to take.

## Main results

* `foldl_balanced`: before the indices wrap, the credits used are the rollouts in the queue.
* `decodeStage_drains_iff`: the stage drains exactly if it is not filled to its limit.

## References

* `src/pipeline.c` lines 81–129 and 218–253, `bench/bench_pipeline.cu` lines 271–312 and 362–383.
-/

namespace RolloutRuntime

open Concurrency RingBuffer

/-! ### Runs of the decode stage -/

/-- `n` calls of `pipeline_schedule`: the ids of those that succeed. -/
def scheduleMany : ℕ → RolloutPipeline → List (BitVec 32) × RolloutPipeline
  | 0, p => ([], p)
  | n + 1, p =>
    let x := pipelineSchedule p (some .decode)
    let y := scheduleMany n x.2
    (x.1.toList ++ y.1, y.2)

/-- The drain cycle of the callers, for batches of at most `m`: the ids taken and the pipeline after
it. -/
def drainCycle (p : RolloutPipeline) (m : BitVec 32) : List (BitVec 32) × RolloutPipeline :=
  let b := pipelineStageTargetBatch p (some .decode) m
  let x := scheduleMany b.toNat p
  (x.1, pipelineRelease x.2 (some .decode) b)

/-- What a caller does with the decode stage. -/
inductive DecodeCall
  | tryPush (id : BitVec 32)
  | drain (m : BitVec 32)

/-- The pipeline after one call. -/
def decodeCall (p : RolloutPipeline) : DecodeCall → RolloutPipeline
  | .tryPush id => (pipelineTryPush p (some .decode) id).2
  | .drain m => (drainCycle p m).2

/-- The pipeline after a run of calls, with the credits set once after the start. -/
def decodeRun (maxDecode maxReward maxTrajectory kvLimit : BitVec 32) (cs : List DecodeCall) :
    RolloutPipeline :=
  cs.foldl decodeCall (pipelineCreditsSet pipelineInit maxDecode maxReward maxTrajectory kvLimit)

/-- If a rollout is queued, a drain cycle takes one and frees a credit. -/
def Drains (p : RolloutPipeline) : Prop :=
  pipelineOccupancy p (some .decode) ≠ 0 → ∀ m : BitVec 32, 1 ≤ m →
    (drainCycle p m).1 ≠ [] ∧ (drainCycle p m).2.credits.decodeUsed < p.credits.decodeUsed

/-! ### The invariant -/

/-- The ring of the decode stage. -/
abbrev RolloutPipeline.decodeRing (p : RolloutPipeline) : IdRing := p.queues .decode

@[simp] theorem decodeRing_update (p : RolloutPipeline) (r : IdRing) :
    ({ p with queues := Function.update p.queues .decode r } : RolloutPipeline).decodeRing = r :=
  Function.update_self Stage.decode r p.queues

/-- The credits used are the rollouts in the queue, and within the limit `M`. -/
structure Balanced (M : BitVec 32) (p : RolloutPipeline) : Prop where
  policy : p.policy = .fifo
  ring : p.decodeRing.Inv
  limit : p.credits.maxDecodeCredits = M
  used : p.credits.decodeUsed.toNat + p.decodeRing.taken.length = p.decodeRing.published.length
  used_le : p.credits.decodeUsed ≤ M

theorem Balanced.occupancy {M : BitVec 32} {p : RolloutPipeline} (h : Balanced M p) :
    pipelineOccupancy p (some .decode) = p.credits.decodeUsed := by
  apply BitVec.eq_of_toNat_eq
  have hocc : (p.decodeRing.prod - p.decodeRing.cons).toNat = _ := Contents.occupancy h.ring (by decide)
  have hused := h.used
  change (p.decodeRing.prod - p.decodeRing.cons).toNat = _
  omega

theorem pipelineTryPush_decode (p : RolloutPipeline) (id : BitVec 32) (hr : p.decodeRing.Inv) :
    ∃ ok p', pipelineTryPush p (some .decode) id = (ok, p') ∧
      p'.decodeRing.Inv ∧ p'.policy = p.policy ∧
      p'.credits.maxDecodeCredits = p.credits.maxDecodeCredits ∧
      p'.decodeRing.taken = p.decodeRing.taken ∧
      ((p'.decodeRing.published = p.decodeRing.published ∧
          p'.credits.decodeUsed = p.credits.decodeUsed) ∨
        (p'.decodeRing.published = p.decodeRing.published ++ [id] ∧
          p'.credits.decodeUsed = p.credits.decodeUsed + 1 ∧
          (p.credits.maxDecodeCredits = 0 ∨
            p.credits.decodeUsed < p.credits.maxDecodeCredits))) := by
  have hcall := pipelineTryPush_gate p .decode id
  by_cases hcredit : p.credits.max .decode ≠ 0 ∧ p.credits.used .decode ≥ p.credits.max .decode
  · rw [if_pos hcredit] at hcall
    exact ⟨_, _, hcall, hr, rfl, rfl, rfl, .inl ⟨rfl, rfl⟩⟩
  · rw [if_neg hcredit] at hcall
    by_cases hfull : p.full .decode = true
    · rw [Gate.stage, if_pos hfull] at hcall
      exact ⟨_, _, hcall, hr, rfl, rfl, rfl, .inl ⟨rfl, rfl⟩⟩
    · rw [Gate.stage, if_neg hfull] at hcall
      obtain ⟨hinv, hpub, htaken⟩ := pushed_queue hr (Bool.not_eq_true _ ▸ hfull) id
      refine ⟨_, _, hcall, hinv, rfl, rfl, htaken, .inr ⟨hpub, rfl, ?_⟩⟩
      rcases not_and_or.mp hcredit with h | h
      · exact .inl (not_not.mp h)
      · exact .inr (BitVec.not_le.mp h)

/-- Scheduling keeps the ring in order and publishes nothing. -/
theorem scheduleMany_inv (n : ℕ) (p : RolloutPipeline) (hr : p.decodeRing.Inv) :
    (scheduleMany n p).2.decodeRing.Inv ∧
      (scheduleMany n p).2.decodeRing.published = p.decodeRing.published := by
  induction n generalizing p with
  | zero => exact ⟨hr, rfl⟩
  | succ n ih =>
    have hstep : ∃ x p', pipelineSchedule p (some .decode) = (x, p') ∧ p'.decodeRing.Inv ∧
        p'.decodeRing.published = p.decodeRing.published := by
      rw [pipelineSchedule, pipelinePop_some]
      split_ifs with hpol hne
      · exact ⟨_, _, rfl, hr, rfl⟩
      · obtain ⟨hinv, hpub, -⟩ := popped_queue hr (Bool.not_eq_true _ ▸ hne)
        exact ⟨_, _, rfl, hinv, hpub⟩
      · exact ⟨_, _, rfl, hr, rfl⟩
    obtain ⟨x, p', hcall, hinv, hpub⟩ := hstep
    simp only [scheduleMany, hcall]
    obtain ⟨hinv', hpub'⟩ := ih p' hinv
    exact ⟨hinv', hpub'.trans hpub⟩

/-- Before the indices wrap, scheduling at most as many rollouts as are queued takes that many. -/
theorem scheduleMany_spec (n : ℕ) (p : RolloutPipeline) (hr : p.decodeRing.Inv)
    (hpol : p.policy = .fifo) (hwrap : p.decodeRing.published.length < 2 ^ 32)
    (hn : p.decodeRing.taken.length + n ≤ p.decodeRing.published.length) :
    (scheduleMany n p).1.length = n ∧
      (scheduleMany n p).2.decodeRing.taken.length = p.decodeRing.taken.length + n ∧
      (scheduleMany n p).2.credits = p.credits ∧ (scheduleMany n p).2.policy = .fifo := by
  induction n generalizing p with
  | zero => exact ⟨rfl, rfl, rfl, hpol⟩
  | succ n ih =>
    obtain ⟨id, r', hrun, hinv, hpub, htaken⟩ := idRingPop_spec hr hwrap (by omega)
    have hstep : pipelineSchedule p (some .decode) =
        (some id, { p with queues := Function.update p.queues .decode r' }) := by
      simp only [pipelineSchedule, pipelinePop, if_pos hpol]
      rw [show idRingPop.run Op.effect (p.queues .decode) = (some id, r') from hrun]
    simp only [scheduleMany, hstep]
    obtain ⟨hlen, htaken', hcred, hpol'⟩ :=
      ih { p with queues := Function.update p.queues .decode r' } (by rwa [decodeRing_update]) hpol
        (by rwa [decodeRing_update, hpub])
        (by
          rw [decodeRing_update, hpub, htaken, List.length_append, List.length_singleton]
          omega)
    refine ⟨by rw [List.length_append, hlen]; exact Nat.add_comm _ _, ?_, hcred, hpol'⟩
    rw [htaken', decodeRing_update, htaken, List.length_append, List.length_singleton]
    omega

/-- The batch window is the least of the batch size, the credits left and the occupancy. -/
theorem targetBatch_toNat {M : BitVec 32} {p : RolloutPipeline} (h : Balanced M p) (m : BitVec 32) :
    (pipelineStageTargetBatch p (some .decode) m).toNat =
      min (min m.toNat (M.toNat - p.credits.decodeUsed.toNat)) p.credits.decodeUsed.toNat := by
  have hle : p.credits.decodeUsed.toNat ≤ M.toNat := h.used_le
  have hm := m.isLt
  have hcredit : (pipelineStageAvailableCredits p (some .decode)).toNat =
      M.toNat - p.credits.decodeUsed.toNat := by
    simp only [pipelineStageAvailableCredits, headroom, h.limit, gt_iff_lt]
    split_ifs with hlt
    · exact BitVec.toNat_sub_of_le h.used_le
    · rw [BitVec.not_lt, BitVec.le_def] at hlt
      simp only [BitVec.ofNat_eq_ofNat, BitVec.toNat_zero]
      omega
  simp only [pipelineStageTargetBatch, h.occupancy]
  generalize pipelineStageAvailableCredits p (some .decode) = credit at hcredit ⊢
  have hlimit : (if credit ≠ BitVec.allOnes 32 ∧ credit < m then credit else m).toNat =
      min m.toNat credit.toNat := by
    by_cases hones : credit = BitVec.allOnes 32
    · have hval : credit.toNat = 2 ^ 32 - 1 := by rw [hones, BitVec.toNat_allOnes]
      rw [if_neg fun hc => hc.1 hones]
      omega
    · by_cases hlt : credit < m
      · have hlt' : credit.toNat < m.toNat := hlt
        rw [if_pos ⟨hones, hlt⟩]
        omega
      · rw [if_neg fun hc => hlt hc.2]
        rw [BitVec.not_lt, BitVec.le_def] at hlt
        omega
  rw [← hcredit, ← hlimit]
  generalize (if credit ≠ BitVec.allOnes 32 ∧ credit < m then credit else m) = limit
  split_ifs with hlt
  · have hlt' : p.credits.decodeUsed.toNat < limit.toNat := hlt
    omega
  · rw [BitVec.not_lt, BitVec.le_def] at hlt
    omega

/-- What a drain cycle does before the indices wrap: it takes as many rollouts as the batch window says
and frees as many credits. -/
theorem drainCycle_spec {M : BitVec 32} {p : RolloutPipeline} (h : Balanced M p)
    (hwrap : p.decodeRing.published.length < 2 ^ 32) (m : BitVec 32) :
    (drainCycle p m).1.length = (pipelineStageTargetBatch p (some .decode) m).toNat ∧
      (drainCycle p m).2.credits.decodeUsed.toNat =
        p.credits.decodeUsed.toNat - (pipelineStageTargetBatch p (some .decode) m).toNat ∧
      Balanced M (drainCycle p m).2 := by
  have hb := targetBatch_toNat h m
  have hused := h.used
  generalize hbatch : pipelineStageTargetBatch p (some .decode) m = b at hb
  obtain ⟨hlen, htaken, hcred, hpol⟩ :=
    scheduleMany_spec b.toNat p h.ring h.policy hwrap (by omega)
  obtain ⟨hinv, hpub⟩ := scheduleMany_inv b.toNat p h.ring
  have hrel : (releaseCredits p.credits.decodeUsed b).toNat =
      p.credits.decodeUsed.toNat - b.toNat := by
    have hle : b ≤ p.credits.decodeUsed := by
      rw [BitVec.le_def]
      omega
    rw [releaseCredits, if_neg (BitVec.not_lt.mpr hle)]
    exact BitVec.toNat_sub_of_le hle
  simp only [drainCycle, hbatch, pipelineRelease, hcred]
  refine ⟨hlen, hrel, ⟨hpol, hinv, h.limit, ?_, ?_⟩⟩
  · change (releaseCredits p.credits.decodeUsed b).toNat +
      (scheduleMany b.toNat p).2.decodeRing.taken.length =
        (scheduleMany b.toNat p).2.decodeRing.published.length
    rw [hrel, htaken, hpub]
    omega
  · have hle : p.credits.decodeUsed.toNat ≤ M.toNat := h.used_le
    change (releaseCredits p.credits.decodeUsed b).toNat ≤ M.toNat
    omega

/-! ### Runs -/

section Run

variable {M : BitVec 32} {p : RolloutPipeline}

/-- Every call keeps the ring in order, and never forgets a published id. -/
theorem decodeCall_ring (hr : p.decodeRing.Inv) (c : DecodeCall) :
    (decodeCall p c).decodeRing.Inv ∧
      p.decodeRing.published.length ≤ (decodeCall p c).decodeRing.published.length := by
  cases c with
  | tryPush id =>
    obtain ⟨ok, p', hcall, hinv, -, -, -, hpub⟩ := pipelineTryPush_decode p id hr
    rw [decodeCall, hcall]
    refine ⟨hinv, ?_⟩
    rcases hpub with ⟨hpub, -⟩ | ⟨hpub, -⟩ <;> simp [hpub]
  | drain m =>
    obtain ⟨hinv, hpub⟩ :=
      scheduleMany_inv (pipelineStageTargetBatch p (some .decode) m).toNat p hr
    have hrelease (p : RolloutPipeline) (n : BitVec 32) :
        (pipelineRelease p (some .decode) n).decodeRing = p.decodeRing := rfl
    rw [decodeCall, drainCycle, hrelease, hpub]
    exact ⟨hinv, le_rfl⟩

theorem decodeCall_balanced (hM : M ≠ 0) (h : Balanced M p)
    (hwrap : p.decodeRing.published.length < 2 ^ 32) (c : DecodeCall) :
    Balanced M (decodeCall p c) := by
  cases c with
  | drain m => exact (drainCycle_spec h hwrap m).2.2
  | tryPush id =>
    obtain ⟨ok, p', hcall, hinv, hpol, hmax, htaken, hpub⟩ := pipelineTryPush_decode p id h.ring
    rw [decodeCall, hcall]
    rcases hpub with ⟨hpub, hused⟩ | ⟨hpub, hused, hroom⟩
    · refine ⟨hpol.trans h.policy, hinv, hmax.trans h.limit, ?_, ?_⟩
      · rw [hused, htaken, hpub]
        exact h.used
      · rw [hused]
        exact h.used_le
    · have hlt : p.credits.decodeUsed < M := by
        rw [h.limit] at hroom
        exact hroom.resolve_left hM
      have hlt' : p.credits.decodeUsed.toNat < M.toNat := hlt
      have hsucc := toNat_add_one_of_lt hlt
      refine ⟨hpol.trans h.policy, hinv, hmax.trans h.limit, ?_, ?_⟩
      · have hbal := h.used
        rw [hused, hsucc, htaken, hpub, List.length_append, List.length_singleton]
        omega
      · rw [hused, BitVec.le_def, hsucc]
        exact hlt'

theorem pipelineCreditsSet_balanced (maxReward maxTrajectory kvLimit : BitVec 32) :
    Balanced M (pipelineCreditsSet pipelineInit M maxReward maxTrajectory kvLimit) where
  policy := rfl
  ring := Ring.zeroed_inv _
  limit := rfl
  used := rfl
  used_le := by
    rw [BitVec.le_def]
    exact Nat.zero_le _

/-- Before the indices wrap, the credits used are the rollouts in the queue, in every state of every
run. -/
theorem foldl_balanced (hM : M ≠ 0) (cs : List DecodeCall) (h : Balanced M p)
    (hwrap : (cs.foldl decodeCall p).decodeRing.published.length < 2 ^ 32) :
    Balanced M (cs.foldl decodeCall p) := by
  have hmono : ∀ (cs : List DecodeCall) (p : RolloutPipeline), p.decodeRing.Inv →
      p.decodeRing.published.length ≤ (cs.foldl decodeCall p).decodeRing.published.length := by
    intro cs
    induction cs with
    | nil => exact fun p _ => le_rfl
    | cons c cs ih =>
      intro p hr
      obtain ⟨hinv, hle⟩ := decodeCall_ring hr c
      exact hle.trans (ih _ hinv)
  induction cs generalizing p with
  | nil => exact h
  | cons c cs ih =>
    have hp := lt_of_le_of_lt (hmono (c :: cs) p h.ring) hwrap
    exact ih (decodeCall_balanced hM h hp c) hwrap

end Run

/-- **The decode stage.** In every state of every run of admissions and drain cycles, before the ring
indices wrap, a drain cycle takes a queued rollout and frees a credit exactly if the stage is not filled
to its credit limit. -/
theorem decodeStage_drains_iff (maxDecode maxReward maxTrajectory kvLimit : BitVec 32)
    (cs : List DecodeCall) (hmax : 1 ≤ maxDecode)
    (hwrap : (decodeRun maxDecode maxReward maxTrajectory kvLimit cs).decodeRing.published.length <
      2 ^ 32) :
    Drains (decodeRun maxDecode maxReward maxTrajectory kvLimit cs) ↔
      pipelineOccupancy (decodeRun maxDecode maxReward maxTrajectory kvLimit cs) (some .decode) ≠
        maxDecode := by
  have hmax' : 1 ≤ maxDecode.toNat := hmax
  have hM : maxDecode ≠ 0 := by
    rintro rfl
    exact absurd hmax' (by decide)
  have hbal : Balanced maxDecode (decodeRun maxDecode maxReward maxTrajectory kvLimit cs) :=
    foldl_balanced hM cs (pipelineCreditsSet_balanced maxReward maxTrajectory kvLimit) hwrap
  generalize decodeRun maxDecode maxReward maxTrajectory kvLimit cs = p at hbal hwrap ⊢
  have hle : p.credits.decodeUsed.toNat ≤ maxDecode.toNat := hbal.used_le
  rw [Drains, hbal.occupancy]
  constructor
  · intro hdrain hfull
    -- filled to its limit, the stage offers an empty batch window
    obtain ⟨hne, -⟩ := hdrain (hfull ▸ hM) 1 (by decide)
    have hlen := (drainCycle_spec hbal hwrap 1).1
    rw [targetBatch_toNat hbal, hfull] at hlen
    exact hne (List.eq_nil_of_length_eq_zero (by omega))
  · intro hfull hused m hm
    have hm' : 1 ≤ m.toNat := hm
    have hne : p.credits.decodeUsed.toNat ≠ maxDecode.toNat :=
      fun h => hfull (BitVec.eq_of_toNat_eq h)
    have hpos : p.credits.decodeUsed.toNat ≠ 0 :=
      fun h => hused (BitVec.eq_of_toNat_eq h)
    obtain ⟨hlen, hfree, -⟩ := drainCycle_spec hbal hwrap m
    rw [targetBatch_toNat hbal] at hlen hfree
    refine ⟨fun hnil => ?_, ?_⟩
    · rw [hnil, List.length_nil] at hlen
      omega
    · rw [BitVec.lt_def]
      omega

/-- One rollout in a stage of two credits is drained. -/
theorem decodeStage_drains_two :
    Drains (decodeRun 2 0 0 0 [.tryPush 7]) :=
  (decodeStage_drains_iff 2 0 0 0 [.tryPush 7] (by decide) (by decide)).mpr (by decide)

/-- One rollout in a stage of one credit is not. -/
theorem decodeStage_stuck_one :
    ¬ Drains (decodeRun 1 0 0 0 [.tryPush 7]) := by
  intro h
  exact (h (by decide) 8 (by decide)).1 rfl

end RolloutRuntime
