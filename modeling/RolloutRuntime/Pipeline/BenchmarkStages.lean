import Mathlib.Order.Interval.Finset.Nat
import RolloutRuntime.Pipeline.Benchmark

/-!
# The queues and records of the pipeline benchmark

The benchmark reuses the records of the first 32 ids: a rollout gets the first free one, and a group of 32
is finished before the next one starts. The queues other than that of the decode stage, and the reward
ring, are only pushed to, so they hold the first ids that fitted.

## Main definitions

* `Hoards`: a ring that nobody takes from.
* `benchId`, `benchRecord`, `heldRecords`: the records of the rollouts, and those in use.
* `StagesAt`, `SlabAt`, `MetricsAt`: the pipeline, the slab and the counters with given numbers of rollouts
  started, admitted, scheduled and finished.

## Main results

* `Hoards.push`: a push to a ring that nobody takes from.
* `leastUnused_heldRecords`: which record a rollout gets.
* `pipelineTryPush_stagesAt`, `scheduleBatch_stagesAt`: admission to the decode stage and scheduling.
* `finishRollout_eq`: all transitions of a finished rollout are accepted.

## References

* `bench/bench_pipeline.cu` lines 240–285, `src/pipeline.c`, `src/rollout.c`, `src/reward.c`.
-/

namespace RolloutRuntime

open Concurrency RingBuffer Bitmap

/-! ### Rings that nobody takes from -/

/-- A ring that nobody takes from, after pushes of the elements of `l`: it holds those that fitted. -/
structure Hoards {k : ℕ} {α : Type} (r : Ring 32 k α) (l : List α) : Prop where
  inv : r.Inv
  taken : r.taken = []
  published : r.published = l.take (2 ^ k)

section Hoards

variable {k : ℕ} {α : Type} {r : Ring 32 k α} {l : List α}

theorem Hoards.zeroed (z : α) : Hoards (Ring.zeroed 32 k z) ([] : List α) :=
  ⟨Ring.zeroed_inv z, rfl, List.take_nil.symm⟩

/-- A push to such a ring stores its element if there is room for it, and is refused if not. -/
theorem Hoards.push (hk : k < 32) (h : Hoards r l) (b : Bool) (a : α) :
    Hoards ((push ⟨b, spaceTest k, false⟩ a).run Op.effect r).2 (l ++ [a]) := by
  have hfull := spaceTest_iff hk h.inv
  have hlen : r.published.length = min (2 ^ k) l.length := by rw [h.published, List.length_take]
  rw [h.taken, List.length_nil, Nat.zero_add] at hfull
  rw [push_run rfl]
  by_cases hroom : spaceTest k r.prod r.cons 1 = true
  · have hle := hfull.mp hroom
    rw [if_pos hroom]
    refine ⟨h.inv, h.taken, ?_⟩
    rw [h.published, List.take_append_of_le_length (by omega)]
  · have hlt : l.length < 2 ^ k := by
      have := mt hfull.mpr hroom
      omega
    have hrun := push_run (P := ⟨b, spaceTest k, false⟩) rfl a r
    rw [if_neg hroom] at hrun
    have hroomSound := roomSound_spaceTest hk b false 1
    obtain ⟨ok, r', hpush, hinv, htaken, hpub, -⟩ :=
      producer_run_of_ok h.inv (push_ok (G := unguarded α) hk hroomSound h.inv trivial (a := a))
    obtain ⟨rfl, rfl⟩ := Prod.mk.inj (hpush.symm.trans hrun)
    rw [if_neg hroom]
    refine ⟨hinv, htaken.trans h.taken, ?_⟩
    rw [List.take_of_length_le (by rw [List.length_append, List.length_singleton]; omega)]
    change r.published ++ [a] = l ++ [a]
    rw [h.published, List.take_of_length_le hlt.le]

end Hoards

/-! ### The records in use -/

/-- The id of the record of rollout `r`: the benchmark reuses the first 32 records. -/
def benchId (r : ℕ) : BitVec 32 := BitVec.ofNat 32 (r % 32)

/-- The ids of the first `n` rollouts. -/
def benchIds (n : ℕ) : List (BitVec 32) := (List.range n).map benchId

/-- The record of rollout `r`. -/
def benchRecord (r : ℕ) : RolloutId := ⟨r % 32, (Nat.mod_lt r (by decide)).trans (by decide)⟩

/-- The records in use if the rollouts up to `a` were admitted and those up to `f` finished. -/
def heldRecords (f a : ℕ) : Finset RolloutId := (Finset.Ico f a).image benchRecord

theorem ofNat_benchRecord (r : ℕ) : BitVec.ofNat 32 (benchRecord r : ℕ) = benchId r := rfl

theorem rolloutGet_benchId (r : ℕ) : rolloutGet (benchId r) = some (benchRecord r) :=
  rolloutGet_ofNat (benchRecord r)

theorem benchIds_succ (n : ℕ) : benchIds (n + 1) = benchIds n ++ [benchId n] := by
  rw [benchIds, List.range_succ, List.map_append, List.map_singleton, benchIds]

@[simp] theorem length_benchIds (n : ℕ) : (benchIds n).length = n := by
  rw [benchIds, List.length_map, List.length_range]

/-- The record of a rollout is taken by none of the 31 others before it. -/
theorem benchRecord_notMem {f a : ℕ} (ha : a < f + 32) : benchRecord a ∉ heldRecords f a := by
  intro hmem
  obtain ⟨x, hx, heq⟩ := Finset.mem_image.mp hmem
  have hmod : x % 32 = a % 32 := congrArg Fin.val heq
  have := Finset.mem_Ico.mp hx
  omega

theorem heldRecords_succ {f a : ℕ} (hf : f ≤ a) :
    heldRecords f (a + 1) = insert (benchRecord a) (heldRecords f a) := by
  rw [heldRecords, Nat.Ico_succ_right_eq_insert_Ico hf, Finset.image_insert]
  rfl

theorem heldRecords_erase {f a : ℕ} (hf : f < a) (ha : a ≤ f + 32) :
    (heldRecords f a).erase (benchRecord f) = heldRecords (f + 1) a := by
  have hsplit : Finset.Ico f a = insert f (Finset.Ico (f + 1) a) := by
    rw [Nat.Ico_succ_left_eq_erase_Ico, Finset.insert_erase (Finset.mem_Ico.mpr ⟨le_rfl, hf⟩)]
  rw [heldRecords, hsplit, Finset.image_insert, Finset.erase_insert, heldRecords]
  intro hmem
  obtain ⟨x, hx, heq⟩ := Finset.mem_image.mp hmem
  have hmod : x % 32 = f % 32 := congrArg Fin.val heq
  have := Finset.mem_Ico.mp hx
  omega

/-- If whole groups of 32 rollouts were finished, the next rollout gets the record after those of its
group. -/
theorem leastUnused_heldRecords {f a : ℕ} (hf : f ≤ a) (ha : a < f + 32) (hdvd : 32 ∣ f) :
    leastUnused (heldRecords f a) = some (benchRecord a) := by
  rw [leastUnused_eq_some]
  refine ⟨benchRecord_notMem ha, fun j hj => ?_⟩
  have hlt : (j : ℕ) < a % 32 := hj
  refine Finset.mem_image.mpr ⟨f + j, Finset.mem_Ico.mpr ⟨by omega, by omega⟩, Fin.ext ?_⟩
  change (f + j) % 32 = j
  omega

/-! ### The stages -/

/-- The pipeline with `benchIds a` admitted to the decode stage, of which `benchIds t` were scheduled;
`benchIds p` went to the prefill queue and `benchIds f` to the queues after the decode stage. -/
structure StagesAt (p a t f : ℕ) (s : RolloutPipeline) : Prop where
  policy : s.policy = .fifo
  ring : s.decodeRing.Inv
  admitted : s.decodeRing.published = benchIds a
  scheduled : s.decodeRing.taken = benchIds t
  limit : s.credits.maxDecodeCredits = 256
  prefill : Hoards (s.queues .prefill) (benchIds p)
  reward : Hoards (s.queues .reward) (benchIds f)
  trajectory : Hoards (s.queues .trajectory) (benchIds f)
  done : Hoards (s.queues .done) (benchIds f)

/-- The slab with the records of the rollouts from `f` up to `a` in use, all of them decoding. -/
structure SlabAt (f a : ℕ) (s : RolloutSlab) : Prop where
  bitmap : Represents false s.freeBitmap (heldRecords f a)
  state : ∀ i, (s.slots i).state = if i ∈ heldRecords f a then .decoding else .free

/-- The counters after `t` rollouts were scheduled in batches of 32, the last one possibly smaller, and
`f` of them finished. -/
structure MetricsAt (t f : ℕ) (m : RuntimeMetrics) : Prop where
  rewardHandoffs : m.rewardHandoffs = f
  rolloutsCompleted : m.rolloutsCompleted = f
  decodeRolloutsScheduled : m.decodeRolloutsScheduled = t
  decodeBatches : m.decodeBatches = (t + 31) / 32
  decodeBatchPeak : m.decodeBatchPeak = min t 32

section Queues

variable {p a t f : ℕ} {s : RolloutPipeline}

theorem Hoards.pipelinePush {q : Stage} {l : List (BitVec 32)} (h : Hoards (s.queues q) l) (id : BitVec 32) :
    Hoards ((pipelinePush s (some q) id).2.queues q) (l ++ [id]) := by
  have hqueue : (RolloutRuntime.pipelinePush s (some q) id).2.queues q =
      ((idRingPush id).run Op.effect (s.queues q)).2 :=
    Function.update_self q _ s.queues
  rw [hqueue]
  exact h.push (by decide) true id

theorem pipelinePush_queues_of_ne {q q' : Stage} (hq : q' ≠ q) (id : BitVec 32) :
    (pipelinePush s (some q) id).2.queues q' = s.queues q' :=
  Function.update_of_ne hq _ s.queues

theorem pipelinePush_prefill (h : StagesAt p a t f s) :
    StagesAt (p + 1) a t f (pipelinePush s (some .prefill) (benchId p)).2 where
  policy := h.policy
  ring := h.ring
  admitted := h.admitted
  scheduled := h.scheduled
  limit := h.limit
  prefill := by
    rw [benchIds_succ]
    exact h.prefill.pipelinePush (benchId p)
  reward := h.reward
  trajectory := h.trajectory
  done := h.done

/-- The pipeline after the pushes of a finished rollout. -/
def finishPushes (s : RolloutPipeline) (rid : BitVec 32) : RolloutPipeline :=
  let s := (pipelinePush s (some .reward) rid).2
  let s := (pipelinePush s (some .trajectory) rid).2
  (pipelinePush s (some .done) rid).2

theorem finishPushes_stagesAt (h : StagesAt p a t f s) :
    StagesAt p a t (f + 1) (finishPushes s (benchId f)) where
  policy := h.policy
  ring := h.ring
  admitted := h.admitted
  scheduled := h.scheduled
  limit := h.limit
  prefill := h.prefill
  reward := by
    rw [benchIds_succ, finishPushes, pipelinePush_queues_of_ne (by decide),
      pipelinePush_queues_of_ne (by decide)]
    exact h.reward.pipelinePush (benchId f)
  trajectory := by
    rw [benchIds_succ, finishPushes, pipelinePush_queues_of_ne (by decide)]
    refine Hoards.pipelinePush ?_ (benchId f)
    rw [pipelinePush_queues_of_ne (by decide)]
    exact h.trajectory
  done := by
    rw [benchIds_succ, finishPushes]
    refine Hoards.pipelinePush ?_ (benchId f)
    rw [pipelinePush_queues_of_ne (by decide), pipelinePush_queues_of_ne (by decide)]
    exact h.done

/-- An admission below the credit limit succeeds and takes a credit. -/
theorem pipelineTryPush_stagesAt (h : StagesAt p a t f s) (hfit : a < t + 32)
    (hused : s.credits.decodeUsed.toNat = a - t) :
    ∃ s', pipelineTryPush s (some .decode) (benchId a) = (true, s') ∧ StagesAt p (a + 1) t f s' ∧
      s'.credits.decodeUsed.toNat = a + 1 - t := by
  have hlen : a = s.decodeRing.published.length := by rw [h.admitted, length_benchIds]
  have htaken : t = s.decodeRing.taken.length := by rw [h.scheduled, length_benchIds]
  have hle := Contents.length_le h.ring
  have hroom : s.full .decode = false := by
    rw [← Bool.not_eq_true, RolloutPipeline.full, spaceTest_iff (by decide) h.ring]
    have : (2 : ℕ) ^ 12 = 4096 := rfl
    omega
  have hcredit : ¬ (s.credits.max .decode ≠ 0 ∧ s.credits.used .decode ≥ s.credits.max .decode) := by
    rintro ⟨-, hge⟩
    have hge' : s.credits.maxDecodeCredits.toNat ≤ s.credits.decodeUsed.toNat := hge
    rw [h.limit] at hge'
    have : (256 : BitVec 32).toNat = 256 := rfl
    omega
  have hcall := pipelineTryPush_gate s .decode (benchId a)
  rw [if_neg hcredit, Gate.stage, hroom] at hcall
  obtain ⟨hinv, hpub, htaken'⟩ := pushed_queue h.ring hroom (benchId a)
  refine ⟨_, hcall, ⟨h.policy, hinv, ?_, htaken'.trans h.scheduled, h.limit, h.prefill, h.reward,
    h.trajectory, h.done⟩, ?_⟩
  · rw [benchIds_succ, ← h.admitted]
    exact hpub
  · have hone : (1 : BitVec 32).toNat = 1 := rfl
    change (s.credits.decodeUsed + 1).toNat = a + 1 - t
    rw [BitVec.toNat_add, hone, Nat.mod_eq_of_lt (by omega)]
    omega

/-- Scheduling takes the oldest ids of the decode stage. -/
theorem scheduleBatch_stagesAt (n : ℕ) (h : StagesAt p a t f s) (ha : a < 2 ^ 32) (hn : t + n ≤ a) :
    ∃ s', scheduleBatch n s = ((List.range' t n).map benchId, s') ∧ StagesAt p a (t + n) f s' ∧
      s'.credits = s.credits := by
  induction n generalizing t s with
  | zero => exact ⟨s, rfl, h, rfl⟩
  | succ n ih =>
    have hlen : s.decodeRing.published.length = a := by rw [h.admitted, length_benchIds]
    have htaken : s.decodeRing.taken.length = t := by rw [h.scheduled, length_benchIds]
    obtain ⟨id, r', hrun, hinv, hpub, htaken'⟩ := idRingPop_spec h.ring (by omega) (by omega)
    -- what was taken is an initial segment of what was admitted, so the id is that of rollout `t`
    have hid : id = benchId t := by
      have hprefix : r'.taken <+: r'.published := Contents.taken_le hinv
      rw [htaken', hpub, h.admitted, h.scheduled] at hprefix
      obtain ⟨l, hl⟩ := hprefix
      have hget := congrArg (fun l => l[t]?) hl
      simpa [benchIds, List.getElem?_range (show t < a by omega)] using hget
    have hstep : pipelineSchedule s (some .decode) =
        (some (benchId t), { s with queues := Function.update s.queues .decode r' }) := by
      simp only [pipelineSchedule, pipelinePop, if_pos h.policy]
      rw [show idRingPop.run Op.effect (s.queues .decode) = (some id, r') from hrun, hid]
    have hnext : StagesAt p a (t + 1) f { s with queues := Function.update s.queues .decode r' } := by
      refine ⟨h.policy, by rwa [decodeRing_update], ?_, ?_, h.limit, h.prefill, h.reward, h.trajectory,
        h.done⟩
      · rw [decodeRing_update, hpub, h.admitted]
      · rw [decodeRing_update, htaken', h.scheduled, hid, benchIds_succ]
    obtain ⟨s', hrest, hstages, hcredits⟩ := ih hnext (by omega)
    refine ⟨s', ?_, by rwa [Nat.add_right_comm] at hstages, hcredits⟩
    simp only [scheduleBatch, hstep, hrest, List.range'_succ, List.map_cons]

end Queues

/-! ### The records -/

section Records

variable {c : BenchContext} {i : RolloutId} {src dst : RolloutState}

/-- The slab with a record in another state. -/
def setState (s : RolloutSlab) (i : RolloutId) (st : RolloutState) : RolloutSlab :=
  { s with slots := Function.update s.slots i { s.slots i with state := st } }

@[simp] theorem setState_state (s : RolloutSlab) (i : RolloutId) (st : RolloutState) :
    ((setState s i st).slots i).state = st := by
  simp [setState]

@[simp] theorem setState_setState (s : RolloutSlab) (i : RolloutId) (st st' : RolloutState) :
    setState (setState s i st) i st' = setState s i st' := by
  simp [setState]

/-- A transition out of the state of a record is accepted if it is in the table. -/
theorem BenchContext.transition_eq (hstate : (c.slab.slots i).state = src)
    (hvalid : rolloutIsValidTransition src dst = true) :
    c.transition i src dst = { c with slab := setState c.slab i dst } := by
  rw [BenchContext.transition, rolloutTransition, if_pos hvalid, if_pos hstate]
  rfl

/-- The events of a finished rollout. -/
def finishPoints (tokens rid : BitVec 32) : List TracePoint :=
  [⟨.rewardPosted, rid, tokens⟩, ⟨.rewardScored, rid, tokens⟩, ⟨.trajectoryDone, rid, tokens⟩,
    ⟨.rolloutFree, rid, 0⟩]

/-- What `finish_rollout` does to the record of a decoding rollout: all its transitions are accepted. -/
theorem finishRollout_eq (toFloat : ℚ → BitVec 32) (tokens rid : BitVec 32) (hget : rolloutGet rid = some i)
    (hstate : (c.slab.slots i).state = .decoding) :
    finishRollout toFloat tokens c rid = { c with
      pipeline := finishPushes c.pipeline rid
      slab := rolloutFree c.slab rid
      rewardRing := ((rewardPush (rewardDesc toFloat tokens rid)).run Op.effect c.rewardRing).2
      metrics := { c.metrics with
        rewardHandoffs := c.metrics.rewardHandoffs + 1
        rolloutsCompleted := c.metrics.rolloutsCompleted + 1 }
      trace := c.trace ++ finishPoints tokens rid } := by
  have hfree (st : RolloutState) : rolloutFree (setState c.slab i st) rid = rolloutFree c.slab rid := by
    rw [rolloutFree_of_get hget, rolloutFree_of_get hget]
    simp [setState]
  simp only [finishRollout, hget]
  rw [BenchContext.transition_eq hstate rfl]
  simp only [BenchContext.push, BenchContext.tracePush]
  rw [@BenchContext.transition_eq _ i .rewardPending .trajectoryReady]
  · rw [@BenchContext.transition_eq _ i .trajectoryReady .done]
    · simp only [setState_setState, hfree, List.append_assoc]
      rfl
    · simp
    · rfl
  · simp
  · rfl

theorem SlabAt.finish {f a : ℕ} {s : RolloutSlab} (h : SlabAt f a s) (hf : f < a) (ha : a ≤ f + 32) :
    SlabAt (f + 1) a (rolloutFree s (benchId f)) := by
  rw [rolloutFree_of_get (rolloutGet_benchId f)]
  refine ⟨?_, fun i => ?_⟩
  · rw [← heldRecords_erase hf ha]
    exact h.bitmap.give (benchRecord f)
  · rw [← heldRecords_erase hf ha]
    by_cases hi : i = benchRecord f
    · subst hi
      simp
    · simp only [Function.update_of_ne hi, h.state i, Finset.mem_erase, ne_eq, hi, not_false_eq_true,
        true_and]

end Records

end RolloutRuntime
