import RolloutRuntime.Rtl.DescriptorEngine

/-!
# The descriptor engine from end to end

Between the two rings the worker holds at most one descriptor. So the descriptors accepted from the
host split into those still in the descriptor ring, at most one in the worker, and those answered,
and the completions of the latter split into those still in the completion ring and those delivered.
The three parts change hands by handshakes within one cycle, and every cycle keeps the split.

## Main definitions

* `Rtl.Answers`: what a completion has to say about its descriptor.
* `Rtl.Worker.Between`: the worker after it took some descriptors and answered some.
* `Rtl.Engine.Holds`: the engine after it accepted some descriptors and delivered some completions.

## Main results

* `Rtl.engine_delivers`: the completions delivered are, in order, an initial segment of those of the
  descriptors accepted, and at most two ring sizes and one are missing.

## References

* `rtl/rl_runtime_top.sv` lines 40–85, `rtl/rollout_worker_fsm.sv` lines 28–89.
-/

namespace RolloutRuntime

open RingBuffer

namespace Rtl

/-! ### Completions and descriptors -/

/-- The completion `c` answers the descriptor `d`. -/
structure Answers (d : Desc) (c : Comp) : Prop where
  rolloutId : c.rolloutId = d.rolloutId
  rewardId : c.rewardId = d.rewardModelId
  stop : d.opcode = descOpStop → c.status = compStatusStopped ∧ c.finalSeqLen = d.seqLen
  other : d.opcode ≠ descOpStop → d.opcode ≠ descOpDecode →
    c.status = compStatusDone ∧ c.finalSeqLen = d.seqLen
  /-- A decode request is answered by what cycles of `S_DECODE` reach from its length. -/
  decode : d.opcode = descOpDecode → ∃ n, iterDecode d n d.seqLen = some c

theorem sIdle_eq_none_iff (d : Desc) : sIdle d = none ↔ d.opcode = descOpDecode := by
  unfold sIdle
  by_cases hstop : d.opcode = descOpStop
  · have hne : descOpStop ≠ descOpDecode := by decide
    simp [hstop, hne]
  · rw [if_neg hstop]
    by_cases hdec : d.opcode = descOpDecode
    · rw [if_pos hdec]
      simp [hdec]
    · rw [if_neg hdec]
      simp [hdec]

/-- A completion written by `S_DECODE` carries the ids of its descriptor. -/
theorem iterDecode_ids {d : Desc} {n : ℕ} {tok : BitVec 16} {c : Comp}
    (h : iterDecode d n tok = some c) :
    c.rolloutId = d.rolloutId ∧ c.rewardId = d.rewardModelId := by
  induction n generalizing tok with
  | zero => simp [iterDecode] at h
  | succ n ih =>
    rw [iterDecode] at h
    cases hd : sDecode d tok with
    | none =>
      rw [hd] at h
      exact ih h
    | some c' =>
      obtain rfl : c' = c := by simpa [hd] using h
      unfold sDecode at hd
      split_ifs at hd <;>
      · obtain rfl := Option.some.inj hd
        exact ⟨rfl, rfl⟩

theorem answers_workerFunction (d : Desc) : Answers d (workerFunction d) := by
  by_cases hdec : d.opcode = descOpDecode
  · have hidle := (sIdle_eq_none_iff d).mpr hdec
    have hiter := iterDecode_eq_workerFunction hidle le_rfl
    obtain ⟨hid, hrew⟩ := iterDecode_ids hiter
    refine ⟨hid, hrew, fun hstop => ?_, fun _ h => absurd hdec h, fun _ => ⟨32, hiter⟩⟩
    rw [hdec] at hstop
    exact absurd hstop (by decide)
  · by_cases hstop : d.opcode = descOpStop
    · have hw : workerFunction d = d.completion compStatusStopped d.seqLen := by
        simp [workerFunction, sIdle, hstop]
      rw [hw]
      exact ⟨rfl, rfl, fun _ => ⟨rfl, rfl⟩, fun h => absurd hstop h, fun h => absurd h hdec⟩
    · have hw : workerFunction d = d.completion compStatusDone d.seqLen := by
        simp [workerFunction, sIdle, hstop, hdec]
      rw [hw]
      exact ⟨rfl, rfl, fun h => absurd h hstop, fun _ _ => ⟨rfl, rfl⟩, fun h => absurd h hdec⟩

/-! ### The worker between the rings -/

namespace Worker

/-- The worker after it took the descriptors `taken` and handed over the completions `answered`. -/
def Between (s : Worker) (taken : List Desc) (answered : List Comp) : Prop :=
  match s.state with
  | .idle => taken.map workerFunction = answered
  | .decode => ∃ ds, taken = ds ++ [s.activeDesc] ∧ ds.map workerFunction = answered ∧
      ∃ n, iterDecode s.activeDesc n s.tokenCount = some (workerFunction s.activeDesc)
  | .complete => ∃ ds d, taken = ds ++ [d] ∧ ds.map workerFunction = answered ∧
      s.compReg = workerFunction d
  | .unused => False

variable {s : Worker} {taken : List Desc} {answered : List Comp}

/-- The worker holds at most one descriptor, and answers in order. -/
theorem Between.answered_le (h : s.Between taken answered) :
    answered <+: taken.map workerFunction ∧ taken.length ≤ answered.length + 1 := by
  unfold Between at h
  split at h
  · subst h
    simp
  · obtain ⟨ds, rfl, rfl, -⟩ := h
    simp
  · obtain ⟨ds, d, rfl, rfl, -⟩ := h
    simp
  · exact h.elim

theorem Between.step (h : s.Between taken answered) (d : Desc) (inValid outReady : Bool) :
    (s.step d inValid outReady).Between (taken ++ if inValid && s.inReady then [d] else [])
      (answered ++ if s.outValid && outReady then [s.outComp] else []) := by
  cases hs : s.state with
  | idle =>
    have hmap : taken.map workerFunction = answered := by simpa [Between, hs] using h
    by_cases hv : inValid = true
    · cases hd : sIdle d with
      | some c =>
        have hw : c = workerFunction d := by simp [workerFunction, hd]
        simp only [Worker.step, inReady, outValid, hs, hv, hd, Between]
        exact ⟨taken, d, by simp, by simpa using hmap, hw⟩
      | none =>
        have hiter := iterDecode_eq_workerFunction hd le_rfl
        simp only [Worker.step, inReady, outValid, hs, hv, hd, Between]
        exact ⟨taken, by simp, by simpa using hmap, 32, hiter⟩
    · simpa [Worker.step, inReady, outValid, hs, hv, Between] using hmap
  | decode =>
    obtain ⟨ds, htaken, hmap, n, hiter⟩ :
        ∃ ds, taken = ds ++ [s.activeDesc] ∧ ds.map workerFunction = answered ∧
          ∃ n, iterDecode s.activeDesc n s.tokenCount = some (workerFunction s.activeDesc) := by
      simpa [Between, hs] using h
    cases n with
    | zero => simp [iterDecode] at hiter
    | succ n =>
      rw [iterDecode] at hiter
      cases hd : sDecode s.activeDesc s.tokenCount with
      | some c =>
        have hw : c = workerFunction s.activeDesc := by simpa [hd] using hiter
        simp only [Worker.step, inReady, outValid, hs, hd, Between]
        exact ⟨ds, s.activeDesc, by simpa using htaken, by simpa using hmap, hw⟩
      | none =>
        rw [hd] at hiter
        simp only [Worker.step, inReady, outValid, hs, hd, Between]
        exact ⟨ds, by simpa using htaken, by simpa using hmap, n, hiter⟩
  | complete =>
    obtain ⟨ds, d', htaken, hmap, hc⟩ : ∃ ds d', taken = ds ++ [d'] ∧
        ds.map workerFunction = answered ∧ s.compReg = workerFunction d' := by
      simpa [Between, hs] using h
    by_cases hr : outReady = true
    · simp [Worker.step, inReady, outValid, outComp, hs, hr, Between, htaken, hmap, hc]
    · simp only [Worker.step, inReady, outValid, hs, hr, Between]
      simpa [hs] using ⟨ds, d', htaken, hmap, hc⟩
  | unused => simp [Between, hs] at h

end Worker

/-! ### The engine -/

namespace Engine

variable {w : ℕ} {s : Engine w}

/-- The engine after it accepted the descriptors `accepted` and delivered the completions
`delivered`. -/
def Holds (s : Engine w) (accepted : List Desc) (delivered : List Comp) : Prop :=
  ∃ taken answered, s.descRing.Holds accepted taken ∧ s.worker.Between taken answered ∧
    s.completionRing.Holds answered delivered

theorem reset_holds (descMem : Fin (2 ^ w) → Desc) (compMem : Fin (2 ^ w) → Comp) :
    (reset descMem compMem).Holds [] [] :=
  ⟨[], [], ClockedRing.reset_holds descMem, rfl, ClockedRing.reset_holds compMem⟩

/-- One clock cycle of the engine. The handshakes of the two sides of each hand-over agree. -/
theorem Holds.step {accepted : List Desc} {delivered : List Comp} (h : s.Holds accepted delivered)
    (i : Input) :
    (s.step i).Holds
      (accepted ++ if i.hostDescValid && s.hostDescReady then [i.hostDesc] else [])
      (delivered ++ if s.hostCompValid && i.hostCompReady then [s.hostComp] else []) := by
  obtain ⟨taken, answered, hdesc, hworker, hcomp⟩ := h
  have hpop : s.descRing.popped s.cmdPopReady =
      if s.descRing.popValid && s.worker.inReady then [s.descRing.popData] else [] := by
    unfold ClockedRing.popped cmdPopReady
    cases s.descRing.popValid <;> cases s.worker.inReady <;> rfl
  have hdesc' := hdesc.step i.hostDesc i.hostDescValid s.cmdPopReady
  rw [hpop] at hdesc'
  exact ⟨_, _, hdesc', hworker.step _ _ _, hcomp.step s.worker.outComp s.worker.outValid _⟩

theorem Holds.run {accepted : List Desc} {delivered : List Comp} (h : s.Holds accepted delivered)
    (is : List Input) :
    (s.run is).Holds (accepted ++ s.accepted is) (delivered ++ s.delivered is) := by
  induction is generalizing s accepted delivered with
  | nil => simpa [Engine.run, Engine.accepted, Engine.delivered] using h
  | cons i is ih =>
    have hrun := ih (h.step i)
    rw [List.append_assoc, List.append_assoc] at hrun
    exact hrun

/-- What is delivered is in order, and the rings and the worker hold the rest. -/
theorem Holds.delivered_le {accepted : List Desc} {delivered : List Comp}
    (h : s.Holds accepted delivered) :
    delivered <+: accepted.map workerFunction ∧
      accepted.length ≤ delivered.length + (2 * 2 ^ w + 1) := by
  obtain ⟨taken, answered, hdesc, hworker, hcomp⟩ := h
  obtain ⟨hle, hlen⟩ := hworker.answered_le
  refine ⟨hcomp.taken_le.trans (hle.trans (hdesc.taken_le.map _)), ?_⟩
  have h₁ := hdesc.bound
  have h₂ := hcomp.bound
  omega

end Engine

/-- **The engine from end to end.** For every ring size, whatever the slots held at reset, and every
sequence of inputs: the completions taken by the host are, in order, an initial segment of those of the
descriptors accepted, and accepted minus delivered is at most twice the ring size and one. -/
theorem engine_delivers (w : ℕ) (descMem : Fin (2 ^ w) → Desc) (compMem : Fin (2 ^ w) → Comp)
    (is : List Input) :
    (∀ d, Answers d (workerFunction d)) ∧
      (Engine.reset descMem compMem).delivered is <+:
        ((Engine.reset descMem compMem).accepted is).map workerFunction ∧
      ((Engine.reset descMem compMem).accepted is).length ≤
        ((Engine.reset descMem compMem).delivered is).length + (2 * 2 ^ w + 1) := by
  have hrun := (Engine.reset_holds descMem compMem).run is
  exact ⟨answers_workerFunction, hrun.delivered_le⟩

end Rtl

end RolloutRuntime
