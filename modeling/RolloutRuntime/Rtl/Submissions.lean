import RolloutRuntime.Rtl.Bridge

/-!
# Submissions of the bridge

A submission packs its descriptor, looks at `host_desc_ready` up to 17 times with one clock edge between
two looks, and offers the descriptor for one clock edge once there is room. While it waits the worker goes
on taking descriptors out of the ring, and `host_desc_valid` is low at all these edges because every call
leaves it low. So one edge of the call at most pushes a descriptor, and it is the last one.

## Main definitions

* `Rtl.Bridge.edges`: the inputs of the engine at the clock edges of one call.
* `Rtl.Bridge.descPushed`: the descriptors pushed into the descriptor ring during one call.
* `Rtl.Bridge.readySamples`: the states in which a submission looked at `host_desc_ready`.

## Main results

* `Rtl.Bridge.exec_edges`: the registers after a call are those after its clock edges.
* `Rtl.Bridge.run_hostDescValid`: no call leaves `host_desc_valid` high.
* `Rtl.submissions_report`: a submission returns whether it pushed its descriptor.

## References

* `verilator/rtl_bridge.cpp` lines 89–112 and 149–206, `rtl/desc_ring.sv` lines 26–49,
  `rtl/rl_runtime_top.sv` lines 40–58.
-/

namespace RolloutRuntime

open RingBuffer

namespace Rtl

/-! ### Clock edges of the engine -/

namespace Engine

variable {w : ℕ} (s : Engine w)

@[simp] theorem run_nil : s.run [] = s := rfl

@[simp] theorem run_cons (i : Input) (is : List Input) : s.run (i :: is) = (s.step i).run is := rfl

theorem run_append (is js : List Input) : s.run (is ++ js) = (s.run is).run js :=
  List.foldl_append

theorem accepted_append (is js : List Input) :
    s.accepted (is ++ js) = s.accepted is ++ (s.run is).accepted js := by
  induction is generalizing s with
  | nil => rfl
  | cons i is ih => rw [List.cons_append, accepted, accepted, ih, List.append_assoc, run_cons]

/-- At clock edges with `host_desc_valid` low nothing is pushed. -/
theorem accepted_of_low {is : List Input} (h : ∀ i ∈ is, i.hostDescValid = false) :
    s.accepted is = [] := by
  induction is generalizing s with
  | nil => rfl
  | cons i is ih =>
    obtain ⟨hi, his⟩ := List.forall_mem_cons.mp h
    simp [accepted, hi, ih _ his]

/-- The descriptor ring holds what the clock edges pushed into it, after what was pushed before. -/
theorem run_descRing_holds {pushed popped : List Desc} (h : s.descRing.Holds pushed popped)
    (is : List Input) :
    ∃ popped', (s.run is).descRing.Holds (pushed ++ s.accepted is) (popped ++ popped') := by
  induction is generalizing s pushed popped with
  | nil => exact ⟨[], by simpa [accepted] using h⟩
  | cons i is ih =>
    have hstep := ClockedRing.Holds.step h i.hostDesc i.hostDescValid s.cmdPopReady
    obtain ⟨popped', hrun⟩ := ih (s.step i) hstep
    refine ⟨s.descRing.popped s.cmdPopReady ++ popped', ?_⟩
    rw [accepted, ← List.append_assoc, ← List.append_assoc]
    exact hrun

end Engine

/-! ### Clock edges of a call -/

namespace Bridge

variable {w : ℕ} {b : Bridge w}

/-- The inputs at the clock edges of `waitReady`. -/
def waitReadyEdges : ℕ → Bridge w → List Input
  | 0, _ => []
  | n + 1, b => if b.top.hostDescReady then [] else b.input :: waitReadyEdges n b.tick

/-- The inputs at the clock edges of `submit`. -/
def submitEdges (b : Bridge w) : List Input :=
  let b' := waitReady 16 b
  waitReadyEdges 16 b ++
    if !b'.top.hostDescReady then []
    else [input { b' with hostDescValid := true, doorbellPulse := true }]

/-- The inputs at the clock edges of one call. -/
def edges (b : Bridge w) : BridgeCall → List Input
  | .submitDecode rolloutId seqLen maxTokens rewardModelId kvArenaId prefixId kvOffset deltaOffset =>
    if seqLen.toNat > 0xFFFF || maxTokens.toNat > 0xFFFF then []
    else if kvOffset.toNat > 0xFFFFFFFF || deltaOffset.toNat > 0xFFFFFFFF then []
    else submitEdges { b with
      hostDesc := packDesc descOpDecode 0 rolloutId kvArenaId prefixId kvOffset deltaOffset seqLen
        maxTokens rewardModelId 0 }
  | .submitStop rolloutId =>
    if rolloutId.toNat > 0xFFFF then []
    else submitEdges { b with hostDesc := packDesc descOpStop 0 rolloutId 0 0 0 0 0 0 0 0 }
  | .tick => [b.input]
  | .setCompletionReady _ => []
  | .pollCompletion out =>
    if !b.top.hostCompValid || !out then [] else if b.hostCompReady then [b.input] else []

/-- The descriptors pushed into the descriptor ring during one call. -/
def descPushed (b : Bridge w) (call : BridgeCall) : List Desc := b.top.accepted (b.edges call)

/-- The registers in which `waitReady` looks at `host_desc_ready`; the look after the loop is at the last
of them again. -/
def readySamples : ℕ → Bridge w → List (Engine w)
  | 0, b => [b.top]
  | n + 1, b => if b.top.hostDescReady then [b.top] else b.top :: readySamples n b.tick

/-- The registers in which a call looks at `host_desc_ready`. -/
def samples (b : Bridge w) : BridgeCall → List (Engine w)
  | .submitDecode rolloutId seqLen maxTokens rewardModelId kvArenaId prefixId kvOffset deltaOffset =>
    readySamples 16 { b with
      hostDesc := packDesc descOpDecode 0 rolloutId kvArenaId prefixId kvOffset deltaOffset seqLen
        maxTokens rewardModelId 0 }
  | .submitStop rolloutId =>
    readySamples 16 { b with hostDesc := packDesc descOpStop 0 rolloutId 0 0 0 0 0 0 0 0 }
  | _ => []

/-! ### Waiting for room -/

theorem waitReady_edges (n : ℕ) (b : Bridge w) :
    (waitReady n b).top = b.top.run (waitReadyEdges n b) ∧
      (waitReady n b).cycles = b.cycles + BitVec.ofNat 64 (waitReadyEdges n b).length ∧
      (waitReady n b).hostDesc = b.hostDesc ∧ (waitReady n b).hostDescValid = b.hostDescValid := by
  induction n generalizing b with
  | zero => simp [waitReady, waitReadyEdges]
  | succ n ih =>
    rw [waitReady, waitReadyEdges]
    split_ifs
    · simp
    · obtain ⟨htop, hcycles, hdesc, hvalid⟩ := ih b.tick
      refine ⟨htop, ?_, hdesc, hvalid⟩
      rw [hcycles, List.length_cons, Nat.add_comm, BitVec.ofNat_add, ← BitVec.add_assoc]
      rfl

theorem waitReadyEdges_low (n : ℕ) (h : b.hostDescValid = false) :
    ∀ i ∈ waitReadyEdges n b, i.hostDescValid = false := by
  induction n generalizing b with
  | zero => simp [waitReadyEdges]
  | succ n ih =>
    rw [waitReadyEdges]
    split_ifs
    · simp
    · exact List.forall_mem_cons.mpr ⟨h, ih (b := b.tick) h⟩

theorem readySamples_length_le (n : ℕ) (b : Bridge w) : (readySamples n b).length ≤ n + 1 := by
  induction n generalizing b with
  | zero => simp [readySamples]
  | succ n ih =>
    rw [readySamples]
    split_ifs
    · simp
    · exact Nat.succ_le_succ (ih b.tick)

/-- If there is no room after the loop, there was none at any look. -/
theorem readySamples_of_not_ready (n : ℕ) (h : (waitReady n b).top.hostDescReady = false) :
    (readySamples n b).length = n + 1 ∧ ∀ s ∈ readySamples n b, s.hostDescReady = false := by
  induction n generalizing b with
  | zero => simpa [readySamples, waitReady] using h
  | succ n ih =>
    rw [waitReady] at h
    rw [readySamples]
    split_ifs at h ⊢ with hready
    · simp [hready] at h
    · obtain ⟨hlen, hall⟩ := ih h
      exact ⟨by rw [List.length_cons, hlen], List.forall_mem_cons.mpr ⟨by simpa using hready, hall⟩⟩

/-! ### One submission -/

/-- A submission of the descriptor `d` reports truly with its result `r`: it found the registers `s`, made
the clock edges `edges`, and looked at `host_desc_ready` in the registers `samples`. -/
structure Reports (s : Engine w) (edges : List Input) (samples : List (Engine w)) (d : Desc)
    (r : Bool) : Prop where
  pushed_iff : r = true ↔ s.accepted edges = [d]
  none_iff : r = false ↔ s.accepted edges = []
  samples_le : samples.length ≤ 17
  full : r = false → samples.length = 17 ∧ ∀ look ∈ samples, look.descRing.full = true

theorem submit_edges (b : Bridge w) : b.submit.1.top = b.top.run b.submitEdges := by
  obtain ⟨htop, -⟩ := waitReady_edges 16 b
  rw [submitEdges, Engine.run_append, ← htop]
  cases hready : (waitReady 16 b).top.hostDescReady with
  | false => simp [submit, hready]
  | true => simp [submit, hready, tick, input]

theorem submit_reports (h : b.hostDescValid = false) :
    Reports b.top b.submitEdges (readySamples 16 b) (Desc.ofWords b.hostDesc) b.submit.2 := by
  obtain ⟨htop, -, hdesc, -⟩ := waitReady_edges 16 b
  have hwait : b.top.accepted (waitReadyEdges 16 b) = [] :=
    b.top.accepted_of_low (waitReadyEdges_low 16 h)
  cases hready : (waitReady 16 b).top.hostDescReady with
  | false =>
    have hsub : b.submit = (waitReady 16 b, false) := by simp [submit, hready]
    have hedges : b.submitEdges = waitReadyEdges 16 b := by simp [submitEdges, hready]
    obtain ⟨hlen, hall⟩ := readySamples_of_not_ready 16 hready
    rw [hsub, hedges]
    refine ⟨by simp [hwait], by simp [hwait], hlen.le, fun _ => ⟨hlen, fun s hs => ?_⟩⟩
    simpa [Engine.hostDescReady, ClockedRing.pushReady] using hall s hs
  | true =>
    -- the one edge with `host_desc_valid` high finds the room that the loop found
    have hpush : b.top.accepted b.submitEdges = [Desc.ofWords b.hostDesc] := by
      rw [submitEdges, Engine.accepted_append, hwait, ← htop]
      simp [hready, Engine.accepted, input, hdesc]
    have hsub : b.submit.2 = true := by simp [submit, hready]
    rw [hsub]
    exact ⟨by simp [hpush], by simp [hpush], readySamples_length_le 16 b, by simp⟩

theorem submit_hostDescValid (h : b.hostDescValid = false) : b.submit.1.hostDescValid = false := by
  obtain ⟨-, -, -, hvalid⟩ := waitReady_edges 16 b
  rw [submit]
  split_ifs
  · exact hvalid.trans h
  · rfl

section Calls

variable (rolloutId seqLen maxTokens rewardModelId kvArenaId prefixId : BitVec 16)
  (kvOffset deltaOffset : BitVec 32)

/-- The range checks of `submit_decode` refuse nothing: the parameters are no wider. -/
theorem submitDecode_eq (b : Bridge w) :
    b.submitDecode rolloutId seqLen maxTokens rewardModelId kvArenaId prefixId kvOffset deltaOffset =
      submit { b with
        hostDesc := packDesc descOpDecode 0 rolloutId kvArenaId prefixId kvOffset deltaOffset seqLen
          maxTokens rewardModelId 0 } := by
  have hseq := seqLen.isLt
  have hmax := maxTokens.isLt
  have hkv := kvOffset.isLt
  have hdelta := deltaOffset.isLt
  rw [submitDecode, if_neg (by simp; omega), if_neg (by simp; omega)]

theorem edges_submitDecode (b : Bridge w) :
    b.edges (.submitDecode rolloutId seqLen maxTokens rewardModelId kvArenaId prefixId kvOffset
        deltaOffset) =
      submitEdges { b with
        hostDesc := packDesc descOpDecode 0 rolloutId kvArenaId prefixId kvOffset deltaOffset seqLen
          maxTokens rewardModelId 0 } := by
  have hseq := seqLen.isLt
  have hmax := maxTokens.isLt
  have hkv := kvOffset.isLt
  have hdelta := deltaOffset.isLt
  rw [edges, if_neg (by simp; omega), if_neg (by simp; omega)]

theorem submitStop_eq (b : Bridge w) :
    b.submitStop rolloutId =
      submit { b with hostDesc := packDesc descOpStop 0 rolloutId 0 0 0 0 0 0 0 0 } := by
  have hid := rolloutId.isLt
  rw [submitStop, if_neg (by omega)]

theorem edges_submitStop (b : Bridge w) :
    b.edges (.submitStop rolloutId) =
      submitEdges { b with hostDesc := packDesc descOpStop 0 rolloutId 0 0 0 0 0 0 0 0 } := by
  have hid := rolloutId.isLt
  rw [edges, if_neg (by omega)]

end Calls

/-! ### Runs -/

/-- **No call leaves `host_desc_valid` high.** -/
theorem exec_hostDescValid (h : b.hostDescValid = false) (call : BridgeCall) :
    (b.exec call).1.hostDescValid = false := by
  cases call with
  | submitDecode =>
    rw [exec, submitDecode_eq]
    exact submit_hostDescValid h
  | submitStop =>
    rw [exec, submitStop_eq]
    exact submit_hostDescValid h
  | tick => exact h
  | setCompletionReady => exact h
  | pollCompletion out =>
    simp only [exec, pollCompletion]
    split_ifs <;> exact h

/-- **The registers after a call are those after its clock edges.** -/
theorem exec_edges (b : Bridge w) (call : BridgeCall) :
    (b.exec call).1.top = b.top.run (b.edges call) := by
  cases call with
  | submitDecode =>
    rw [exec, submitDecode_eq, edges_submitDecode]
    exact submit_edges _
  | submitStop =>
    rw [exec, submitStop_eq, edges_submitStop]
    exact submit_edges _
  | tick => rfl
  | setCompletionReady => rfl
  | pollCompletion out =>
    simp only [exec, pollCompletion, edges]
    split_ifs <;> rfl

theorem run_hostDescValid (h : b.hostDescValid = false) (calls : List BridgeCall) :
    (b.run calls).hostDescValid = false := by
  induction calls generalizing b with
  | nil => exact h
  | cons call calls ih => exact ih (exec_hostDescValid h call)

/-- The descriptor ring of a bridge in use holds some of the descriptors pushed so far. -/
theorem run_descRing_holds (descMem : Fin (2 ^ w) → Desc) (compMem : Fin (2 ^ w) → Comp) (n : ℕ)
    (calls : List BridgeCall) :
    ∃ pushed popped, ((reset descMem compMem n).run calls).top.descRing.Holds pushed popped := by
  have hrun : ∀ (b : Bridge w) (pushed popped : List Desc), b.top.descRing.Holds pushed popped →
      ∃ pushed popped, (b.run calls).top.descRing.Holds pushed popped := by
    induction calls with
    | nil => exact fun b pushed popped h => ⟨pushed, popped, h⟩
    | cons call calls ih =>
      intro b pushed popped h
      obtain ⟨popped', hcall⟩ := b.top.run_descRing_holds h (b.edges call)
      rw [← exec_edges] at hcall
      exact ih _ _ _ hcall
  obtain ⟨popped, h⟩ := (Engine.reset descMem compMem).run_descRing_holds
    (ClockedRing.reset_holds descMem)
    [input ⟨.reset descMem compMem, fun _ => 0, false, false, false, BitVec.ofNat 64 (n + 1), [], []⟩]
  exact hrun _ _ _ h

end Bridge

/-- **Submissions report what they did.** For every ring size, whatever the slots held at reset, after
every sequence of calls and for all arguments: `submit_decode` and `submit_stop` return true exactly if
one descriptor is pushed into the descriptor ring during the call, the one that encodes the arguments, and
false exactly if none is; and they return false only if the ring was full at all 17 looks. The ring then
holds what was pushed during the call after what was pushed before. -/
theorem submissions_report (w : ℕ) (descMem : Fin (2 ^ w) → Desc) (compMem : Fin (2 ^ w) → Comp) (n : ℕ)
    (calls : List BridgeCall) :
    let b := (Bridge.reset descMem compMem n).run calls
    (∀ (rolloutId seqLen maxTokens rewardModelId kvArenaId prefixId : BitVec 16)
        (kvOffset deltaOffset : BitVec 32),
      let call := BridgeCall.submitDecode rolloutId seqLen maxTokens rewardModelId kvArenaId prefixId
        kvOffset deltaOffset
      Bridge.Reports b.top (b.edges call) (b.samples call)
        ⟨descOpDecode, 0, rolloutId, kvArenaId, prefixId, kvOffset, deltaOffset, seqLen, maxTokens,
          rewardModelId, 0⟩
        (b.submitDecode rolloutId seqLen maxTokens rewardModelId kvArenaId prefixId kvOffset
          deltaOffset).2) ∧
      (∀ rolloutId : BitVec 16,
        Bridge.Reports b.top (b.edges (.submitStop rolloutId)) (b.samples (.submitStop rolloutId))
          ⟨descOpStop, 0, rolloutId, 0, 0, 0, 0, 0, 0, 0, 0⟩ (b.submitStop rolloutId).2) ∧
      ∀ call, ∃ pushed popped popped',
        b.top.descRing.Holds pushed popped ∧
          (b.exec call).1.top.descRing.Holds (pushed ++ b.descPushed call) (popped ++ popped') := by
  intro b
  have hlow : b.hostDescValid = false := Bridge.run_hostDescValid rfl calls
  refine ⟨?_, ?_, ?_⟩
  · intro rolloutId seqLen maxTokens rewardModelId kvArenaId prefixId kvOffset deltaOffset call
    rw [Bridge.edges_submitDecode, Bridge.submitDecode_eq]
    have hrep := Bridge.submit_reports (b := { b with
      hostDesc := packDesc descOpDecode 0 rolloutId kvArenaId prefixId kvOffset deltaOffset seqLen
        maxTokens rewardModelId 0 }) hlow
    rw [Desc.ofWords_packDesc ⟨descOpDecode, 0, rolloutId, kvArenaId, prefixId, kvOffset, deltaOffset,
      seqLen, maxTokens, rewardModelId, 0⟩] at hrep
    exact hrep
  · intro rolloutId
    rw [Bridge.edges_submitStop, Bridge.submitStop_eq]
    have hrep := Bridge.submit_reports (b := { b with
      hostDesc := packDesc descOpStop 0 rolloutId 0 0 0 0 0 0 0 0 }) hlow
    rw [Desc.ofWords_packDesc ⟨descOpStop, 0, rolloutId, 0, 0, 0, 0, 0, 0, 0, 0⟩] at hrep
    exact hrep
  · intro call
    obtain ⟨pushed, popped, hb⟩ := Bridge.run_descRing_holds descMem compMem n calls
    obtain ⟨popped', hcall⟩ := b.top.run_descRing_holds hb (b.edges call)
    refine ⟨pushed, popped, popped', hb, ?_⟩
    rw [Bridge.exec_edges]
    exact hcall

end Rtl

end RolloutRuntime
