import RolloutRuntime.Rtl.EndToEnd
import RolloutRuntime.Rtl.Submissions

/-!
# Progress of the engine and sessions of the host

As long as a descriptor is not answered and no completion is offered, every clock edge brings the engine
nearer to offering one, whatever stands on its inputs: an idle worker takes a descriptor, a worker that
counts is nearer to the next multiple of 32, and a finished completion finds room in the empty completion
ring. So a completion is offered after at most 34 clock edges, and a host that stays ready takes one in
every 35 cycles.

A host that makes submissions and waits, and does nothing else, sees a queue: each wait that is long
enough returns the completion of the oldest descriptor not answered yet, and returns nothing only if
there is none.

## Main definitions

* `Rtl.Engine.waitCycles`: a bound on the clock edges until a completion is offered.
* `Rtl.HostOp`, `Rtl.Bridge.session`: the submissions and waits of a host, and what they returned.
* `Rtl.QueueStep`, `Rtl.QueueSession`: what they return if the engine is a queue.

## Main results

* `Rtl.Engine.Holds.waitCycles_step`: every clock edge brings the engine nearer to a completion.
* `Rtl.engine_answers_all`: a host that stays ready gets all completions.
* `Rtl.bridge_sessions`: the bridge is a queue for a host that submits and waits.

## References

* `rtl/rl_runtime_top.sv` lines 40–85, `rtl/rollout_worker_fsm.sv` lines 36–89,
  `verilator/sim_main.cpp` lines 19–110, `verilator/rtl_bridge.cpp` lines 149–235.
-/

namespace RolloutRuntime

open RingBuffer

namespace Rtl

/-! ### Progress -/

theorem one_le_cyclesLeft (tok : BitVec 16) : 1 ≤ cyclesLeft tok := by
  have := Nat.mod_lt tok.toNat (show 32 > 0 by decide)
  simp only [cyclesLeft]
  omega

namespace Engine

variable {w : ℕ} {s : Engine w} {accepted : List Desc} {delivered : List Comp}

/-- A bound on the clock edges until a completion is offered to the host, if there is a descriptor to
answer. -/
def waitCycles (s : Engine w) : ℕ :=
  if s.hostCompValid then 0
  else match s.worker.state with
    | .complete => 1
    | .decode => cyclesLeft s.worker.tokenCount + 1
    | _ => 34

theorem waitCycles_le (s : Engine w) : s.waitCycles ≤ 34 := by
  have hle := cyclesLeft_le s.worker.tokenCount
  unfold waitCycles
  split_ifs
  · omega
  · split <;> omega

theorem waitCycles_complete (h : s.worker.state = .complete) : s.waitCycles ≤ 1 := by
  unfold waitCycles
  split_ifs
  · omega
  · simp [h]

theorem waitCycles_decode (h : s.worker.state = .decode) :
    s.waitCycles ≤ cyclesLeft s.worker.tokenCount + 1 := by
  unfold waitCycles
  split_ifs
  · omega
  · simp [h]

theorem waitCycles_take (hs : s.worker.state = .idle) (hpop : s.descRing.popValid = true) (i : Input) :
    (s.step i).waitCycles ≤ 33 := by
  have hready : s.worker.inReady = true := by simp [Worker.inReady, hs]
  cases hd : sIdle s.descRing.popData with
  | some c =>
    have hnext : (s.step i).worker.state = .complete := by
      simp [Engine.step, Worker.step, hs, hpop, hready, hd]
    exact (waitCycles_complete hnext).trans (by decide)
  | none =>
    have hnext : (s.step i).worker.state = .decode := by
      simp [Engine.step, Worker.step, hs, hpop, hready, hd]
    have hle := cyclesLeft_le (s.step i).worker.tokenCount
    exact (waitCycles_decode hnext).trans (by omega)

theorem waitCycles_count (hs : s.worker.state = .decode) (i : Input) :
    (s.step i).waitCycles ≤ cyclesLeft s.worker.tokenCount := by
  cases hd : sDecode s.worker.activeDesc s.worker.tokenCount with
  | some c =>
    have hnext : (s.step i).worker.state = .complete := by
      rw [Engine.step, Worker.step_decode_some hs hd]
    exact (waitCycles_complete hnext).trans (one_le_cyclesLeft _)
  | none =>
    have hworker : (s.step i).worker = { s.worker with tokenCount := s.worker.tokenCount + 1 } := by
      rw [Engine.step, Worker.step_decode_none hs hd]
    have hle := waitCycles_decode (s := s.step i) (by rw [hworker]; exact hs)
    rw [hworker] at hle
    rwa [cyclesLeft_add_one hd]

theorem Holds.hostCompValid_iff {answered : List Comp}
    (h : s.completionRing.Holds answered delivered) :
    s.hostCompValid = true ↔ delivered.length < answered.length := by
  have hle := h.length_le
  have hempty := h.empty_iff
  rw [hostCompValid, ClockedRing.popValid, Bool.not_eq_true', ← Bool.not_eq_true, hempty]
  omega

/-- **Every clock edge brings the engine nearer to a completion**, as long as none is offered and there
is a descriptor to answer. -/
theorem Holds.waitCycles_step (h : s.Holds accepted delivered)
    (hlt : delivered.length < accepted.length) (hvalid : s.hostCompValid = false) (i : Input) :
    (s.step i).waitCycles < s.waitCycles := by
  obtain ⟨taken, answered, hdesc, hworker, hcomp⟩ := h
  have hnone : ¬ delivered.length < answered.length := by
    rw [← Holds.hostCompValid_iff hcomp, hvalid]
    simp
  have hle := hcomp.length_le
  cases hs : s.worker.state with
  | idle =>
    have hmap : taken.map workerFunction = answered := by simpa [Worker.Between, hs] using hworker
    have hpop : s.descRing.popValid = true := by
      have hempty := hdesc.empty_iff
      have hlen : taken.length = answered.length := by rw [← hmap, List.length_map]
      rw [ClockedRing.popValid, Bool.not_eq_true', ← Bool.not_eq_true, hempty]
      omega
    have hnow : s.waitCycles = 34 := by simp [waitCycles, hvalid, hs]
    have hnext := waitCycles_take hs hpop i
    omega
  | decode =>
    have hnow : s.waitCycles = cyclesLeft s.worker.tokenCount + 1 := by
      simp [waitCycles, hvalid, hs]
    have hnext := waitCycles_count hs i
    omega
  | complete =>
    -- the completion ring is empty, so the completion is pushed at this edge and offered after it
    have hroom : s.completionRing.full = false := by
      have hpos := Nat.two_pow_pos w
      rw [← Bool.not_eq_true, hcomp.full_iff]
      omega
    have hpush : s.completionRing.pushed s.worker.outComp s.worker.outValid = [s.worker.outComp] := by
      simp [ClockedRing.pushed, ClockedRing.pushReady, Worker.outValid, hs, hroom]
    have hpop : s.completionRing.popped i.hostCompReady = [] := by
      have hpop : s.completionRing.popValid = false := hvalid
      simp [ClockedRing.popped, hpop]
    have hring := hcomp.step s.worker.outComp s.worker.outValid i.hostCompReady
    rw [hpush, hpop] at hring
    have hoffered : (s.step i).hostCompValid = true := by
      refine (Holds.hostCompValid_iff (s := s.step i) hring).mpr ?_
      rw [List.append_nil, List.length_append, List.length_singleton]
      omega
    have hnow : s.waitCycles = 1 := by simp [waitCycles, hvalid, hs]
    have hnext : (s.step i).waitCycles = 0 := by simp [waitCycles, hoffered]
    omega
  | unused => simp [Worker.Between, hs] at hworker

/-! ### A host that stays ready -/

theorem delivered_append (s : Engine w) (is js : List Input) :
    s.delivered (is ++ js) = s.delivered is ++ (s.run is).delivered js := by
  induction is generalizing s with
  | nil => rfl
  | cons i is ih =>
    rw [List.cons_append, Engine.delivered, Engine.delivered, ih, List.append_assoc, run_cons]

/-- A host that stays ready takes a completion once it was offered. -/
theorem Holds.one_le_delivered (h : s.Holds accepted delivered)
    (hlt : delivered.length < accepted.length) {js : List Input}
    (hready : ∀ i ∈ js, i.hostCompReady = true) (hlen : s.waitCycles < js.length) :
    1 ≤ (s.delivered js).length := by
  induction js generalizing s accepted delivered with
  | nil => exact absurd hlen (Nat.not_lt_zero _)
  | cons i js ih =>
    obtain ⟨hi, hjs⟩ := List.forall_mem_cons.mp hready
    rw [Engine.delivered, List.length_append]
    cases hvalid : s.hostCompValid with
    | true => simp [hi]
    | false =>
      have hstep := h.step i
      simp only [hvalid, Bool.false_and, Bool.false_eq_true, if_false, List.append_nil] at hstep
      have hnear := h.waitCycles_step hlt hvalid i
      rw [List.length_cons] at hlen
      have hrec := ih hstep (by rw [List.length_append]; omega) hjs (by omega)
      omega

/-- **A host that stays ready** takes a completion in every 35 cycles, as long as there are descriptors to
answer. -/
theorem Holds.min_le_delivered (h : s.Holds accepted delivered) (k : ℕ) {js : List Input}
    (hready : ∀ i ∈ js, i.hostCompReady = true) (hlen : 35 * k ≤ js.length) :
    min (accepted.length - delivered.length) k ≤ (s.delivered js).length := by
  induction k generalizing s accepted delivered js with
  | zero => exact (Nat.min_le_right _ _).trans (Nat.zero_le _)
  | succ k ih =>
    by_cases hlt : delivered.length < accepted.length
    · have hle := s.waitCycles_le
      have hfirst : (js.take 35).length = 35 := by
        rw [List.length_take]
        omega
      have hone := h.one_le_delivered hlt (fun i hi => hready i (List.mem_of_mem_take hi))
        (by rw [hfirst]; omega)
      have hlast : 35 * k ≤ (js.drop 35).length := by
        rw [List.length_drop]
        omega
      have hrest := ih (h.run (js.take 35)) (fun i hi => hready i (List.mem_of_mem_drop hi)) hlast
      have hjs : s.delivered js =
          s.delivered (js.take 35) ++ (s.run (js.take 35)).delivered (js.drop 35) := by
        rw [← delivered_append, List.take_append_drop]
      rw [List.length_append, List.length_append] at hrest
      rw [hjs, List.length_append]
      omega
    · omega

end Engine

/-- **A host that stays ready gets all completions.** For every ring size, whatever the slots held at
reset, and every sequence of inputs: if the host is ready for completions in all cycles after it, and these
are at least 35 for each descriptor accepted and not answered, then at their end every descriptor accepted
before them has its completion delivered, in the order of the descriptors, whatever else is submitted
meanwhile. -/
theorem engine_answers_all (w : ℕ) (descMem : Fin (2 ^ w) → Desc) (compMem : Fin (2 ^ w) → Comp)
    (is js : List Input) (hready : ∀ j ∈ js, j.hostCompReady = true)
    (hlen : 35 * (((Engine.reset descMem compMem).accepted is).length -
      ((Engine.reset descMem compMem).delivered is).length) ≤ js.length) :
    ((Engine.reset descMem compMem).accepted is).map workerFunction <+:
      (Engine.reset descMem compMem).delivered (is ++ js) := by
  have hrun := (Engine.reset_holds descMem compMem).run is
  simp only [List.nil_append] at hrun
  have hmany := hrun.min_le_delivered _ hready hlen
  have hall := ((Engine.reset_holds descMem compMem).run (is ++ js)).delivered_le.1
  simp only [List.nil_append, Engine.accepted_append, List.map_append] at hall
  refine List.prefix_of_prefix_length_le (List.prefix_append _ _) hall ?_
  rw [Engine.delivered_append, List.length_append, List.length_map]
  omega

/-- A decode request from the length 0 needs the 35 cycles. -/
theorem engine_answers_one :
    let d : Desc := ⟨descOpDecode, 0, 7, 0, 0, 0, 0, 0, 64, 4, 0⟩
    let s : Engine 1 := Engine.reset (fun _ => default) (fun _ => default)
    let js := List.replicate 35 (⟨d, false, true, false⟩ : Input)
    [workerFunction d] <+: s.delivered ([⟨d, true, false, true⟩] ++ js) ∧
      s.delivered ([⟨d, true, false, true⟩] ++ js.tail) = [] := by
  intro d s js
  refine ⟨?_, by decide⟩
  exact engine_answers_all 1 (fun _ => default) (fun _ => default) [⟨d, true, false, true⟩] js
    (fun j hj => by rw [List.eq_of_mem_replicate hj]) (by decide)

/-! ### Sessions -/

/-- The operations of a host that submits and waits. -/
inductive HostOp
  | submitDecode (rolloutId seqLen maxTokens rewardModelId kvArenaId prefixId : BitVec 16)
      (kvOffset deltaOffset : BitVec 32)
  | submitStop (rolloutId : BitVec 16)
  | waitForCompletion (timeoutCycles : ℕ)

namespace Bridge

variable {w : ℕ} {b : Bridge w} {descs : List Desc}

/-- One operation of the host. -/
def hostOp (b : Bridge w) : HostOp → Bridge w × BridgeReply
  | .submitDecode rolloutId seqLen maxTokens rewardModelId kvArenaId prefixId kvOffset deltaOffset =>
    (b.submitDecode rolloutId seqLen maxTokens rewardModelId kvArenaId prefixId kvOffset
      deltaOffset).map id .submitted
  | .submitStop rolloutId => (b.submitStop rolloutId).map id .submitted
  | .waitForCompletion timeoutCycles => (b.waitForCompletion timeoutCycles).map id .polled

/-- The operations of a session with what they returned. -/
def session (b : Bridge w) : List HostOp → List (HostOp × BridgeReply)
  | [] => []
  | op :: ops => (op, (b.hostOp op).2) :: (b.hostOp op).1.session ops

end Bridge

/-- The descriptor of a submission. -/
def HostOp.desc : HostOp → Option Desc
  | .submitDecode rolloutId seqLen maxTokens rewardModelId kvArenaId prefixId kvOffset deltaOffset =>
    some ⟨descOpDecode, 0, rolloutId, kvArenaId, prefixId, kvOffset, deltaOffset, seqLen, maxTokens,
      rewardModelId, 0⟩
  | .submitStop rolloutId => some ⟨descOpStop, 0, rolloutId, 0, 0, 0, 0, 0, 0, 0, 0⟩
  | .waitForCompletion _ => none

/-- One operation of the host on a queue of descriptors, with rings of `slots` slots: a submission appends
its descriptor or is refused, and a wait returns the completion of the oldest descriptor. -/
inductive QueueStep (slots : ℕ) : List Desc → HostOp → BridgeReply → List Desc → Prop
  | accepted {q : List Desc} {op : HostOp} {d : Desc} (hop : op.desc = some d)
      (hq : q.length ≤ 2 * slots) : QueueStep slots q op (.submitted true) (q ++ [d])
  | refused {q : List Desc} {op : HostOp} {d : Desc} (hop : op.desc = some d)
      (hq : slots < q.length) : QueueStep slots q op (.submitted false) q
  | found {d : Desc} {q : List Desc} {timeoutCycles : ℕ} :
      QueueStep slots (d :: q) (.waitForCompletion timeoutCycles)
        (.polled (some (workerFunction d))) q
  | nothing {timeoutCycles : ℕ} :
      QueueStep slots [] (.waitForCompletion timeoutCycles) (.polled none) []

/-- A session of operations on a queue that holds the descriptors `q`. -/
def QueueSession (slots : ℕ) : List Desc → List (HostOp × BridgeReply) → Prop
  | _, [] => True
  | q, (op, reply) :: log => ∃ q', QueueStep slots q op reply q' ∧ QueueSession slots q' log

namespace Bridge

variable {w : ℕ} {b : Bridge w} {descs : List Desc}

/-- The bridge between two calls of a session, after the descriptors `descs` were accepted. -/
structure Serves (b : Bridge w) (descs : List Desc) : Prop where
  holds : b.top.Holds descs b.left
  records : b.Holds
  low : b.hostDescValid = false

theorem Serves.tick (h : b.Serves descs) : b.tick.Serves descs := by
  have hlow : b.input.hostDescValid = false := h.low
  have hstep := h.holds.step b.input
  simp only [hlow, Bool.false_and, Bool.false_eq_true, if_false, List.append_nil] at hstep
  exact ⟨hstep, b.tick_advances.holds h.records, h.low⟩

theorem Serves.drive (h : b.Serves descs) (words : DescWords) :
    Serves { b with hostDesc := words } descs := ⟨h.holds, h.records, h.low⟩

theorem Serves.waitReady (h : b.Serves descs) (n : ℕ) : (waitReady n b).Serves descs := by
  induction n generalizing b with
  | zero => exact h
  | succ n ih =>
    rw [Bridge.waitReady]
    split_ifs
    · exact h
    · exact ih h.tick

/-- A full descriptor ring with an idle worker has room after one clock edge, so while there is none the
worker holds a descriptor as well. -/
theorem Serves.of_not_ready (h : b.Serves descs) (hnow : b.top.hostDescReady = false)
    (hnext : b.tick.top.hostDescReady = false) : b.left.length + 2 ^ w < descs.length := by
  obtain ⟨taken, answered, hdesc, hworker, hcomp⟩ := h.holds
  have hpos := Nat.two_pow_pos w
  have hle := hcomp.length_le
  have hfull : b.top.descRing.full = true := by
    simpa [Engine.hostDescReady, ClockedRing.pushReady] using hnow
  have hlen := hdesc.full_iff.mp hfull
  have hbusy : taken.length ≠ answered.length := by
    intro heq
    have hidle : b.top.worker.inReady = true := by
      cases hs : b.top.worker.state with
      | idle => simp [Worker.inReady, hs]
      | decode =>
        obtain ⟨ds, rfl, rfl, -⟩ := by simpa [Worker.Between, hs] using hworker
        simp at heq
      | complete =>
        obtain ⟨ds, d, rfl, rfl, -⟩ := by simpa [Worker.Between, hs] using hworker
        simp at heq
      | unused => simp [Worker.Between, hs] at hworker
    have hempty := hdesc.empty_iff
    have hpop : b.top.descRing.popValid = true := by
      rw [ClockedRing.popValid, Bool.not_eq_true', ← Bool.not_eq_true, hempty]
      omega
    have hring := hdesc.step b.input.hostDesc b.input.hostDescValid b.top.cmdPopReady
    have hpushed : b.top.descRing.pushed b.input.hostDesc b.input.hostDescValid = [] := by
      simp [ClockedRing.pushed, input, h.low]
    have hpopped : b.top.descRing.popped b.top.cmdPopReady = [b.top.descRing.popData] := by
      simp [ClockedRing.popped, Engine.cmdPopReady, hidle, hpop]
    rw [hpushed, hpopped, List.append_nil] at hring
    have hfull' : b.tick.top.descRing.full = true := by
      simpa [Engine.hostDescReady, ClockedRing.pushReady] using hnext
    have hlen' := hring.full_iff.mp hfull'
    rw [List.length_append, List.length_singleton] at hlen'
    omega
  have hbetween := hworker.answered_le.2
  have hprefix := hworker.answered_le.1.length_le
  rw [List.length_map] at hprefix
  omega

/-- If there is no room after the loop, the ring and the worker were full when it began. -/
theorem Serves.of_waitReady (h : b.Serves descs)
    (hwait : (Bridge.waitReady 16 b).top.hostDescReady = false) :
    b.left.length + 2 ^ w < descs.length := by
  rw [Bridge.waitReady] at hwait
  split_ifs at hwait with hnow
  · rw [hnow] at hwait
    exact absurd hwait (by decide)
  · rw [Bridge.waitReady] at hwait
    split_ifs at hwait with hnext
    · rw [hnext] at hwait
      exact absurd hwait (by decide)
    · exact h.of_not_ready (by simpa using hnow) (by simpa using hnext)

/-- **A submission** appends its descriptor, or finds the descriptor ring and the worker full. -/
theorem Serves.submit (h : b.Serves descs) :
    (b.submit.2 = true ∧ b.submit.1.Serves (descs ++ [Desc.ofWords b.hostDesc])) ∨
      (b.submit.2 = false ∧ b.submit.1.Serves descs ∧ b.left.length + 2 ^ w < descs.length) := by
  have hwait := h.waitReady 16
  obtain ⟨-, -, hwords, -⟩ := waitReady_edges 16 b
  cases hready : (Bridge.waitReady 16 b).top.hostDescReady with
  | false =>
    have hsub : b.submit = (Bridge.waitReady 16 b, false) := by simp [Bridge.submit, hready]
    rw [hsub]
    exact .inr ⟨rfl, hwait, h.of_waitReady hready⟩
  | true =>
    have hstep := hwait.holds.step
      (input { Bridge.waitReady 16 b with hostDescValid := true, doorbellPulse := true })
    refine .inl ⟨by simp [Bridge.submit, hready], ?_, (submit_advances b).holds h.records,
      submit_hostDescValid h.low⟩
    simpa [Bridge.submit, hready, Bridge.tick, input, hwords, ClockedRing.popped,
      Engine.hostCompValid, Engine.hostComp] using hstep

theorem Serves.hostComp (h : b.Serves descs) (hvalid : b.top.hostCompValid = true) :
    (descs.map workerFunction)[b.left.length]? = some b.top.hostComp := by
  obtain ⟨taken, answered, hdesc, hworker, hcomp⟩ := h.holds
  have hold : answered[b.left.length]? = some b.top.hostComp := hcomp.popData hvalid
  obtain ⟨hlt, hval⟩ := List.getElem?_eq_some_iff.mp hold
  rw [← hval]
  exact List.prefix_iff_getElem?.mp (hworker.answered_le.1.trans (hdesc.taken_le.map _)) _ hlt

/-- The loop of a wait returns the completion of the oldest descriptor not answered, if there is one. -/
theorem Serves.waitLoop (h : b.Serves descs) (hready : b.hostCompReady = true) {n : ℕ}
    (hn : b.left.length < descs.length → b.top.waitCycles < n) :
    (Bridge.waitLoop n b).1.Serves descs ∧ (Bridge.waitLoop n b).1.hostCompReady = false ∧
      (Bridge.waitLoop n b).2 = (descs.map workerFunction)[b.left.length]? := by
  induction n generalizing b with
  | zero =>
    rw [Bridge.waitLoop]
    refine ⟨⟨h.holds, h.records, h.low⟩, rfl, ?_⟩
    rw [List.getElem?_eq_none]
    rw [List.length_map]
    exact Nat.le_of_not_lt fun hlt => absurd (hn hlt) (Nat.not_lt_zero _)
  | succ n ih =>
    have htick := h.tick
    cases hvalid : b.top.hostCompValid with
    | true =>
      have hpoll : b.pollCompletion true = (b.tick, some b.top.hostComp) := by
        simp [pollCompletion, hvalid, hready, Comp.ofBus_packed]
      simp only [Bridge.waitLoop, hpoll]
      exact ⟨⟨htick.holds, htick.records, htick.low⟩, rfl, (h.hostComp hvalid).symm⟩
    | false =>
      have hpoll : b.pollCompletion true = (b, none) := by simp [pollCompletion, hvalid]
      have hleft : b.tick.left = b.left := by
        have hpop : b.top.completionRing.popValid = false := hvalid
        simp [Bridge.tick, ClockedRing.popped, hpop]
      have hrec := ih htick hready (fun hlt => by
        rw [hleft] at hlt
        have hnear := h.holds.waitCycles_step hlt hvalid b.input
        have hnow := hn hlt
        exact Nat.lt_of_lt_of_le hnear (Nat.le_of_lt_succ hnow))
      rw [hleft] at hrec
      simpa only [Bridge.waitLoop, hpoll] using hrec

theorem Serves.queueStep_submit (h : b.Serves descs) (hoff : b.hostCompReady = false) {op : HostOp}
    {d : Desc} (hop : op.desc = some d) (hd : Desc.ofWords b.hostDesc = d) :
    ∃ descs', b.submit.1.Serves descs' ∧ b.submit.1.hostCompReady = false ∧
      QueueStep (2 ^ w) (descs.drop b.left.length) op (.submitted b.submit.2)
        (descs'.drop b.submit.1.left.length) := by
  have hadv := submit_advances b
  have hleft := hadv.kept hoff
  have hle := h.holds.delivered_le.1.length_le
  rw [List.length_map] at hle
  obtain ⟨htrue, hserves⟩ | ⟨hfalse, hserves, hlong⟩ := h.submit
  · refine ⟨_, hserves, hadv.ready.trans hoff, ?_⟩
    have hbound := hserves.holds.delivered_le.2
    rw [hleft, List.length_append, List.length_singleton] at hbound
    rw [htrue, hleft, hd, List.drop_append_of_le_length hle]
    exact .accepted hop (by rw [List.length_drop]; omega)
  · refine ⟨_, hserves, hadv.ready.trans hoff, ?_⟩
    rw [hfalse, hleft]
    exact .refused hop (by rw [List.length_drop]; omega)

theorem Serves.queueStep_wait (h : b.Serves descs) {timeoutCycles : ℕ} (ht : 35 ≤ timeoutCycles) :
    (b.waitForCompletion timeoutCycles).1.Serves descs ∧
      (b.waitForCompletion timeoutCycles).1.hostCompReady = false ∧
      QueueStep (2 ^ w) (descs.drop b.left.length) (.waitForCompletion timeoutCycles)
        (.polled (b.waitForCompletion timeoutCycles).2)
        (descs.drop (b.waitForCompletion timeoutCycles).1.left.length) := by
  have hwait := b.top.waitCycles_le
  have hon : (b.setCompletionReady true).Serves descs := ⟨h.holds, h.records, h.low⟩
  obtain ⟨hserves, hoff, hfound⟩ := hon.waitLoop (n := timeoutCycles) rfl
    (fun _ => Nat.lt_of_le_of_lt hwait (by omega))
  have hleft := (waitForCompletion_spec h.records timeoutCycles).2
  refine ⟨hserves, hoff, ?_⟩
  have hfound' : (b.waitForCompletion timeoutCycles).2 =
      (descs.map workerFunction)[b.left.length]? := hfound
  rw [hleft, hfound', List.getElem?_map]
  by_cases hlt : b.left.length < descs.length
  · rw [List.getElem?_eq_getElem hlt, List.drop_eq_getElem_cons hlt]
    rw [Option.map_some, Option.toList_some, List.length_append, List.length_singleton]
    exact .found
  · rw [List.getElem?_eq_none (by omega), List.drop_eq_nil_of_le (by omega)]
    rw [Option.map_none, Option.toList_none, List.append_nil, List.drop_eq_nil_of_le (by omega)]
    exact .nothing

/-- **One operation of a session.** -/
theorem Serves.hostOp (h : b.Serves descs) (hoff : b.hostCompReady = false) (op : HostOp)
    (hop : ∀ t, op = .waitForCompletion t → 35 ≤ t) :
    ∃ descs', (b.hostOp op).1.Serves descs' ∧ (b.hostOp op).1.hostCompReady = false ∧
      QueueStep (2 ^ w) (descs.drop b.left.length) op (b.hostOp op).2
        (descs'.drop (b.hostOp op).1.left.length) := by
  cases op with
  | submitDecode rolloutId seqLen maxTokens rewardModelId kvArenaId prefixId kvOffset deltaOffset =>
    have hdesc : HostOp.desc (.submitDecode rolloutId seqLen maxTokens rewardModelId kvArenaId prefixId
        kvOffset deltaOffset) = some ⟨descOpDecode, 0, rolloutId, kvArenaId, prefixId, kvOffset,
          deltaOffset, seqLen, maxTokens, rewardModelId, 0⟩ := rfl
    have hpack := Desc.ofWords_packDesc ⟨descOpDecode, 0, rolloutId, kvArenaId, prefixId, kvOffset,
      deltaOffset, seqLen, maxTokens, rewardModelId, 0⟩
    simp only [Bridge.hostOp, submitDecode_eq, Prod.map_fst, Prod.map_snd, id_eq]
    exact (h.drive (packDesc descOpDecode 0 rolloutId kvArenaId prefixId kvOffset deltaOffset seqLen
      maxTokens rewardModelId 0)).queueStep_submit hoff hdesc hpack
  | submitStop rolloutId =>
    have hdesc : HostOp.desc (.submitStop rolloutId) =
        some ⟨descOpStop, 0, rolloutId, 0, 0, 0, 0, 0, 0, 0, 0⟩ := rfl
    have hpack := Desc.ofWords_packDesc ⟨descOpStop, 0, rolloutId, 0, 0, 0, 0, 0, 0, 0, 0⟩
    simp only [Bridge.hostOp, submitStop_eq, Prod.map_fst, Prod.map_snd, id_eq]
    exact (h.drive (packDesc descOpStop 0 rolloutId 0 0 0 0 0 0 0 0)).queueStep_submit hoff hdesc hpack
  | waitForCompletion timeoutCycles => exact ⟨descs, h.queueStep_wait (hop _ rfl)⟩

/-- **A session.** -/
theorem Serves.session (h : b.Serves descs) (hoff : b.hostCompReady = false) (ops : List HostOp)
    (hops : ∀ t, .waitForCompletion t ∈ ops → 35 ≤ t) :
    QueueSession (2 ^ w) (descs.drop b.left.length) (b.session ops) := by
  induction ops generalizing b descs with
  | nil => exact trivial
  | cons op ops ih =>
    obtain ⟨descs', hserves, hoff', hstep⟩ := h.hostOp hoff op (fun t ht => hops t (by simp [ht]))
    exact ⟨_, hstep, ih hserves hoff' fun t ht => hops t (List.mem_cons_of_mem _ ht)⟩

theorem reset_serves (descMem : Fin (2 ^ w) → Desc) (compMem : Fin (2 ^ w) → Comp) (n : ℕ) :
    (reset descMem compMem n).Serves [] :=
  Serves.tick ⟨Engine.reset_holds descMem compMem, ClockedRing.reset_holds compMem, rfl⟩

end Bridge

/-- **Sessions.** For every ring size, whatever the slots held at reset, and every sequence of submissions
and waits whose timeouts are at least 35 cycles, the engine is a queue to the host: a submission that is
accepted appends its descriptor and one that is refused leaves the queue alone; a wait returns the
completion of the oldest descriptor in the queue, and nothing exactly if the queue is empty. Submissions
are accepted as long as the queue is no longer than a ring, and never if it is longer than two. -/
theorem bridge_sessions (w : ℕ) (descMem : Fin (2 ^ w) → Desc) (compMem : Fin (2 ^ w) → Comp) (n : ℕ)
    (ops : List HostOp) (hops : ∀ t, .waitForCompletion t ∈ ops → 35 ≤ t) :
    QueueSession (2 ^ w) [] ((Bridge.reset descMem compMem n).session ops) := by
  have hserves := Bridge.reset_serves descMem compMem n
  have hsession := hserves.session ((Bridge.tick_advances _).ready.trans rfl) ops hops
  rwa [List.drop_nil] at hsession

/-- Two submissions and three waits: the third finds the queue empty. -/
theorem bridge_sessions_two :
    let start : Bridge 1 := Bridge.reset (fun _ => default) (fun _ => default) 4
    let ops : List HostOp := [.submitDecode 8 0 64 4 0 0 0 0, .submitStop 9, .waitForCompletion 256,
      .waitForCompletion 256, .waitForCompletion 35]
    QueueSession 2 [] (start.session ops) ∧
      (start.session ops).map Prod.snd = [.submitted true, .submitted true,
        .polled (some ⟨8, compStatusRewardNeeded, 32, 4⟩), .polled (some ⟨9, compStatusStopped, 0, 0⟩),
        .polled none] := by
  refine ⟨bridge_sessions 1 (fun _ => default) (fun _ => default) 4 _ ?_, by decide +kernel⟩
  simp

end Rtl

end RolloutRuntime
