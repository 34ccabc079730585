import RolloutRuntime.RingBuffer.Clocked

/-!
# The descriptor engine in hardware

The engine is three clocked modules: a ring of descriptors from the host, a worker, and a ring of
completions back to the host. The worker accepts one descriptor at a time. It answers a descriptor
that is no decode request at once, counts tokens for a decode request, one a cycle, until the token
limit or a multiple of 32 is reached, and offers the completion until the completion ring has room.

Signals are functions of the registers; one clock cycle takes the registers and the inputs of the
cycle to the next registers. The reset values of the registers are those of the source; the slots of
the rings are not reset and hold anything. The doorbell input reaches no register.

## Main definitions

* `Rtl.Desc`, `Rtl.Comp`: the packed records `desc_t` and `completion_t`.
* `Rtl.Worker`, `Rtl.Worker.step`: the worker state machine.
* `Rtl.workerFunction`: the completion of a descriptor.
* `Rtl.Engine`, `Rtl.Engine.step`: the three modules wired together.

## Main results

* `Rtl.iterDecode_some`: counting tokens ends after at most 32 cycles.
* `Rtl.Worker.completion_eq`: the state machine, left alone with a descriptor, offers the completion
  `workerFunction` of it.
* `Rtl.rings_exact_fifo`: the two rings alone are exact queues.

## References

* `rtl/desc_pkg.sv`, `rtl/rollout_worker_fsm.sv`, `rtl/desc_ring.sv`, `rtl/completion_ring.sv`,
  `rtl/rl_runtime_top.sv`.
-/

namespace RolloutRuntime

open RingBuffer

namespace Rtl

/-! ### Records -/

/-- The packed record `desc_t`. -/
structure Desc where
  opcode : BitVec 8
  flags : BitVec 8
  rolloutId : BitVec 16
  kvArenaId : BitVec 16
  prefixId : BitVec 16
  kvOffset : BitVec 32
  deltaOffset : BitVec 32
  seqLen : BitVec 16
  maxTokens : BitVec 16
  rewardModelId : BitVec 16
  reserved : BitVec 16
  deriving DecidableEq, Repr, Inhabited

/-- The packed record `completion_t`. -/
structure Comp where
  rolloutId : BitVec 16
  status : BitVec 8
  finalSeqLen : BitVec 16
  rewardId : BitVec 16
  deriving DecidableEq, Repr, Inhabited

def descOpDecode : BitVec 8 := 1

def descOpStop : BitVec 8 := 255

def compStatusDone : BitVec 8 := 0x01

def compStatusRewardNeeded : BitVec 8 := 0x02

def compStatusStopped : BitVec 8 := 0xff

/-- `REWARD_BOUNDARY`. -/
def rewardBoundary : BitVec 16 := 32

/-! ### The worker -/

/-- The states of the worker; the last is the unused code of the two-bit state register. -/
inductive WorkerState
  | idle
  | decode
  | complete
  | unused
  deriving DecidableEq, Repr

/-- The registers of the worker. -/
structure Worker where
  state : WorkerState
  activeDesc : Desc
  compReg : Comp
  tokenCount : BitVec 16

/-- The completion of `d` with the given status and length. -/
def Desc.completion (d : Desc) (status : BitVec 8) (len : BitVec 16) : Comp :=
  ⟨d.rolloutId, status, len, d.rewardModelId⟩

/-- What `S_IDLE` writes for an accepted descriptor: its completion, or nothing for a decode
request. -/
def sIdle (d : Desc) : Option Comp :=
  if d.opcode = descOpStop then some (d.completion compStatusStopped d.seqLen)
  else if d.opcode = descOpDecode then none
  else some (d.completion compStatusDone d.seqLen)

theorem sIdle_decode {d : Desc} (h : d.opcode = descOpDecode) : sIdle d = none := by
  have hne : descOpDecode ≠ descOpStop := by decide
  simp [sIdle, h, hne]

/-- What `S_DECODE` writes at the token count `tok`: the completion, or nothing if it goes on. -/
def sDecode (d : Desc) (tok : BitVec 16) : Option Comp :=
  if tok + 1 ≥ d.maxTokens then some (d.completion compStatusDone (tok + 1))
  else if (tok + 1) % rewardBoundary = 0 then some (d.completion compStatusRewardNeeded (tok + 1))
  else none

namespace Worker

/-- The registers after reset. -/
def reset : Worker :=
  ⟨.idle, ⟨0, 0, 0, 0, 0, 0, 0, 0, 0, 0, 0⟩, ⟨0, 0, 0, 0⟩, 0⟩

variable (s : Worker)

def inReady : Bool := s.state = .idle

def outValid : Bool := s.state = .complete

def outComp : Comp := s.compReg

/-- One clock cycle of the worker. -/
def step (inDesc : Desc) (inValid outReady : Bool) : Worker :=
  match s.state with
  | .idle =>
    if inValid && s.inReady then
      match sIdle inDesc with
      | some c => ⟨.complete, inDesc, c, inDesc.seqLen⟩
      | none => ⟨.decode, inDesc, s.compReg, inDesc.seqLen⟩
    else s
  | .decode =>
    match sDecode s.activeDesc s.tokenCount with
    | some c => { s with state := .complete, compReg := c, tokenCount := s.tokenCount + 1 }
    | none => { s with tokenCount := s.tokenCount + 1 }
  | .complete => if s.outValid && outReady then { s with state := .idle } else s
  | .unused => { s with state := .idle }

end Worker

/-! ### The completion of a descriptor -/

/-- The completion reached by at most `n` cycles of `S_DECODE` from the token count `tok`. -/
def iterDecode (d : Desc) : ℕ → BitVec 16 → Option Comp
  | 0, _ => none
  | n + 1, tok =>
    match sDecode d tok with
    | some c => some c
    | none => iterDecode d n (tok + 1)

/-- The completion of a descriptor: at once for one that is no decode request, and by iterating
`S_DECODE` from its length for one that is. The next multiple of 32 is at most 32 cycles away. -/
def workerFunction (d : Desc) : Comp :=
  match sIdle d with
  | some c => c
  | none => (iterDecode d 32 d.seqLen).getD (d.completion 0 0)

/-- The number of cycles from the token count `tok` to the next multiple of 32. -/
def cyclesLeft (tok : BitVec 16) : ℕ := 32 - tok.toNat % 32

theorem toNat_add_one_mod (tok : BitVec 16) : (tok + 1).toNat % 32 = (tok.toNat + 1) % 32 := by
  rw [BitVec.toNat_add]
  exact Nat.mod_mod_of_dvd _ (by decide)

/-- While `S_DECODE` goes on, the next multiple of 32 is one cycle nearer. -/
theorem cyclesLeft_add_one {d : Desc} {tok : BitVec 16} (h : sDecode d tok = none) :
    cyclesLeft tok = cyclesLeft (tok + 1) + 1 := by
  have hne : ¬ (tok + 1) % rewardBoundary = 0 := by
    intro h0
    simp only [sDecode] at h
    split_ifs at h
  have hmod : (tok + 1).toNat % 32 ≠ 0 := by
    intro h0
    exact hne (BitVec.eq_of_toNat_eq (by rw [BitVec.toNat_umod]; exact h0))
  rw [toNat_add_one_mod] at hmod
  simp only [cyclesLeft, toNat_add_one_mod]
  omega

/-- **Counting ends.** Within the cycles to the next multiple of 32 a completion is reached, and more
cycles change nothing. -/
theorem iterDecode_some (d : Desc) {tok : BitVec 16} {n m : ℕ} (hn : cyclesLeft tok ≤ n)
    (hm : cyclesLeft tok ≤ m) :
    ∃ c, iterDecode d n tok = some c ∧ iterDecode d m tok = some c := by
  have hpos : 0 < cyclesLeft tok := by
    have := Nat.mod_lt tok.toNat (show 32 > 0 by decide)
    simp only [cyclesLeft]
    omega
  induction n generalizing tok m with
  | zero => omega
  | succ n ih =>
    obtain ⟨m, rfl⟩ := Nat.exists_eq_add_of_lt (show 0 < m by omega)
    rw [Nat.zero_add]
    simp only [iterDecode]
    cases hd : sDecode d tok with
    | some c => exact ⟨c, rfl, rfl⟩
    | none =>
      have hleft := cyclesLeft_add_one hd
      refine ih (by omega) (by omega) ?_
      have := Nat.mod_lt (tok + 1).toNat (show 32 > 0 by decide)
      simp only [cyclesLeft]
      omega

theorem cyclesLeft_le (tok : BitVec 16) : cyclesLeft tok ≤ 32 := Nat.sub_le _ _

/-- The completion of a decode request is the one its cycles of `S_DECODE` reach. -/
theorem iterDecode_eq_workerFunction {d : Desc} (h : sIdle d = none) {n : ℕ} (hn : 32 ≤ n) :
    iterDecode d n d.seqLen = some (workerFunction d) := by
  obtain ⟨c, hc, hc'⟩ := iterDecode_some d (cyclesLeft_le d.seqLen)
    ((cyclesLeft_le d.seqLen).trans hn)
  rw [hc', workerFunction, h, hc]
  rfl

namespace Worker

theorem step_decode_some {s : Worker} (h : s.state = .decode) {c : Comp}
    (hc : sDecode s.activeDesc s.tokenCount = some c) (i : Desc) (v r : Bool) :
    s.step i v r =
      { s with state := .complete, compReg := c, tokenCount := s.tokenCount + 1 } := by
  simp [step, h, hc]

theorem step_decode_none {s : Worker} (h : s.state = .decode)
    (hc : sDecode s.activeDesc s.tokenCount = none) (i : Desc) (v r : Bool) :
    s.step i v r = { s with tokenCount := s.tokenCount + 1 } := by
  simp [step, h, hc]

/-- `n` cycles with nothing offered to the worker and its completion not taken. -/
def alone (s : Worker) : ℕ → Worker
  | 0 => s
  | n + 1 => (s.step default false false).alone n

/-- The completion the worker offers once it was reset, was offered `d`, and was left alone for 32
cycles. -/
def completion (d : Desc) : Option Comp :=
  let s := (reset.step d true false).alone 32
  if s.outValid then some s.outComp else none

theorem alone_complete {s : Worker} (h : s.state = .complete) (n : ℕ) : s.alone n = s := by
  induction n with
  | zero => rfl
  | succ n ih =>
    have hstep : s.step default false false = s := by simp [step, h]
    rw [alone, hstep, ih]

/-- A worker that counts tokens offers what its cycles of `S_DECODE` reach. -/
theorem alone_decode {s : Worker} (h : s.state = .decode) {n : ℕ} {c : Comp}
    (hc : iterDecode s.activeDesc n s.tokenCount = some c) :
    (s.alone n).state = .complete ∧ (s.alone n).compReg = c := by
  induction n generalizing s with
  | zero => simp [iterDecode] at hc
  | succ n ih =>
    rw [alone]
    rw [iterDecode] at hc
    cases hd : sDecode s.activeDesc s.tokenCount with
    | some c' =>
      obtain rfl : c' = c := by simpa [hd] using hc
      rw [step_decode_some h hd, alone_complete rfl]
      exact ⟨rfl, rfl⟩
    | none =>
      rw [step_decode_none h hd]
      rw [hd] at hc
      exact ih h hc

/-- **The worker alone.** Left alone with a descriptor, the worker offers its completion. -/
theorem completion_eq (d : Desc) : completion d = some (workerFunction d) := by
  cases hd : sIdle d with
  | some c =>
    have hstep : reset.step d true false = ⟨.complete, d, c, d.seqLen⟩ := by
      simp [step, reset, inReady, hd]
    simp only [completion, hstep]
    rw [alone_complete rfl]
    simp [outValid, outComp, workerFunction, hd]
  | none =>
    have hstep : reset.step d true false = ⟨.decode, d, reset.compReg, d.seqLen⟩ := by
      simp [step, reset, inReady, hd]
    obtain ⟨hs, hc⟩ := alone_decode (s := ⟨.decode, d, reset.compReg, d.seqLen⟩) rfl
      (iterDecode_eq_workerFunction hd le_rfl)
    simp only [completion, hstep, outValid, outComp, hs, hc, decide_true, if_true]

end Worker

/-! ### The rings -/

/-- The two rings are exact queues. For every `PTR_W` with `DEPTH = 2 ^ PTR_W`, whatever the slots hold at
reset and whatever is offered and asked for in the cycles since: the difference of the pointers is the number
of elements in the ring and at most `DEPTH`, `full` and `empty` tell when it is `DEPTH` and 0, and what was
popped is an initial segment of what was pushed. -/
theorem rings_exact_fifo (w : ℕ) :
    (∀ (mem : Fin (2 ^ w) → Desc) (cycles : List (ClockedRing.Cycle Desc)),
      ((ClockedRing.reset mem).run cycles).ExactFifo ((ClockedRing.reset mem).pushedIn cycles)
        ((ClockedRing.reset mem).poppedIn cycles)) ∧
      ∀ (mem : Fin (2 ^ w) → Comp) (cycles : List (ClockedRing.Cycle Comp)),
        ((ClockedRing.reset mem).run cycles).ExactFifo ((ClockedRing.reset mem).pushedIn cycles)
          ((ClockedRing.reset mem).poppedIn cycles) :=
  ⟨fun mem cycles => ((ClockedRing.reset_holds mem).run cycles).exactFifo,
    fun mem cycles => ((ClockedRing.reset_holds mem).run cycles).exactFifo⟩

/-! ### The engine -/

/-- The inputs of one clock cycle. -/
structure Input where
  hostDesc : Desc
  hostDescValid : Bool
  hostCompReady : Bool
  doorbellPulse : Bool

/-- The registers of `rl_runtime_top` with `RING_PTR_W = w` and `RING_DEPTH = 2 ^ w`. -/
structure Engine (w : ℕ) where
  descRing : ClockedRing w Desc
  worker : Worker
  completionRing : ClockedRing w Comp

namespace Engine

variable {w : ℕ}

/-- The registers after reset, with anything in the slots of the rings. -/
def reset (descMem : Fin (2 ^ w) → Desc) (compMem : Fin (2 ^ w) → Comp) : Engine w :=
  ⟨.reset descMem, .reset, .reset compMem⟩

variable (s : Engine w)

def hostDescReady : Bool := s.descRing.pushReady

def hostComp : Comp := s.completionRing.popData

def hostCompValid : Bool := s.completionRing.popValid

def cmdPopReady : Bool := s.worker.inReady && s.descRing.popValid

def workerCompReady : Bool := !s.completionRing.full

/-- One clock cycle. -/
def step (i : Input) : Engine w where
  descRing := s.descRing.step i.hostDesc i.hostDescValid s.cmdPopReady
  worker := s.worker.step s.descRing.popData s.descRing.popValid s.workerCompReady
  completionRing := s.completionRing.step s.worker.outComp s.worker.outValid i.hostCompReady

/-- The registers after a sequence of cycles. -/
def run (is : List Input) : Engine w := is.foldl step s

/-- The descriptors accepted from the host, cycle by cycle. -/
def accepted (s : Engine w) : List Input → List Desc
  | [] => []
  | i :: is =>
    (if i.hostDescValid && s.hostDescReady then [i.hostDesc] else []) ++ (s.step i).accepted is

/-- The completions taken by the host, cycle by cycle. -/
def delivered (s : Engine w) : List Input → List Comp
  | [] => []
  | i :: is =>
    (if s.hostCompValid && i.hostCompReady then [s.hostComp] else []) ++ (s.step i).delivered is

end Engine

end Rtl

end RolloutRuntime
