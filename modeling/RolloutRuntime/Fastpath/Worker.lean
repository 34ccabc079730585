import RolloutRuntime.Rings.Software

/-!
# The hardware fast path

The host submits descriptors to the ring `cmdq`, ringing a doorbell, and pops finished ones from the
ring `doneq`. One worker polls `cmdq`: it decodes the descriptors that ask for it and pushes each to
`doneq`, trying again until there is room; it returns when it pops a stop descriptor, or when it finds
the stop flag set at the top of its loop. The stop flag is stored from outside, at any time.

The host, the worker and whoever stores the stop flag are threads. A call of the worker is one pass
through its loop up to the push, or one attempt to push.

## Main definitions

* `Hw.decodeLoop`: the decode loop of the worker on one descriptor.
* `Hw.inferSubmitDecode`: the submission of a decode request by the host.
* `Hw.Mem`, `Hw.Access`, `Hw.system`: the memory, the accesses to it and the three threads.

## Main results

* `Hw.decodeLoop_fst`: the descriptor that comes out does not depend on the token counter.

## References

* `src/hw_worker_sim.c`, `src/infer_submit.c`, `include/hw_desc.h`, `include/hw_ring.h`,
  `include/mmio.h`.
-/

namespace RolloutRuntime

open Concurrency RingBuffer

namespace Hw

/-! ### Opcodes and flags -/

def descOpDecode : BitVec 16 := 1

def descOpStop : BitVec 16 := 255

def descFlagNeedsReward : BitVec 16 := 1 <<< 0

def descFlagDone : BitVec 16 := 1 <<< 1

def descFlagCowPrefix : BitVec 16 := 1 <<< 2

/-! ### Decoding one descriptor -/

/-- Decode one token; the flag tells whether the token limit is reached. -/
def fakeDecodeToken (d : HwDesc) : HwDesc × Bool :=
  let d := { d with seqLen := d.seqLen + 1 }
  (d, d.seqLen ≥ d.maxTokens)

section Token

variable {d : HwDesc} (h : d.seqLen < d.maxTokens)

include h

theorem fakeDecodeToken_seqLen : (fakeDecodeToken d).1.seqLen.toNat = d.seqLen.toNat + 1 :=
  toNat_add_one_of_lt h

/-- Below the limit, a token is the last one if it makes the length the limit. -/
theorem fakeDecodeToken_done :
    (fakeDecodeToken d).2 = true ↔ d.seqLen.toNat + 1 = d.maxTokens.toNat := by
  have hlt : d.seqLen.toNat < d.maxTokens.toNat := h
  have hnext := fakeDecodeToken_seqLen h
  change decide ((fakeDecodeToken d).1.seqLen ≥ d.maxTokens) = true ↔ _
  rw [decide_eq_true_iff, ge_iff_le, BitVec.le_def, hnext]
  omega

theorem fakeDecodeToken_boundary :
    (fakeDecodeToken d).1.seqLen &&& 31 = 0 ↔ (d.seqLen.toNat + 1) % 32 = 0 := by
  rw [← BitVec.toNat_inj, BitVec.toNat_and, fakeDecodeToken_seqLen h]
  change (d.seqLen.toNat + 1) &&& (2 ^ 5 - 1) = 0 ↔ (d.seqLen.toNat + 1) % 32 = 0
  rw [Nat.and_two_pow_sub_one_eq_mod]

end Token

/-- The decode loop of the worker: the descriptor and the token counter after it. -/
def decodeLoop (d : HwDesc) (decodedTokens : BitVec 64) : HwDesc × BitVec 64 :=
  if h : d.seqLen < d.maxTokens then
    let d' := (fakeDecodeToken d).1
    if (fakeDecodeToken d).2 then
      ({ d' with flags := d'.flags ||| descFlagDone }, decodedTokens + 1)
    else if d'.seqLen &&& 31 = 0 then
      ({ d' with flags := d'.flags ||| descFlagNeedsReward }, decodedTokens + 1)
    else decodeLoop d' (decodedTokens + 1)
  else (d, decodedTokens)
termination_by d.maxTokens.toNat - d.seqLen.toNat
decreasing_by
  have hadd := toNat_add_one_of_lt h
  have hlt : d.seqLen.toNat < d.maxTokens.toNat := h
  simp only [fakeDecodeToken, hadd]
  omega

/-- What the worker makes of a decode request. -/
def decodeStep (d : HwDesc) : HwDesc := (decodeLoop d 0).1

/-- The descriptor that comes out of the loop does not depend on the token counter. -/
theorem decodeLoop_fst (d : HwDesc) (t : BitVec 64) : (decodeLoop d t).1 = decodeStep d := by
  have hind : ∀ t t', (decodeLoop d t).1 = (decodeLoop d t').1 := by
    intro t t'
    induction d, t using decodeLoop.induct generalizing t' with
    | case1 d t h hdone =>
      rw [decodeLoop, decodeLoop, dif_pos h, dif_pos h, if_pos hdone, if_pos hdone]
    | case2 d t h _ hdone hrew =>
      rw [decodeLoop, decodeLoop, dif_pos h, dif_pos h, if_neg hdone, if_neg hdone, if_pos hrew,
        if_pos hrew]
    | case3 d t h _ hdone hrew ih =>
      rw [decodeLoop, decodeLoop.eq_def d t', dif_pos h, dif_pos h, if_neg hdone, if_neg hdone,
        if_neg hrew, if_neg hrew]
      exact ih _
    | case4 d t h => rw [decodeLoop, decodeLoop, dif_neg h, dif_neg h]
  exact hind t 0

/-! ### The memory -/

/-- The memory of the fast path. -/
structure Mem where
  cmdq : HwRing
  doneq : HwRing
  stop : BitVec 32
  doorbell : BitVec 32

/-- The atomic accesses to it. -/
inductive Access
  | cmd (o : Op 32 HwDesc)
  | done (o : Op 32 HwDesc)
  | loadStop
  | storeStop (v : BitVec 32)
  | storeDoorbell (v : BitVec 32)

/-- The effect of an access. -/
def Access.effect : Access → Mem → Mem
  | .cmd o, s => { s with cmdq := o.effect s.cmdq }
  | .done o, s => { s with doneq := o.effect s.doneq }
  | .loadStop, s => s
  | .storeStop v, s => { s with stop := v }
  | .storeDoorbell v, s => { s with doorbell := v }

/-- A program on the ring `cmdq`. -/
def onCmdq {α : Type} (p : Prog (Op 32 HwDesc) HwRing α) : Prog Access Mem α :=
  p.zoom .cmd Mem.cmdq

/-- A program on the ring `doneq`. -/
def onDoneq {α : Type} (p : Prog (Op 32 HwDesc) HwRing α) : Prog Access Mem α :=
  p.zoom .done Mem.doneq

/-! ### The host -/

/-- The context of the submission path, with the two pointers it tests for null. -/
structure InferHwCtx where
  cmdqPresent : Bool
  doorbellPresent : Bool
  gpuGroupId : BitVec 32
  kvArenaId : BitVec 32

/-- The arguments of a submission. -/
structure DecodeArgs where
  rolloutId : BitVec 32
  kvOffset : BitVec 64
  deltaOffset : BitVec 64
  prefixId : BitVec 32
  seqLen : BitVec 32
  maxTokens : BitVec 32

/-- The descriptor of a submission. -/
def decodeDesc (ctx : InferHwCtx) (a : DecodeArgs) : HwDesc where
  opcode := descOpDecode
  flags := if a.prefixId ≠ 0 then descFlagCowPrefix else 0
  rolloutId := a.rolloutId
  kvArenaId := ctx.kvArenaId
  prefixId := a.prefixId
  kvOffset := a.kvOffset
  deltaOffset := a.deltaOffset
  seqLen := a.seqLen
  maxTokens := a.maxTokens
  rewardModelId := 0
  reserved0 := ctx.gpuGroupId
  userData := a.rolloutId.setWidth 64
  checksumOrCookie := a.kvOffset ^^^ a.deltaOffset ^^^ (a.rolloutId.setWidth 64 <<< 32)

/-- `infer_submit_decode`: the descriptor pushed, or `none` if the call fails. The doorbell gets the
producer index, loaded again after the push. -/
def inferSubmitDecode (ctx : Option InferHwCtx) (a : DecodeArgs) :
    Prog Access Mem (Option HwDesc) :=
  match ctx with
  | none => return none
  | some ctx => do
    if !ctx.cmdqPresent || !ctx.doorbellPresent then return none
    let desc := decodeDesc ctx a
    if ← onCmdq (hwRingPush desc) then
      let tail ← Prog.load (.cmd .loadProd) (·.cmdq.prod)
      Prog.exec (.storeDoorbell tail)
      return some desc
    return none

/-- What the host does in one call. -/
inductive HostCall
  | submit (ctx : Option InferHwCtx) (a : DecodeArgs)
  | push (d : HwDesc)
  | pop

/-- The host remembers the descriptors `cmdq` accepted and those it popped from `doneq`. -/
structure HostLog where
  accepted : List HwDesc
  popped : List HwDesc

/-- One call of the host. -/
def host (l : HostLog) : HostCall → Prog Access Mem HostLog
  | .submit ctx a => do
    let x ← inferSubmitDecode ctx a
    return { l with accepted := l.accepted ++ x.toList }
  | .push d => do
    let x ← onCmdq (hwRingPush d)
    return { l with accepted := l.accepted ++ if x then [d] else [] }
  | .pop => do
    let x ← onDoneq hwRingPop
    return { l with popped := l.popped ++ x.toList }

/-! ### The worker -/

/-- Where the worker is: at the top of its loop, trying to push a finished descriptor, or returned. -/
inductive Phase
  | top
  | pushing (d : HwDesc)
  | returned

/-- The worker with its two counters. -/
structure WorkerSim where
  phase : Phase
  decodedTokens : BitVec 64
  completions : BitVec 64

/-- `hw_worker_sim_run`: one pass through the loop up to the push, or one attempt to push. -/
def hwWorkerSim (l : WorkerSim) : Prog Access Mem WorkerSim :=
  match l.phase with
  | .top => do
    let stop ← Prog.load .loadStop (·.stop)
    if stop ≠ 0 then return { l with phase := .returned }
    match ← onCmdq hwRingPop with
    | none => return l
    | some d =>
      if d.opcode = descOpStop then return { l with phase := .returned }
      if d.opcode ≠ descOpDecode then return l
      return { l with
        phase := .pushing (decodeLoop d l.decodedTokens).1
        decodedTokens := (decodeLoop d l.decodedTokens).2 }
  | .pushing d => do
    if ← onDoneq (hwRingPush d) then
      return { l with phase := .top, completions := l.completions + 1 }
    return l
  | .returned => return l

/-! ### The threads -/

/-- The threads of the fast path; `stopper` stores the stop flag. -/
inductive Party
  | host
  | worker
  | stopper
  deriving DecidableEq

/-- What a thread keeps between its calls. -/
def Local : Party → Type
  | .host => HostLog
  | .worker => WorkerSim
  | .stopper => Unit

/-- The calls of a thread. -/
def Call : Party → Type
  | .host => HostCall
  | .worker => Unit
  | .stopper => BitVec 32

/-- The fast path as a system of three threads. -/
def system : System Party Access Mem Local Call where
  effect := Access.effect
  start
    | .host, l, x => host l x
    | .worker, l, _ => hwWorkerSim l
    | .stopper, _, v => Prog.exec (.storeStop v)

/-- Two zeroed rings, `z` being the zeroed descriptor, and a worker that has not started. -/
def init (z : HwDesc) (stop doorbell : BitVec 32) : Config Party Access Mem Local :=
  .rest ⟨Ring.zeroed 32 16 z, Ring.zeroed 32 16 z, stop, doorbell⟩ fun
    | .host => (⟨[], []⟩ : HostLog)
    | .worker => (⟨.top, 0, 0⟩ : WorkerSim)
    | .stopper => ()

end Hw

end RolloutRuntime
