import RolloutRuntime.Decode.ExactlyOnce
import RolloutRuntime.Decode.Windows
import Mathlib.Algebra.BigOperators.Fin

/-!
# The lifetime of the runtime

The program launches one decode worker on every multiprocessor, dispatches a trajectory, polls
completions until it has counted as many as it asked for steps, and then sends one sentinel for every
worker; each worker returns at the first sentinel it gets. The answer of the dispatch is not looked at.

The host is one thread and the workers are one thread each. A pass of the host is the dispatch, one call
of `runtime_poll`, or one attempt to send a sentinel; a pass of a worker is one poll of the command ring or
one attempt to push, with the count of the step after it. What the streams of the device make the host
wait for is left to the schedule.

The memory has three records of each worker beside the members of the source: the descriptors it took,
the completions it pushed, and the steps it counted. They are extended by the steps that do this and read
by none.

## Main definitions

* `Lifetime.Mem`, `Lifetime.Access`: the memory and the accesses to it.
* `Lifetime.host`, `Lifetime.decodeWorker`: the passes of the threads.
* `Lifetime.system`: the host and `N` workers.
* `Lifetime.InTurn`: the condition on the steps of the workers, if there are several.

## References

* `src/main.c` lines 113–265, `cu/worker.cu`.
-/

namespace RolloutRuntime

open Concurrency RingBuffer

namespace Lifetime

/-! ### The memory -/

/-- The command ring, the query buffer, the completion ring and the step counter, and the records of the
workers. -/
structure Mem (N : ℕ) where
  ring : CommandRing
  qBuffer : Fin (2 ^ 12) → Option Dispatch.Tag
  compRing : CompletionRing
  stepCount : BitVec 64
  /-- The descriptors each worker took. -/
  got : Fin N → List Descriptor
  /-- The completions each worker pushed. -/
  pushed : Fin N → List Completion
  /-- The steps each worker counted. -/
  counted : Fin N → ℕ

variable {N : ℕ}

/-- What the dispatch works on. -/
def Mem.dispatch (s : Mem N) : Dispatch.Mem := ⟨s.ring, s.qBuffer⟩

/-- The two rings. -/
def Mem.rings (s : Mem N) : Workers.Mem := ⟨s.ring, s.compRing⟩

/-- The atomic accesses: those of the host to the command ring and the query buffer and to the completion
ring, and those of each worker to the two rings and to the step counter. -/
inductive Access (N : ℕ)
  | dispatch (o : Dispatch.Access)
  | poll (o : Op 32 Completion)
  | consume (i : Fin N) (o : Op 32 Descriptor)
  | push (i : Fin N) (o : Op 32 Completion)
  | countStep (i : Fin N)

/-- The descriptor an access takes. -/
def takes : Op 32 Descriptor → List Descriptor
  | .storeCons _ d => [d]
  | _ => []

/-- The completions an access publishes. -/
def publishes : Op 32 Completion → List Completion
  | .storeProd _ cs => cs
  | _ => []

/-- The effect of an access. -/
def Access.effect : Access N → Mem N → Mem N
  | .dispatch o, s =>
    { s with ring := (o.effect s.dispatch).ring, qBuffer := (o.effect s.dispatch).qBuffer }
  | .poll o, s => { s with compRing := o.effect s.compRing }
  | .consume i o, s =>
    { s with ring := o.effect s.ring, got := Function.update s.got i (s.got i ++ takes o) }
  | .push i o, s =>
    { s with
      compRing := o.effect s.compRing
      pushed := Function.update s.pushed i (s.pushed i ++ publishes o) }
  | .countStep i, s =>
    { s with
      stepCount := s.stepCount + 1
      counted := Function.update s.counted i (s.counted i + 1) }

/-! ### The workers -/

/-- `decode_worker`: one poll of the command ring, or one attempt to push with the count of the step. -/
def decodeWorker (i : Fin N) (l : Workers.Worker) (x : Workers.DecodeStepResult) :
    Prog (Access N) (Mem N) Workers.Worker :=
  match l with
  | .polling => do
    match ← ringConsume.zoom (.consume i) Mem.ring with
    | none => return .polling
    | some d =>
      if d.seqId = Workers.sentinel then return .returned
      return .pushing (Workers.completion d x)
  | .pushing c => do
    if ← (compRingPush c).zoom (.push i) Mem.compRing then
      Prog.exec (.countStep i)
      return .polling
    return .pushing c
  | .returned => return .returned

/-! ### The host -/

/-- The arguments of the program; a trajectory cannot be dispatched over no blocks. -/
structure Args where
  nSteps : BitVec 32
  kvBlocks : BitVec 32
  kvBlocks_ne : kvBlocks ≠ 0

/-- The dispatch of the program. -/
def Args.dispatch (x : Args) : Dispatch.DispatchArgs := ⟨1, x.nSteps, x.kvBlocks⟩

/-- Where the host is: before the dispatch, waiting after a dispatch that was answered with `ok` and with
`total` completions counted, sending sentinels with `sent` of them sent, or waiting for the workers. -/
inductive Host
  | starting
  | waiting (ok : Bool) (total : ℕ)
  | sending (sent : ℕ)
  | synchronizing

/-- `runtime_poll`. -/
def runtimePoll : (maxPoll : ℕ) → Prog (Access N) (Mem N) ℕ
  | 0 => return 0
  | maxPoll + 1 => do
    match ← compRingPoll.zoom .poll Mem.compRing with
    | none => return 0
    | some _ =>
      let n ← runtimePoll maxPoll
      return n + 1

/-- The sentinel of `runtime_shutdown`. -/
def sentinelDescriptor : Descriptor := ⟨Workers.sentinel, 0, 0, 0, 0, 0, 0, 0, 0⟩

/-- A pass of the host. -/
def host (x : Args) : Host → Prog (Access N) (Mem N) Host
  | .starting => do
    let ok ← (Dispatch.runtimeDispatch 1 x.nSteps x.kvBlocks).zoom .dispatch Mem.dispatch
    return .waiting ok 0
  | .waiting ok total =>
    if (total : ℤ) < x.nSteps.toInt then do
      let n ← runtimePoll 256
      return .waiting ok (total + n)
    else return .sending 0
  | .sending sent =>
    if sent < N then do
      if ← (Dispatch.onRing (submitDescriptors [sentinelDescriptor])).zoom .dispatch Mem.dispatch then
        return .sending (sent + 1)
      return .sending sent
    else return .synchronizing
  | .synchronizing => return .synchronizing

/-! ### The threads -/

/-- The threads. -/
inductive Thread (N : ℕ)
  | host
  | worker (i : Fin N)
  deriving DecidableEq

/-- What a thread keeps between its passes. -/
def Local : Thread N → Type
  | .host => Host
  | .worker _ => Workers.Worker

/-- What a pass is given: a worker what decoding computes. -/
def Call : Thread N → Type
  | .host => Unit
  | .worker _ => Workers.DecodeStepResult

/-- The host and `N` workers. -/
def system (N : ℕ) (x : Args) : System (Thread N) (Access N) (Mem N) Local Call where
  effect := Access.effect
  start
    | .host, l, _ => host x l
    | .worker i, l, y => decodeWorker i l y

/-- Two zeroed rings, nothing counted, and threads that have not started. -/
def init (N : ℕ) (z : Descriptor) (z' : Completion) : Config (Thread N) (Access N) (Mem N) Local :=
  .rest ⟨Ring.zeroed 32 12 z, fun _ => none, Ring.zeroed 32 12 z', 0, fun _ => [], fun _ => [],
      fun _ => 0⟩ fun
    | .host => Host.starting
    | .worker _ => Workers.Worker.polling

/-- With several workers, the steps of a worker on the rings are in turn. One worker alone shares its ends
of the rings with nobody. -/
def InTurn : Thread N → Access N → Mem N → Prop
  | .worker i, .consume _ o, s => N ≠ 1 → Workers.InTurn (.worker i) (.ring o) s.rings
  | .worker i, .push _ o, s => N ≠ 1 → Workers.InTurn (.worker i) (.compRing o) s.rings
  | _, _, _ => True

end Lifetime

end RolloutRuntime
