import RolloutRuntime.Rings.Safety

/-!
# The persistent decode workers

The host commits descriptors to the command ring and polls the completion ring. On the device `N`
persistent workers, one warp on each multiprocessor, share both rings: each polls the command ring,
decodes the descriptor it gets, and pushes the completion to the completion ring, trying again until
there is room. A worker returns when it gets the sentinel descriptor.

A call of a worker is one poll of the command ring with the decoding of what it gets, or one attempt to
push. What decoding computes, the token and the number of cycles, comes from outside.

## Main definitions

* `Workers.Mem`, `Workers.Access`: the two rings and the accesses to them.
* `Workers.decodeWorker`: the loop of a worker.
* `Workers.system`: the host and `N` workers as threads.

## References

* `cu/worker.cu`, `src/main.c` lines 229–250, `include/ring.h`, `include/completion.h`.
-/

namespace RolloutRuntime

open Concurrency RingBuffer

namespace Workers

/-! ### The memory -/

/-- The two rings. -/
structure Mem where
  ring : CommandRing
  compRing : CompletionRing

/-- The atomic accesses to them. -/
inductive Access
  | ring (o : Op 32 Descriptor)
  | compRing (o : Op 32 Completion)

/-- The effect of an access. -/
def Access.effect : Access → Mem → Mem
  | .ring o, s => { s with ring := o.effect s.ring }
  | .compRing o, s => { s with compRing := o.effect s.compRing }

/-- A program on the command ring. -/
def onRing {α : Type} (p : Prog (Op 32 Descriptor) CommandRing α) : Prog Access Mem α :=
  p.zoom .ring Mem.ring

/-- A program on the completion ring. -/
def onCompRing {α : Type} (p : Prog (Op 32 Completion) CompletionRing α) : Prog Access Mem α :=
  p.zoom .compRing Mem.compRing

/-! ### The workers -/

/-- What decoding a descriptor computes. -/
structure DecodeStepResult where
  tokenId : BitVec 32
  cycleEstimate : BitVec 64

/-- The completion of a descriptor. -/
def completion (d : Descriptor) (x : DecodeStepResult) : Completion where
  seqId := d.seqId
  tokenId := x.tokenId
  kvBlockOffset := d.kvBlockOffset
  rewardCookie := d.rewardCookie
  cyclesTaken := x.cycleEstimate

/-- The sequence id of the sentinel. -/
def sentinel : BitVec 64 := BitVec.allOnes 64

/-- Where a worker is: polling, trying to push a completion, or returned. -/
inductive Worker
  | polling
  | pushing (c : Completion)
  | returned

/-- `decode_worker`: one poll of the command ring, or one attempt to push. -/
def decodeWorker (l : Worker) (x : DecodeStepResult) : Prog Access Mem Worker :=
  match l with
  | .polling => do
    match ← onRing ringConsume with
    | none => return .polling
    | some d =>
      if d.seqId = sentinel then return .returned
      return .pushing (completion d x)
  | .pushing c => do
    if ← onCompRing (compRingPush c) then return .polling
    return .pushing c
  | .returned => return .returned

/-! ### The host -/

/-- The host commits a batch of descriptors, if there is room. -/
def hostSubmit (ds : DescriptorBatch) : Prog Access Mem Unit := do
  let _ ← onRing (submitDescriptors ds.1)
  return ()

/-- The host polls the completion ring and remembers what it got. -/
def hostPoll (l : List Completion) : Prog Access Mem (List Completion) := do
  let x ← onCompRing compRingPoll
  return l ++ x.toList

/-! ### The threads -/

/-- The threads: the host submitting, the host polling, and the workers. -/
inductive Thread (N : ℕ)
  | submitter
  | poller
  | worker (i : Fin N)
  deriving DecidableEq

variable {N : ℕ}

/-- What a thread keeps between its calls: the host what it polled, a worker where it is. -/
def Local : Thread N → Type
  | .submitter => Unit
  | .poller => List Completion
  | .worker _ => Worker

/-- The calls of a thread: a batch to commit, a poll, what decoding computes. -/
def Call : Thread N → Type
  | .submitter => DescriptorBatch
  | .poller => Unit
  | .worker _ => DecodeStepResult

/-- The host and `N` workers. -/
def system (N : ℕ) : System (Thread N) Access Mem Local Call where
  effect := Access.effect
  start
    | .submitter, _, ds => hostSubmit ds
    | .poller, l, _ => hostPoll l
    | .worker _, l, x => decodeWorker l x

/-- Two zeroed rings and workers that have not started. -/
def init (N : ℕ) (z : Descriptor) (z' : Completion) : Config (Thread N) Access Mem Local :=
  .rest ⟨Ring.zeroed 32 12 z, Ring.zeroed 32 12 z'⟩ fun
    | .submitter => ()
    | .poller => ([] : List Completion)
    | .worker _ => Worker.polling

end Workers

end RolloutRuntime
