import RolloutRuntime.Rings.Safety

/-!
# Dispatching a trajectory

The host dispatches a trajectory of decode steps in windows of at most 32. For every step of a window it
prepares the query of the step in the query buffer, at the slot of the step number, and adds a
descriptor to the window; then it submits the window to the command ring as a whole. The device takes
one descriptor at a time and reads the query at the slot of its step number.

Preparing a query is the store of a tag, the sequence id and the step. The number of steps and the
number of key-value blocks are signed integers in the source; a remainder by zero blocks, which the
source leaves undefined, is the dividend here.

## Main definitions

* `DecodeDispatchBatch`, `decodeBatchPush`, `decodeBatchSubmit`: windows of descriptors.
* `Dispatch.runtimeDispatch`: the dispatch of a trajectory.
* `Dispatch.system`: the dispatching host and a consumer as threads.

## Main results

* `decodeBatchSubmit_ok`: a submitted window is published as a whole.

## References

* `src/main.c` lines 121–162, `src/decode_batch.c`, `include/decode_batch.h`, `cu/worker.cu`
  lines 25–43.
-/

namespace RolloutRuntime

open Concurrency RingBuffer

/-! ### Windows of descriptors -/

/-- `DECODE_DESCRIPTOR_BATCH_LIMIT`. -/
def decodeDescriptorBatchLimit : ℕ := 32

/-- A window of at most 32 descriptors. -/
structure DecodeDispatchBatch where
  descs : List Descriptor
  le_limit : descs.length ≤ decodeDescriptorBatchLimit

/-- `decode_batch_reset`. -/
def decodeBatchReset : DecodeDispatchBatch := ⟨[], Nat.zero_le _⟩

/-- `decode_batch_push`; `none` if the window is full. -/
def decodeBatchPush (b : DecodeDispatchBatch) (d : Descriptor) : Option DecodeDispatchBatch :=
  if h : b.descs.length ≥ decodeDescriptorBatchLimit then none
  else some ⟨b.descs ++ [d], by rw [List.length_append, List.length_singleton]; omega⟩

/-- The descriptors of a window as they are written to the ring: with the size of the window and their
place in it. -/
def DecodeDispatchBatch.stamped (b : DecodeDispatchBatch) : List Descriptor :=
  b.descs.zipIdx.map fun x =>
    { x.1 with batchSize := BitVec.ofNat 16 b.descs.length, batchIndex := BitVec.ofNat 16 x.2 }

/-- `decode_batch_submit`; an empty window is refused. -/
def decodeBatchSubmit (b : DecodeDispatchBatch) : Prog (Op 32 Descriptor) CommandRing Bool :=
  if b.descs.length = 0 then return false else submitDescriptors b.stamped

theorem DecodeDispatchBatch.length_stamped (b : DecodeDispatchBatch) :
    b.stamped.length = b.descs.length := by
  simp [stamped]

/-- **Submitting a window.** It is published as a whole, or not at all. -/
theorem decodeBatchSubmit_ok (b : DecodeDispatchBatch) {G : List Descriptor → Prop}
    {r : CommandRing} (hr : r.Inv) (hG : G (r.published ++ b.stamped)) :
    (spsc 32 12 G).Ok .producer
      (fun x r' => r'.published = r.published ++ (if x then b.stamped else []))
      (decodeBatchSubmit b) r := by
  by_cases hb : b.descs.length = 0
  · rw [decodeBatchSubmit, if_pos hb]
    intro r' hrely _
    simpa using hrely.published_eq
  · rw [decodeBatchSubmit, if_neg hb, submitDescriptors_eq]
    have hlen : b.stamped.length < 2 ^ 32 := by
      have hle := b.le_limit
      rw [b.length_stamped]
      exact lt_of_le_of_lt hle (by decide)
    have hroom := roomSound_spaceTest (k := 12) (by decide) false false
      (BitVec.ofNat 32 b.stamped.length)
    exact Discipline.ok_mono _ (submit_ok (by decide) hroom hlen hr hG) fun _ _ _ h => h.1

namespace Dispatch

/-! ### The memory -/

/-- What a slot of the query buffer was prepared for. -/
structure Tag where
  seqId : BitVec 64
  step : BitVec 32
  deriving DecidableEq, Repr

/-- The command ring and the query buffer, of as many slots. -/
structure Mem where
  ring : CommandRing
  qBuffer : Fin (2 ^ 12) → Option Tag

/-- The atomic accesses to them. -/
inductive Access
  | ring (o : Op 32 Descriptor)
  | prepareSlot (slot : Fin (2 ^ 12)) (t : Tag)

/-- The effect of an access. -/
def Access.effect : Access → Mem → Mem
  | .ring o, s => { s with ring := o.effect s.ring }
  | .prepareSlot i t, s => { s with qBuffer := Function.update s.qBuffer i (some t) }

/-- A program on the command ring. -/
def onRing {α : Type} (p : Prog (Op 32 Descriptor) CommandRing α) : Prog Access Mem α :=
  p.zoom .ring Mem.ring

/-! ### The host -/

/-- The slot of the query buffer a step uses: `i & (io_slots - 1)`. -/
def ioSlot (i : BitVec 32) : Fin (2 ^ 12) := mask 12 i

/-- The descriptor of step `i` of a trajectory. -/
def stepDescriptor (seqId : BitVec 64) (kvBlocks : BitVec 32) (i : ℕ) : Descriptor where
  seqId := seqId
  kvBlockOffset := BitVec.ofInt 32 ((i : ℤ).tmod kvBlocks.toInt)
  numKvBlocks := 1
  attentionFlags := 0
  pad := 0
  outputTokenOffset := BitVec.ofNat 32 i
  rewardCookie := seqId <<< 32 ||| BitVec.ofNat 64 i
  batchSize := 0
  batchIndex := 0

/-- The inner loop: prepare steps from `i` on, of which `rest` are left, until the window is full. It
returns the steps left and the window. -/
def fillBatch (seqId : BitVec 64) (kvBlocks : BitVec 32) :
    (i rest : ℕ) → DecodeDispatchBatch → Prog Access Mem (ℕ × DecodeDispatchBatch)
  | _, 0, b => return (0, b)
  | i, rest + 1, b =>
    if b.descs.length < decodeDescriptorBatchLimit then do
      Prog.exec (.prepareSlot (ioSlot (BitVec.ofNat 32 i)) ⟨seqId, BitVec.ofNat 32 i⟩)
      match decodeBatchPush b (stepDescriptor seqId kvBlocks i) with
      | none => return (rest + 1, b)
      | some b => fillBatch seqId kvBlocks (i + 1) rest b
    else return (rest + 1, b)

/-- The outer loop, with `rest` of `n` steps left. Every pass prepares a step, so `n` passes are
enough. -/
def dispatchLoop (seqId : BitVec 64) (kvBlocks : BitVec 32) (n : ℕ) :
    (passes rest : ℕ) → Prog Access Mem Bool
  | 0, _ => return true
  | passes + 1, rest =>
    if rest = 0 then return true
    else do
      let (rest, b) ← fillBatch seqId kvBlocks (n - rest) rest decodeBatchReset
      if ← onRing (decodeBatchSubmit b) then dispatchLoop seqId kvBlocks n passes rest
      else return false

/-- `runtime_dispatch`; `false` if the ring is full. A negative number of steps is no step. -/
def runtimeDispatch (seqId : BitVec 64) (nSteps kvBlocks : BitVec 32) : Prog Access Mem Bool :=
  let n := nSteps.toInt.toNat
  dispatchLoop seqId kvBlocks n n n

/-! ### The threads -/

/-- The dispatching host and the consumer. -/
inductive Thread
  | dispatcher
  | consumer
  deriving DecidableEq

/-- The arguments of a dispatch. -/
structure DispatchArgs where
  seqId : BitVec 64
  nSteps : BitVec 32
  kvBlocks : BitVec 32

/-- What a thread keeps between its calls: the answers it got. -/
def Local : Thread → Type
  | .dispatcher => List Bool
  | .consumer => List (Option Descriptor)

/-- The calls of a thread. -/
def Call : Thread → Type
  | .dispatcher => DispatchArgs
  | .consumer => Unit

/-- One dispatch. -/
def dispatchCall (l : List Bool) (x : DispatchArgs) : Prog Access Mem (List Bool) := do
  let ok ← runtimeDispatch x.seqId x.nSteps x.kvBlocks
  return l ++ [ok]

/-- One call of the consumer. -/
def consumeCall (l : List (Option Descriptor)) : Prog Access Mem (List (Option Descriptor)) := do
  let d ← onRing ringConsume
  return l ++ [d]

/-- The host and the consumer. -/
def system : System Thread Access Mem Local Call where
  effect := Access.effect
  start
    | .dispatcher, l, x => dispatchCall l x
    | .consumer, l, _ => consumeCall l

/-- A zeroed ring, and a query buffer with nothing prepared. -/
def init (z : Descriptor) : Config Thread Access Mem Local :=
  .rest ⟨Ring.zeroed 32 12 z, fun _ => none⟩ fun
    | .dispatcher => ([] : List Bool)
    | .consumer => ([] : List (Option Descriptor))

end Dispatch

end RolloutRuntime
