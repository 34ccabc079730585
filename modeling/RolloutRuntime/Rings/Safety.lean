import Mathlib.Data.List.ReduceOption
import RolloutRuntime.Rings.Software

/-!
# Safety of the software queues

Each software queue of the runtime is used by one producer and one consumer. The producer hands over
one element at a time, or, on the command ring, acquires room for a batch of any size, writes it and
commits the same number; the consumer takes one element at a time. The queue as a system has the two
ends as threads, so its schedules are all interleavings of their index loads, slot accesses and index
stores.

Both ends obey the discipline `RingBuffer.spsc`, which gives the safety of the queue in every state
of every schedule, across the wrap of the 32-bit indices.

## Main definitions

* `Queue`: a ring with the programs of its two ends; `Queue.system`: the ends as threads.
* `commandQueue`, `completionQueue`, `requestQueue`, `doneQueue`, `rewardQueue`, `idQueue`.
* `Queue.Safe`: the safety of a queue.

## Main results

* `Queue.Lawful.good`: every configuration of a lawful queue obeys the discipline.
* `softQueues_safe`: the five queues are safe.

## References

* `include/ring.h` lines 38–69, `include/completion.h` lines 53–87, `include/request.h`
  lines 84–150, `src/reward.c` lines 11–34, `src/pipeline.c` lines 11–34.
-/

namespace RolloutRuntime

open Concurrency RingBuffer

/-! ### Queues and their two ends as threads -/

/-- A ring with the programs of its two ends. -/
structure Queue (k : ℕ) (α : Type) where
  /-- What the producer hands over in one call, and the elements in it. -/
  Batch : Type
  items : Batch → List α
  /-- The producer end; `false` is a refusal. -/
  give : Batch → Prog (Op 32 α) (Ring 32 k α) Bool
  /-- The consumer end; `none` reports an empty ring. -/
  take : Prog (Op 32 α) (Ring 32 k α) (Option α)
  /-- Refusals are counted in `overflow`. -/
  counts : Bool

/-- A number of descriptors that `ring_acquire` can be asked for. -/
abbrev DescriptorBatch := { ds : List Descriptor // ds.length < 2 ^ 32 }

/-- The host acquires room for a batch, writes the slots and commits. -/
def submitDescriptors (ds : List Descriptor) : Prog (Op 32 Descriptor) CommandRing Bool := do
  match ← ringAcquire (BitVec.ofNat 32 ds.length) with
  | none => return false
  | some i =>
    fill i ds
    ringCommit (BitVec.ofNat 32 ds.length) ds
    return true

/-- The host acquires one slot, writes the request and commits. -/
def submitRequest (r : RolloutRequest) : Prog (Op 32 RolloutRequest) RequestRing Bool := do
  match ← reqRingAcquire with
  | none => return false
  | some i =>
    fill i [r]
    reqRingCommit r
    return true

theorem submitDescriptors_eq (ds : List Descriptor) :
    submitDescriptors ds = submit ringProducer ds := by
  unfold submitDescriptors submit
  refine congrArg _ ?_
  funext x
  cases x <;> rfl

theorem submitRequest_eq (r : RolloutRequest) :
    submitRequest r = submit reqRingProducer [r] := by
  unfold submitRequest submit
  refine congrArg _ ?_
  funext x
  cases x <;> rfl

def commandQueue : Queue 12 Descriptor :=
  ⟨DescriptorBatch, Subtype.val, fun b => submitDescriptors b.1, ringConsume, false⟩

def completionQueue : Queue 12 Completion :=
  ⟨Completion, fun c => [c], compRingPush, compRingPoll, true⟩

def requestQueue : Queue 10 RolloutRequest :=
  ⟨RolloutRequest, fun r => [r], submitRequest, reqRingConsume, false⟩

def doneQueue : Queue 10 RolloutDone := ⟨RolloutDone, fun d => [d], doneRingPush, doneRingPop, true⟩

def rewardQueue : Queue 10 RewardDesc := ⟨RewardDesc, fun d => [d], rewardPush, rewardPop, false⟩

def idQueue : Queue 12 (BitVec 32) := ⟨BitVec 32, fun i => [i], idRingPush, idRingPop, false⟩

namespace Queue

variable {k : ℕ} {α : Type} (q : Queue k α)

/-- Between calls the producer remembers what it handed over with the answers it got, and the
consumer what it got. -/
def Local : Side → Type
  | .producer => List (q.Batch × Bool)
  | .consumer => List (Option α)

/-- The calls of the two ends. -/
def Call : Side → Type
  | .producer => q.Batch
  | .consumer => Unit

/-- One call of the producer. -/
def giveCall (l : List (q.Batch × Bool)) (b : q.Batch) :
    Prog (Op 32 α) (Ring 32 k α) (List (q.Batch × Bool)) := do
  let x ← q.give b
  return l ++ [(b, x)]

/-- One call of the consumer. -/
def takeCall (l : List (Option α)) : Prog (Op 32 α) (Ring 32 k α) (List (Option α)) := do
  let x ← q.take
  return l ++ [x]

/-- The producer and the consumer as threads. -/
def system : System Side (Op 32 α) (Ring 32 k α) q.Local q.Call where
  effect := Op.effect
  start
    | .producer, l, b => q.giveCall l b
    | .consumer, l, _ => q.takeCall l

/-- The zeroed ring, no call made yet. -/
def init (z : α) : Config Side (Op 32 α) (Ring 32 k α) q.Local :=
  .rest (Ring.zeroed 32 k z) fun
    | .producer => ([] : List (q.Batch × Bool))
    | .consumer => ([] : List (Option α))

/-- The elements of the batches that were accepted. -/
def accepted (l : List (q.Batch × Bool)) : List α := l.flatMap fun x => if x.2 then q.items x.1 else []

/-- The number of batches that were refused. -/
def refused (l : List (q.Batch × Bool)) : ℕ := l.countP fun x => !x.2

/-- The safety of a queue. In every configuration of every schedule: what was taken is an initial
segment of what was published; a slot of an element published and not yet taken holds that element,
and no thread is about to write it; the occupancy is at most the ring size; and once the ends are at
rest, the published elements are those of the accepted batches, the taken ones are those the consumer
got, and the counter of a counting ring is the number of refusals. The steps of a refused push, among
any steps of the other end, leave both indices and all slots alone, and count the refusal exactly
once on a counting ring and never on another. -/
def Safe : Prop :=
  (∀ (z : α) (es : List ((i : Side) × q.Call i)),
    let c := q.system.run (q.init z) es
    c.mem.taken <+: c.mem.published ∧
    (∀ n, c.mem.taken.length ≤ n → n < c.mem.published.length →
      c.mem.published[n]? = some (c.mem.slots (pos k n)) ∧
      ∀ i j a, c.next i = some (.writeSlot j a) → mask k j ≠ pos k n) ∧
    (c.mem.prod - c.mem.cons).toNat ≤ 2 ^ k ∧
    (∀ l : List (q.Batch × Bool), c.threads .producer = .ret l →
      c.mem.published = q.accepted l ∧
      c.mem.overflow = if q.counts then BitVec.ofNat 32 (q.refused l) else 0) ∧
    ∀ l : List (Option α), c.threads .consumer = .ret l → c.mem.taken = l.reduceOption) ∧
  ∀ b tr, Prog.Trace (q.give b) tr false →
    (∀ y ∈ tr, y.1.Quiet y.2) ∧ tr.countP (·.1.isCount) = if q.counts then 1 else 0

/-! ### Lawful queues -/

/-- Both ends of the queue obey the discipline of one producer and one consumer. -/
structure Lawful : Prop where
  size_lt : k < 32
  give_ok : ∀ b {r : Ring 32 k α}, r.Inv → (spsc 32 k (unguarded α)).Ok .producer
    (fun x r' => r'.published = r.published ++ (if x then q.items b else []) ∧
      r'.overflow = r.overflow + if !x && q.counts then 1 else 0) (q.give b) r
  take_ok : ∀ {r : Ring 32 k α}, (spsc 32 k (unguarded α)).Ok .consumer
    (fun x r' => r'.taken = r.taken ++ x.toList) q.take r
  give_refused : ∀ b tr, Prog.Trace (q.give b) tr false →
    (∀ y ∈ tr, y.1.Quiet y.2) ∧ tr.countP (·.1.isCount) = if q.counts then 1 else 0

/-- What the two ends know when they are at rest. -/
def Known : (i : Side) → q.Local i → Ring 32 k α → Prop
  | .producer, l, r => r.published = q.accepted l ∧
      r.overflow = if q.counts then BitVec.ofNat 32 (q.refused l) else 0
  | .consumer, l, r => r.taken = (l : List (Option α)).reduceOption

variable {q}

theorem Lawful.giveCall_ok (hq : q.Lawful) (l : List (q.Batch × Bool)) (b : q.Batch)
    {r : Ring 32 k α} (hr : r.Inv) (hl : q.Known .producer l r) :
    (spsc 32 k (unguarded α)).Ok .producer (q.Known .producer) (q.giveCall l b) r := by
  refine Discipline.ok_bind _ hr (hq.give_ok b hr) ?_
  rintro x r₁ - ⟨hp, ho⟩ r₂ h₂ -
  obtain ⟨hl₁, hl₂⟩ := hl
  refine ⟨?_, ?_⟩
  · rw [h₂.published_eq, hp, hl₁]
    simp [accepted]
  · rw [h₂.overflow_eq, ho, hl₂]
    cases hc : q.counts <;> cases x <;> simp [refused, List.countP_append, BitVec.ofNat_add]

theorem Lawful.takeCall_ok (hq : q.Lawful) (l : List (Option α)) {r : Ring 32 k α} (hr : r.Inv)
    (hl : q.Known .consumer l r) :
    (spsc 32 k (unguarded α)).Ok .consumer (q.Known .consumer) (q.takeCall l) r := by
  refine Discipline.ok_bind _ hr hq.take_ok ?_
  rintro x r₁ - ht r₂ h₂ -
  have hl' : r.taken = l.reduceOption := hl
  change r₂.taken = (l ++ [x]).reduceOption
  rw [h₂.taken_eq, ht, hl', ← List.concat_eq_append, List.reduceOption_concat]

theorem Lawful.start_ok (hq : q.Lawful) (i : Side) (l : q.Local i) (x : q.Call i) {r : Ring 32 k α}
    (hr : r.Inv) (hl : q.Known i l r) :
    (spsc 32 k (unguarded α)).Ok i (q.Known i) (q.system.start i l x) r := by
  cases i with
  | producer => exact hq.giveCall_ok l x hr hl
  | consumer => exact hq.takeCall_ok l hr hl

theorem good_init (z : α) : (spsc 32 k (unguarded α)).Good q.Known (q.init z) := by
  refine Discipline.good_rest _ (Ring.zeroed_inv z) fun i r' hr _ => ?_
  cases i with
  | producer =>
    refine ⟨hr.published_eq, ?_⟩
    rw [hr.overflow_eq]
    simp [Ring.zeroed, refused]
  | consumer => exact hr.taken_eq

/-- Every configuration of a lawful queue obeys the discipline. -/
theorem Lawful.good (hq : q.Lawful) (z : α) (es : List ((i : Side) × q.Call i)) :
    (spsc 32 k (unguarded α)).Good q.Known (q.system.run (q.init z) es) :=
  Discipline.sound _ rfl (fun i l x _ => hq.start_ok i l x) (good_init z) (q.system.meets_true _ _)

theorem Lawful.safe (hq : q.Lawful) : q.Safe := by
  refine ⟨fun z es => ?_, hq.give_refused⟩
  have hgood := hq.good z es
  have hinv : Contents k _ _ _ _ _ := hgood.1
  refine ⟨hinv.taken_le, fun n hn hn' => ⟨hinv.live n hn hn', fun i j a hw => ?_⟩, ?_, ?_, ?_⟩
  · have hmay : May (unguarded α) i _ _ := hgood.may hw trivial
    cases i with
    | producer => exact not_live_of_may_write hmay hn hn'
    | consumer => exact hmay.elim
  · rw [hinv.occupancy hq.size_lt]
    exact Nat.sub_le_of_le_add (by rw [Nat.add_comm]; exact hinv.bound)
  · exact fun l hl => hgood.rest hl
  · exact fun l hl => hgood.rest hl

end Queue

/-! ### The five queues -/

theorem lawful_push {k : ℕ} {α : Type} (hk : k < 32) (ownFirst counts : Bool) :
    (⟨α, fun a => [a], push ⟨ownFirst, spaceTest k, counts⟩, consume orderedEmpty, counts⟩ :
      Queue k α).Lawful where
  size_lt := hk
  give_ok _ _ hr := push_ok hk (roomSound_spaceTest hk ownFirst counts 1) hr trivial
  take_ok := consume_ok hk emptySound_orderedEmpty
  give_refused _ _ h := push_trace_refused h

theorem commandQueue_lawful : commandQueue.Lawful where
  size_lt := by decide
  give_ok b r hr := by
    have hroom := roomSound_spaceTest (k := 12) (by decide) false false
    rw [show commandQueue.give b = submit ringProducer b.1 from submitDescriptors_eq b.1]
    exact submit_ok (by decide) (hroom _) b.2 hr trivial
  take_ok := consume_ok (by decide) emptySound_orderedEmpty
  give_refused b tr h := by
    rw [show commandQueue.give b = submit ringProducer b.1 from submitDescriptors_eq b.1] at h
    exact submit_trace_refused h

theorem requestQueue_lawful : requestQueue.Lawful where
  size_lt := by decide
  give_ok b r hr := by
    have hroom := roomSound_spaceTest (k := 10) (by decide) false false
    rw [show requestQueue.give b = submit reqRingProducer [b] from submitRequest_eq b]
    exact submit_ok (by decide) (hroom _) (Nat.one_lt_two_pow (by decide)) hr trivial
  take_ok := consume_ok (by decide) emptySound_orderedEmpty
  give_refused b tr h := by
    rw [show requestQueue.give b = submit reqRingProducer [b] from submitRequest_eq b] at h
    exact submit_trace_refused h

theorem completionQueue_lawful : completionQueue.Lawful := lawful_push (by decide) false true

theorem doneQueue_lawful : doneQueue.Lawful := lawful_push (by decide) false true

theorem rewardQueue_lawful : rewardQueue.Lawful := lawful_push (by decide) true false

theorem idQueue_lawful : idQueue.Lawful := lawful_push (by decide) true false

/-- **Safety of the software queues.** -/
theorem softQueues_safe : commandQueue.Safe ∧ completionQueue.Safe ∧ requestQueue.Safe ∧
    doneQueue.Safe ∧ rewardQueue.Safe :=
  ⟨commandQueue_lawful.safe, completionQueue_lawful.safe, requestQueue_lawful.safe,
    doneQueue_lawful.safe, rewardQueue_lawful.safe⟩

end RolloutRuntime
