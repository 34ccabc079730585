import RolloutRuntime.Bitmap.Words
import RolloutRuntime.Rings.Safety
import Mathlib.Data.Finset.Card
import Mathlib.Data.Fintype.Card

/-!
# The device scheduler

One worker on the device runs up to 256 rollouts at a time. In each pass through its loop it takes at
most one request from the request ring, gives it a free slot if there is one, and then looks at all
slots in order: it advances every active rollout by one token, and reports those that have reached
their limit to the done ring, trying again until there is room, before it releases the slot. A request
with the sentinel id makes it return.

The slots and their bitmap are used by the worker alone, so a load or a store of them is one access
here. A call of the worker is one pass through a part of its loop: the poll with the admission, the
step of one slot, or one attempt to push. The host submits requests and pops notifications in two
threads, which covers every timing of the two.

The reward of a rollout is the exact quotient here, a rounded one in the source.

## Main definitions

* `Scheduler.GpuRolloutState`, `Scheduler.findFreeSlot`, `Scheduler.releaseSlot`: the slots.
* `Scheduler.admitRequest`, `Scheduler.stepSlot`: what a pass does with a request and with a slot.
* `Scheduler.rolloutWorker`, `Scheduler.system`: the worker, and the system with the host.
* `Scheduler.activeSlots`, `Scheduler.Agrees`: the slots in use, and that the bitmap says the same.

## Main results

* `Scheduler.findFreeSlot_eq_some`, `Scheduler.findFreeSlot_eq_none`: the search for a slot.
* `Scheduler.admitRequest_spec`: an admission with a free slot makes one more slot active.
* `Scheduler.stepSlot_cases`, `Scheduler.stepSlot_active`: what the step of a slot can do.

## References

* `cu/gpu_scheduler.cu`, `include/request.h`.
-/

namespace RolloutRuntime

open Concurrency RingBuffer

namespace Scheduler

/-! ### The slots -/

/-- `GpuRolloutSlot`. -/
structure GpuRolloutSlot where
  active : BitVec 32
  requestId : BitVec 32
  tokensGenerated : BitVec 32
  maxTokens : BitVec 32
  kvBlocks : BitVec 32
  rngState : Fin 4 → BitVec 64
  temperature : BitVec 32
  topK : BitVec 16
  topP : BitVec 32

/-- The zeroed slot. -/
def GpuRolloutSlot.zeroed : GpuRolloutSlot := ⟨0, 0, 0, 0, 0, fun _ => 0, 0, 0, 0⟩

/-- The slots of the device: `GPU_MAX_ROLLOUTS` of them, in four words of the bitmap. -/
abbrev Slot : Type := Fin (4 * 64)

/-- `GpuRolloutState`; a bit of the bitmap is set if its slot is taken. -/
structure GpuRolloutState where
  slots : Slot → GpuRolloutSlot
  bitmap : Bitmap.Words 4

/-- The zeroed state. -/
def GpuRolloutState.zeroed : GpuRolloutState := ⟨fun _ => .zeroed, fun _ => 0⟩

/-- Overwrite one slot. -/
def GpuRolloutState.setSlot (st : GpuRolloutState) (i : Slot) (rs : GpuRolloutSlot) :
    GpuRolloutState :=
  { st with slots := Function.update st.slots i rs }

theorem GpuRolloutState.setSlot_slots_self (st : GpuRolloutState) (i : Slot) (rs : GpuRolloutSlot) :
    (st.setSlot i rs).slots i = rs := by
  simp only [setSlot, Function.update_self]

theorem GpuRolloutState.setSlot_slots_of_ne (st : GpuRolloutState) {i j : Slot} (h : j ≠ i)
    (rs : GpuRolloutSlot) : (st.setSlot i rs).slots j = st.slots j := by
  simp only [setSlot, Function.update_of_ne h]

/-- `find_free_slot`: the slot, and the state with its bit set; `none` if all bits are set. -/
def findFreeSlot (st : GpuRolloutState) : Option (Slot × GpuRolloutState) :=
  (Bitmap.lowestBit (Bitmap.compl st.bitmap)).map fun i =>
    (i, { st with bitmap := Bitmap.setBit st.bitmap i })

/-- `release_slot`. -/
def releaseSlot (st : GpuRolloutState) (i : Slot) : GpuRolloutState :=
  { st with bitmap := Bitmap.clearBit st.bitmap i }

/-- The generator state of a slot, from the seed of its request. -/
def seedState (seed : BitVec 64) : Fin 4 → BitVec 64
  | 0 => seed
  | 1 => seed ^^^ 0x9e3779b97f4a7c15
  | 2 => (seed <<< 17) ^^^ 0x3c6ef372fe94f82a
  | 3 => ~~~seed

/-- The slot of a request that has just been admitted. -/
def admittedSlot (req : RolloutRequest) : GpuRolloutSlot where
  active := 1
  requestId := (req.requestId &&& 0xFFFFFFFF).setWidth 32
  tokensGenerated := 0
  maxTokens := req.maxTokens
  kvBlocks := req.kvBlocks
  rngState := seedState req.rngSeed
  temperature := req.temperature
  topK := req.topK
  topP := req.topP

/-- The admission of a request. Without a free slot nothing happens. -/
def admitRequest (st : GpuRolloutState) (req : RolloutRequest) : GpuRolloutState :=
  match findFreeSlot st with
  | none => st
  | some (i, st) => st.setSlot i (admittedSlot req)

/-- The rollout is no longer active. -/
def GpuRolloutSlot.retire (rs : GpuRolloutSlot) : GpuRolloutSlot := { rs with active := 0 }

/-- One more token is generated. -/
def GpuRolloutSlot.advance (rs : GpuRolloutSlot) : GpuRolloutSlot :=
  { rs with tokensGenerated := rs.tokensGenerated + 1 }

/-- The notification of the rollout in slot `i`. -/
def doneOf (i : Slot) (rs : GpuRolloutSlot) : RolloutDone where
  requestId := rs.requestId.setWidth 64
  rolloutId := BitVec.ofNat 32 i
  tokensGenerated := rs.tokensGenerated
  reward := ((rs.tokensGenerated &&& 0xFF).toNat : ℚ) / 255
  status := 0

/-- The step of slot `i`: the state, and the notification to be pushed if the rollout is finished. -/
def stepSlot (st : GpuRolloutState) (i : Slot) : GpuRolloutState × Option RolloutDone :=
  let rs := st.slots i
  if rs.active = 0 then (st, none)
  else if rs.tokensGenerated ≥ rs.maxTokens then
    (st.setSlot i rs.retire, some (doneOf i rs))
  else (st.setSlot i rs.advance, none)

/-! ### The memory -/

/-- The two rings, the state of the device and the counter of finished rollouts. -/
structure Mem where
  reqRing : RequestRing
  doneRing : DoneRing
  state : GpuRolloutState
  stepCount : BitVec 64

/-- The atomic accesses to them. -/
inductive Access
  | req (o : Op 32 RolloutRequest)
  | done (o : Op 32 RolloutDone)
  | loadState
  | storeState (st : GpuRolloutState)
  | countStep

/-- The effect of an access. -/
def Access.effect : Access → Mem → Mem
  | .req o, s => { s with reqRing := o.effect s.reqRing }
  | .done o, s => { s with doneRing := o.effect s.doneRing }
  | .loadState, s => s
  | .storeState st, s => { s with state := st }
  | .countStep, s => { s with stepCount := s.stepCount + 1 }

/-- A program on the request ring. -/
def onReq {α : Type} (p : Prog (Op 32 RolloutRequest) RequestRing α) : Prog Access Mem α :=
  p.zoom .req Mem.reqRing

/-- A program on the done ring. -/
def onDone {α : Type} (p : Prog (Op 32 RolloutDone) DoneRing α) : Prog Access Mem α :=
  p.zoom .done Mem.doneRing

/-- Replace the state of the device by its image under `f`. -/
def updateState (f : GpuRolloutState → GpuRolloutState) : Prog Access Mem Unit := do
  let st ← Prog.load .loadState (·.state)
  Prog.exec (.storeState (f st))

/-! ### The worker -/

/-- The request id that makes the worker return. -/
def sentinel : BitVec 64 := -1

/-- Where the worker is: at the top of its loop, about to look at a slot, trying to push the
notification of a slot, or returned. -/
inductive Phase
  | top
  | scanning (i : ℕ)
  | pushing (i : Slot) (d : RolloutDone)
  | returned

/-- `rollout_worker`: the poll with the admission, the step of one slot, or one attempt to push. -/
def rolloutWorker : Phase → Prog Access Mem Phase
  | .top => do
    match ← onReq reqRingConsume with
    | none => return .scanning 0
    | some req =>
      if req.requestId = sentinel then return .returned
      updateState (admitRequest · req)
      return .scanning 0
  | .scanning i =>
    if h : i < 4 * 64 then do
      let st ← Prog.load .loadState (·.state)
      Prog.exec (.storeState (stepSlot st ⟨i, h⟩).1)
      match (stepSlot st ⟨i, h⟩).2 with
      | none => return .scanning (i + 1)
      | some d => return .pushing ⟨i, h⟩ d
    else return .top
  | .pushing i d => do
    if ← onDone (doneRingPush d) then
      updateState (releaseSlot · i)
      Prog.exec .countStep
      return .scanning (i + 1)
    return .pushing i d
  | .returned => return .returned

/-! ### The threads -/

/-- The worker, and the two activities of the host. -/
inductive Thread
  | submitter
  | poller
  | worker
  deriving DecidableEq

/-- What a thread keeps between its calls: the host its answers, the worker its place in the loop. -/
def Local : Thread → Type
  | .submitter => List Bool
  | .poller => List (Option RolloutDone)
  | .worker => Phase

/-- The calls of a thread. -/
def Call : Thread → Type
  | .submitter => RolloutRequest
  | .poller => Unit
  | .worker => Unit

/-- The submission of a request by the host. -/
def submitCall (l : List Bool) (req : RolloutRequest) : Prog Access Mem (List Bool) := do
  let ok ← onReq (submitRequest req)
  return l ++ [ok]

/-- A pop of a notification by the host. -/
def popCall (l : List (Option RolloutDone)) : Prog Access Mem (List (Option RolloutDone)) := do
  let d ← onDone doneRingPop
  return l ++ [d]

/-- The host and the worker. -/
def system : System Thread Access Mem Local Call where
  effect := Access.effect
  start
    | .submitter, l, req => submitCall l req
    | .poller, l, _ => popCall l
    | .worker, l, _ => rolloutWorker l

/-- Zeroed rings and a zeroed device; `z` and `z'` are the zeroed records. -/
def init (z : RolloutRequest) (z' : RolloutDone) : Config Thread Access Mem Local :=
  .rest ⟨Ring.zeroed 32 10 z, Ring.zeroed 32 10 z', .zeroed, 0⟩ fun
    | .submitter => ([] : List Bool)
    | .poller => ([] : List (Option RolloutDone))
    | .worker => Phase.top

/-! ### Active slots -/

/-- The slots of the rollouts that are running. -/
def activeSlots (st : GpuRolloutState) : Finset Slot :=
  Finset.univ.filter fun i => (st.slots i).active ≠ 0

theorem mem_activeSlots {st : GpuRolloutState} {i : Slot} :
    i ∈ activeSlots st ↔ (st.slots i).active ≠ 0 := by
  simp [activeSlots]

theorem activeSlots_zeroed : activeSlots .zeroed = ∅ := by
  ext i
  simp [mem_activeSlots, GpuRolloutState.zeroed, GpuRolloutSlot.zeroed]

theorem activeSlots_setSlot_of_active (st : GpuRolloutState) (i : Slot) {rs : GpuRolloutSlot}
    (h : rs.active ≠ 0) : activeSlots (st.setSlot i rs) = insert i (activeSlots st) := by
  ext j
  rw [Finset.mem_insert, mem_activeSlots, mem_activeSlots, GpuRolloutState.setSlot]
  by_cases hj : j = i
  · simpa [hj] using h
  · simp [hj]

theorem activeSlots_setSlot_of_inactive (st : GpuRolloutState) (i : Slot) {rs : GpuRolloutSlot}
    (h : rs.active = 0) : activeSlots (st.setSlot i rs) = (activeSlots st).erase i := by
  ext j
  rw [Finset.mem_erase, mem_activeSlots, mem_activeSlots, GpuRolloutState.setSlot]
  by_cases hj : j = i
  · simp [hj, h]
  · simp [hj]

theorem activeSlots_setSlot_advance {st : GpuRolloutState} {i : Slot} (h : i ∈ activeSlots st) :
    activeSlots (st.setSlot i (st.slots i).advance) = activeSlots st := by
  have hactive : (st.slots i).advance.active ≠ 0 := mem_activeSlots.mp h
  rw [activeSlots_setSlot_of_active st i hactive, Finset.insert_eq_of_mem h]

/-- The slots whose bits are set are those of `A`. -/
def Agrees (st : GpuRolloutState) (A : Finset Slot) : Prop :=
  ∀ i, Bitmap.bit st.bitmap i = true ↔ i ∈ A

theorem agrees_zeroed : Agrees .zeroed (activeSlots .zeroed) := by
  intro i
  rw [activeSlots_zeroed, GpuRolloutState.zeroed, Bitmap.bit_zero]
  simp

theorem findFreeSlot_eq_some {st st' : GpuRolloutState} {A : Finset Slot} (h : Agrees st A) {i : Slot}
    (hfind : findFreeSlot st = some (i, st')) :
    i ∉ A ∧ (∀ j < i, j ∈ A) ∧ st'.slots = st.slots ∧ Agrees st' (insert i A) := by
  obtain ⟨j, hj, heq⟩ := Option.map_eq_some_iff.mp hfind
  obtain ⟨rfl, rfl⟩ := Prod.mk.inj heq
  obtain ⟨hbit, hbelow⟩ := Bitmap.lowestBit_eq_some_iff.mp hj
  simp only [Bitmap.bit_compl, Bool.not_eq_true', Bool.not_eq_false'] at hbit hbelow
  refine ⟨fun hmem => ?_, fun j hj => (h j).mp (hbelow j hj), rfl, fun l => ?_⟩
  · rw [(h _).mpr hmem] at hbit
    exact absurd hbit (by decide)
  · rw [Finset.mem_insert, Bitmap.bit_setBit, Bool.or_eq_true, decide_eq_true_iff, h l]

theorem findFreeSlot_eq_none {st : GpuRolloutState} {A : Finset Slot} (h : Agrees st A) :
    findFreeSlot st = none ↔ A = Finset.univ := by
  rw [findFreeSlot, Option.map_eq_none_iff, Bitmap.lowestBit_eq_none_iff, Finset.eq_univ_iff_forall]
  refine forall_congr' fun i => ?_
  rw [Bitmap.bit_compl, Bool.not_eq_false', h i]

/-- **Admission.** If some slot is not taken, one such slot becomes active and taken. -/
theorem admitRequest_spec {st : GpuRolloutState} (h : Agrees st (activeSlots st)) (req : RolloutRequest)
    (hfree : ∃ i, (st.slots i).active = 0) :
    ∃ i ∉ activeSlots st, activeSlots (admitRequest st req) = insert i (activeSlots st) ∧
      Agrees (admitRequest st req) (activeSlots (admitRequest st req)) := by
  rcases hfind : findFreeSlot st with _ | ⟨i, st'⟩
  · obtain ⟨i, hi⟩ := hfree
    have hmem : i ∈ activeSlots st := by
      rw [(findFreeSlot_eq_none h).mp hfind]
      exact Finset.mem_univ i
    exact absurd hi (mem_activeSlots.mp hmem)
  · obtain ⟨hi, -, hslots, hagrees⟩ := findFreeSlot_eq_some h hfind
    have heq : admitRequest st req = st'.setSlot i (admittedSlot req) := by rw [admitRequest, hfind]
    have hactive : activeSlots (admitRequest st req) = insert i (activeSlots st) := by
      rw [heq, activeSlots_setSlot_of_active _ _ (by simp [admittedSlot])]
      simp only [activeSlots, hslots]
    refine ⟨i, hi, hactive, ?_⟩
    rw [hactive, heq]
    exact hagrees

/-- **The step of a slot.** It does nothing, or retires the rollout, or advances it by one token. -/
theorem stepSlot_cases (st : GpuRolloutState) (i : Slot) :
    (i ∉ activeSlots st ∧ stepSlot st i = (st, none)) ∨
    (i ∈ activeSlots st ∧ (st.slots i).maxTokens ≤ (st.slots i).tokensGenerated ∧
      stepSlot st i = (st.setSlot i (st.slots i).retire, some (doneOf i (st.slots i)))) ∨
    (i ∈ activeSlots st ∧ (st.slots i).tokensGenerated < (st.slots i).maxTokens ∧
      stepSlot st i = (st.setSlot i (st.slots i).advance, none)) := by
  by_cases hactive : (st.slots i).active = 0
  · left
    refine ⟨fun hmem => mem_activeSlots.mp hmem hactive, ?_⟩
    rw [stepSlot, if_pos hactive]
  · right
    have hmem := mem_activeSlots.mpr hactive
    by_cases hdone : (st.slots i).maxTokens ≤ (st.slots i).tokensGenerated
    · left
      refine ⟨hmem, hdone, ?_⟩
      rw [stepSlot, if_neg hactive, if_pos hdone]
    · right
      refine ⟨hmem, BitVec.not_le.mp hdone, ?_⟩
      rw [stepSlot, if_neg hactive, if_neg hdone]

/-- The step of a slot retires its rollout if it has something to report, and otherwise leaves the
active slots alone. It does not touch the bitmap. -/
theorem stepSlot_active {st st' : GpuRolloutState} {i : Slot} {x : Option RolloutDone}
    (h : stepSlot st i = (st', x)) :
    st'.bitmap = st.bitmap ∧
      ((x = none ∧ activeSlots st' = activeSlots st) ∨
        (x = some (doneOf i (st.slots i)) ∧ i ∈ activeSlots st ∧
          activeSlots st' = (activeSlots st).erase i)) := by
  rcases stepSlot_cases st i with ⟨-, heq⟩ | ⟨hmem, -, heq⟩ | ⟨hmem, -, heq⟩
  · obtain ⟨rfl, rfl⟩ := Prod.mk.inj (h.symm.trans heq)
    exact ⟨rfl, Or.inl ⟨rfl, rfl⟩⟩
  · obtain ⟨rfl, rfl⟩ := Prod.mk.inj (h.symm.trans heq)
    exact ⟨rfl, Or.inr ⟨rfl, hmem, activeSlots_setSlot_of_inactive st i rfl⟩⟩
  · obtain ⟨rfl, rfl⟩ := Prod.mk.inj (h.symm.trans heq)
    refine ⟨rfl, Or.inl ⟨rfl, ?_⟩⟩
    exact activeSlots_setSlot_advance hmem

end Scheduler

end RolloutRuntime
