import RolloutRuntime.Bitmap.Allocator

/-!
# The slab of rollouts

The slab holds the records of `8192` rollouts. Who owns a record is told by a bitmap, whose set bits are
the free records; where the rollout of a record is in its life is told by the state word of the record.
Allocation and release keep both. A transition only looks at the state word: a record that is not
allocated and is in the state `free` can be moved to `prefillReady` by whoever still has its id.

A return code is a boolean, `true` for zero.

## Main definitions

* `RolloutState`, `rolloutIsValidTransition`: the states and the table of transitions.
* `RolloutSlab`, `rolloutSlabInit`, `rolloutAlloc`, `rolloutFree`, `rolloutGet`, `rolloutTransition`,
  `pipelineTransition`.
* `Tenure`: the slab with the ids its callers hold.
* `Tenure.Sound`: in a run of calls free records are in the state `free`, and transitions of records that
  nobody holds are rejected.
* `Tenure.NoStaleStart`: no call of the run starts a rollout that nobody holds.

## Main results

* `rolloutAllocator_onBitmap`: the slab is an allocator on its bitmap.
* `rolloutSlab_sound_iff`: a run is sound exactly if no call starts a rollout that nobody holds.

## References

* `src/rollout.c`, `include/rollout.h`, `src/pipeline.c` lines 61–68.
-/

namespace RolloutRuntime

open Bitmap

/-! ### The slab -/

/-- `rollout_state_t`. -/
inductive RolloutState
  | free
  | prefillReady
  | decoding
  | rewardPending
  | trajectoryReady
  | done
  deriving DecidableEq, Repr

/-- `rollout_is_valid_transition`. -/
def rolloutIsValidTransition : RolloutState → RolloutState → Bool
  | .free, dst => dst == .prefillReady
  | .prefillReady, dst => dst == .decoding
  | .decoding, dst => dst == .rewardPending || dst == .done
  | .rewardPending, dst => dst == .trajectoryReady || dst == .decoding
  | .trajectoryReady, dst => dst == .done
  | .done, dst => dst == .free

/-- `rollout_t`. -/
structure Rollout where
  rolloutId : BitVec 32
  state : RolloutState
  kvArenaId : BitVec 32
  kvBlockIdx : BitVec 64
  seqLen : BitVec 32
  maxTokens : BitVec 32
  rewardId : BitVec 32
  flags : BitVec 32
  rngSeed : BitVec 64
  pad : BitVec 32
  deriving DecidableEq

/-- A record with all bytes zero; the state `free` is zero. -/
def Rollout.zeroed : Rollout := ⟨0, .free, 0, 0, 0, 0, 0, 0, 0, 0⟩

/-- The rollout ids below `MAX_ROLLOUTS`. -/
abbrev RolloutId : Type := Fin (128 * 64)

/-- `rollout_slab_t`; a bit of the bitmap is set if its record is free. -/
structure RolloutSlab where
  slots : RolloutId → Rollout
  freeBitmap : Words 128

/-- `rollout_slab_init`. -/
def rolloutSlabInit : RolloutSlab where
  slots i := { Rollout.zeroed with rolloutId := BitVec.ofNat 32 i, state := .free }
  freeBitmap _ := ~~~0

/-- `rollout_alloc`. -/
def rolloutAlloc (slab : RolloutSlab) : Option (RolloutId × RolloutSlab) :=
  (lowestBit slab.freeBitmap).map fun id => (id, {
    slots := Function.update slab.slots id
      { Rollout.zeroed with rolloutId := BitVec.ofNat 32 id, state := .free }
    freeBitmap := clearBit slab.freeBitmap id })

/-- `rollout_get`: the record of an id, if the id is in range. -/
def rolloutGet (id : BitVec 32) : Option RolloutId :=
  if h : id.toNat < 128 * 64 then some ⟨id.toNat, h⟩ else none

/-- `rollout_free`; an id out of range is ignored. -/
def rolloutFree (slab : RolloutSlab) (id : BitVec 32) : RolloutSlab :=
  match rolloutGet id with
  | none => slab
  | some i => {
      slots := Function.update slab.slots i { slab.slots i with state := .free }
      freeBitmap := setBit slab.freeBitmap i }

/-- `rollout_transition`, on the record of an id. -/
def rolloutTransition (slab : RolloutSlab) (i : RolloutId) (src dst : RolloutState) : Bool × RolloutSlab :=
  if rolloutIsValidTransition src dst then
    if (slab.slots i).state = src then
      (true, { slab with slots := Function.update slab.slots i { slab.slots i with state := dst } })
    else (false, slab)
  else (false, slab)

/-- `pipeline_transition`, on the slab of the pipeline. -/
def pipelineTransition (slab : RolloutSlab) (id : BitVec 32) (src dst : RolloutState) :
    Bool × RolloutSlab :=
  match rolloutGet id with
  | none => (false, slab)
  | some i => rolloutTransition slab i src dst

/-! ### Allocation -/

theorem rolloutAlloc_eq_some {slab slab' : RolloutSlab} {i : RolloutId}
    (h : rolloutAlloc slab = some (i, slab')) :
    lowestBit slab.freeBitmap = some i ∧ slab' = {
      slots := Function.update slab.slots i
        { Rollout.zeroed with rolloutId := BitVec.ofNat 32 i, state := .free }
      freeBitmap := clearBit slab.freeBitmap i } := by
  obtain ⟨j, hj, heq⟩ := Option.map_eq_some_iff.mp h
  obtain ⟨rfl, rfl⟩ := Prod.mk.inj heq
  exact ⟨hj, rfl⟩

theorem rolloutGet_ofNat (i : RolloutId) : rolloutGet (BitVec.ofNat 32 i) = some i := by
  have hi : (BitVec.ofNat 32 (i : ℕ)).toNat = i := by
    rw [BitVec.toNat_ofNat, Nat.mod_eq_of_lt (by omega)]
  rw [rolloutGet, dif_pos (by omega), Option.some_inj]
  exact Fin.ext hi

theorem eq_ofNat_of_rolloutGet {id : BitVec 32} {i : RolloutId} (h : rolloutGet id = some i) :
    id = BitVec.ofNat 32 i := by
  rw [rolloutGet] at h
  split_ifs at h
  obtain rfl := Option.some_inj.mp h
  exact (BitVec.ofNat_toNat 32 id).symm

theorem rolloutFree_of_get {slab : RolloutSlab} {id : BitVec 32} {i : RolloutId}
    (h : rolloutGet id = some i) : rolloutFree slab id = {
      slots := Function.update slab.slots i { slab.slots i with state := .free }
      freeBitmap := setBit slab.freeBitmap i } := by
  simp only [rolloutFree, h]

/-- The slab as an allocator of rollout ids. -/
def rolloutAllocator : Allocator (128 * 64) where
  State := RolloutSlab
  init := rolloutSlabInit
  alloc := rolloutAlloc
  free slab i := rolloutFree slab (BitVec.ofNat 32 i)

theorem rolloutAllocator_onBitmap : rolloutAllocator.OnBitmap false RolloutSlab.freeBitmap where
  init := represents_ones
  alloc slab := by
    refine ⟨fun i => ({
      slots := Function.update slab.slots i
        { Rollout.zeroed with rolloutId := BitVec.ofNat 32 i, state := .free }
      freeBitmap := clearBit slab.freeBitmap i } : RolloutSlab), ?_, fun _ => rfl⟩
    simp only [rolloutAllocator, rolloutAlloc, unusedBits_false]
  free slab i := congrArg RolloutSlab.freeBitmap (rolloutFree_of_get (rolloutGet_ofNat i))

/-! ### Runs -/

/-- The slab with the ids that were allocated and not freed. -/
structure Tenure where
  slab : RolloutSlab
  held : Finset RolloutId

/-- What the callers do. -/
inductive SlabCall
  | alloc
  | free (id : BitVec 32)
  | transition (id : BitVec 32) (src dst : RolloutState)
  deriving DecidableEq

namespace Tenure

/-- The slab after an allocation that returned the given id, or none. -/
def allocated (s : Tenure) : Option (RolloutId × RolloutSlab) → Tenure
  | none => s
  | some (i, slab) => ⟨slab, insert i s.held⟩

/-- The ids held after an id is freed. -/
def heldWithout (s : Tenure) : Option RolloutId → Finset RolloutId
  | none => s.held
  | some i => s.held.erase i

/-- The slab after one call. -/
def step (s : Tenure) : SlabCall → Tenure
  | .alloc => s.allocated (rolloutAlloc s.slab)
  | .free id => ⟨rolloutFree s.slab id, s.heldWithout (rolloutGet id)⟩
  | .transition id src dst => ⟨(pipelineTransition s.slab id src dst).2, s.held⟩

/-- Nobody holds the id. -/
def Unheld (s : Tenure) (id : BitVec 32) : Prop := ∀ i, rolloutGet id = some i → i ∉ s.held

/-- The free records are in the state `free`. -/
def FreeIsFree (s : Tenure) : Prop :=
  ∀ i, bit s.slab.freeBitmap i = true → (s.slab.slots i).state = .free

/-- A transition of a record that nobody holds is rejected and changes nothing. -/
def Rejects (s : Tenure) : SlabCall → Prop
  | .transition id src dst => s.Unheld id → pipelineTransition s.slab id src dst = (false, s.slab)
  | _ => True

/-- In every state of the run the free records are in the state `free`, and every transition of a record
that nobody holds is rejected. -/
def Sound : Tenure → List SlabCall → Prop
  | s, [] => s.FreeIsFree
  | s, c :: cs => s.FreeIsFree ∧ s.Rejects c ∧ (s.step c).Sound cs

/-- The call starts a rollout that nobody holds. -/
def StaleStart (s : Tenure) (c : SlabCall) : Prop :=
  ∃ i ∉ s.held, c = .transition (BitVec.ofNat 32 i) .free .prefillReady

/-- No call of the run starts a rollout that nobody holds. -/
def NoStaleStart : Tenure → List SlabCall → Prop
  | _, [] => True
  | s, c :: cs => ¬ s.StaleStart c ∧ (s.step c).NoStaleStart cs

variable {s : Tenure}

/-- The bitmap represents the ids held, and free records are in the state `free`. -/
structure Agrees (s : Tenure) : Prop where
  bitmap : Represents false s.slab.freeBitmap s.held
  free : s.FreeIsFree

theorem Agrees.bit_iff (h : s.Agrees) (i : RolloutId) : bit s.slab.freeBitmap i = true ↔ i ∉ s.held := by
  rw [← h.bitmap i, Bool.not_eq_false]

/-- The only transition out of the state `free` is the start. -/
theorem eq_prefillReady_of_valid {dst : RolloutState} (h : rolloutIsValidTransition .free dst = true) :
    dst = .prefillReady :=
  eq_of_beq h

/-- A record that nobody holds is in the state `free`, so only a start of its rollout is accepted. -/
theorem Agrees.transition_of_unheld (h : s.Agrees) {id : BitVec 32} {src dst : RolloutState}
    (hid : s.Unheld id) (hstale : ¬ s.StaleStart (.transition id src dst)) :
    pipelineTransition s.slab id src dst = (false, s.slab) := by
  rcases hget : rolloutGet id with _ | i
  · simp only [pipelineTransition, hget]
  · have hi : i ∉ s.held := hid i hget
    have hfree : (s.slab.slots i).state = .free := h.free i ((h.bit_iff i).mpr hi)
    simp only [pipelineTransition, hget, rolloutTransition, hfree]
    by_cases hvalid : rolloutIsValidTransition src dst = true
    · rw [if_pos hvalid, if_neg]
      rintro rfl
      obtain rfl := eq_prefillReady_of_valid hvalid
      obtain rfl := eq_ofNat_of_rolloutGet hget
      exact hstale ⟨i, hi, rfl⟩
    · rw [if_neg hvalid]

theorem Agrees.not_rejects_of_staleStart (h : s.Agrees) {c : SlabCall} (hc : s.StaleStart c) :
    ¬ s.Rejects c := by
  obtain ⟨i, hi, rfl⟩ := hc
  have hget := rolloutGet_ofNat i
  have hfree : (s.slab.slots i).state = .free := h.free i ((h.bit_iff i).mpr hi)
  intro hrejects
  have hunheld : s.Unheld (BitVec.ofNat 32 i) := by
    intro j hj
    rw [hget] at hj
    obtain rfl := Option.some_inj.mp hj
    exact hi
  have hreject := congrArg Prod.fst (hrejects hunheld)
  simp only [pipelineTransition, hget, rolloutTransition, hfree] at hreject
  cases hreject

theorem transition_frame (slab : RolloutSlab) (i : RolloutId) (src dst : RolloutState) :
    (rolloutTransition slab i src dst).2.freeBitmap = slab.freeBitmap ∧
      ∀ j ≠ i, (rolloutTransition slab i src dst).2.slots j = slab.slots j := by
  rw [rolloutTransition]
  split_ifs
  · exact ⟨rfl, fun j hj => Function.update_of_ne hj _ _⟩
  · exact ⟨rfl, fun _ _ => rfl⟩
  · exact ⟨rfl, fun _ _ => rfl⟩

/-- Every call but a start of a rollout that nobody holds keeps the bitmap and the states in agreement. -/
theorem Agrees.step (h : s.Agrees) {c : SlabCall} (hc : ¬ s.StaleStart c) : (s.step c).Agrees := by
  cases c with
  | alloc =>
    rw [Tenure.step]
    rcases halloc : rolloutAlloc s.slab with _ | ⟨i, slab⟩
    · exact h
    · obtain ⟨-, rfl⟩ := rolloutAlloc_eq_some halloc
      refine ⟨h.bitmap.take i, fun j hj => ?_⟩
      simp only [allocated, bit_clearBit, Bool.and_eq_true, Bool.not_eq_true', decide_eq_false_iff_not] at hj
      simp only [allocated, Function.update_of_ne hj.1]
      exact h.free j hj.2
  | free id =>
    rw [Tenure.step]
    rcases hget : rolloutGet id with _ | i
    · have hsame : rolloutFree s.slab id = s.slab := by simp only [rolloutFree, hget]
      rw [hsame]
      exact h
    · rw [rolloutFree_of_get hget]
      refine ⟨h.bitmap.give i, fun j hj => ?_⟩
      simp only
      by_cases hji : j = i
      · subst hji
        rw [Function.update_self]
      · rw [Function.update_of_ne hji]
        simp only [bit_setBit, hji, decide_false, Bool.false_or] at hj
        exact h.free j hj
  | transition id src dst =>
    rw [Tenure.step]
    by_cases hid : s.Unheld id
    · rw [h.transition_of_unheld hid hc]
      exact h
    · -- the record is held, so its bit is clear and its state is free to change
      obtain ⟨i, hget, hi⟩ : ∃ i, rolloutGet id = some i ∧ i ∈ s.held := by
        simpa only [Unheld, not_forall, not_not, exists_prop] using hid
      obtain ⟨hbitmap, hslots⟩ := transition_frame s.slab i src dst
      have hrun : pipelineTransition s.slab id src dst = rolloutTransition s.slab i src dst := by
        simp only [pipelineTransition, hget]
      rw [hrun]
      refine ⟨?_, fun j hj => ?_⟩
      · simp only [hbitmap]
        exact h.bitmap
      · simp only [hbitmap] at hj
        have hne : j ≠ i := by
          rintro rfl
          exact (h.bit_iff j).mp hj hi
        simp only [hslots j hne]
        exact h.free j hj

/-- From a state in agreement, a run is sound exactly if no call starts a rollout that nobody holds. -/
theorem Agrees.sound_iff (h : s.Agrees) (cs : List SlabCall) : s.Sound cs ↔ s.NoStaleStart cs := by
  induction cs generalizing s with
  | nil => exact iff_of_true h.free trivial
  | cons c cs ih =>
    constructor
    · rintro ⟨-, hrejects, hrest⟩
      have hc : ¬ s.StaleStart c := fun hc => h.not_rejects_of_staleStart hc hrejects
      exact ⟨hc, (ih (h.step hc)).mp hrest⟩
    · rintro ⟨hc, hrest⟩
      refine ⟨h.free, ?_, (ih (h.step hc)).mpr hrest⟩
      cases c with
      | transition id src dst => exact fun hid => h.transition_of_unheld hid hc
      | alloc | free => trivial

theorem agrees_init : Agrees ⟨rolloutSlabInit, ∅⟩ := ⟨represents_ones, fun _ _ => rfl⟩

end Tenure

/-- **A free rollout slot is free** in exactly those runs in which no call moves a record that nobody
holds from `free` to `prefillReady`. -/
theorem rolloutSlab_sound_iff (cs : List SlabCall) :
    Tenure.Sound ⟨rolloutSlabInit, ∅⟩ cs ↔ Tenure.NoStaleStart ⟨rolloutSlabInit, ∅⟩ cs :=
  Tenure.agrees_init.sound_iff cs

/-- The rollout of a record that was never allocated can be started. -/
theorem rolloutSlab_unsound_start :
    ¬ Tenure.Sound ⟨rolloutSlabInit, ∅⟩ [.transition 0 .free .prefillReady] := by
  rintro ⟨-, hrejects, -⟩
  have hstart : Tenure.StaleStart ⟨rolloutSlabInit, ∅⟩ (.transition 0 .free .prefillReady) :=
    ⟨0, Finset.notMem_empty 0, rfl⟩
  exact Tenure.agrees_init.not_rejects_of_staleStart hstart hrejects

end RolloutRuntime
