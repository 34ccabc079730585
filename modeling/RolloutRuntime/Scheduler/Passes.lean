import RolloutRuntime.Scheduler.Worker
import Mathlib.Data.List.FinRange

/-!
# Passes of the device scheduler

One iteration of the loop of the worker is a function of the state of the device and of the answer of
the request ring: a request is admitted if one came and a slot is free, and then every slot is stepped,
reported and released in turn. What an iteration does to a slot depends on this slot alone. A rollout
admitted in some iteration is therefore `n` tokens old after `n` further steps, whatever the other slots
do, and is reported when it has reached its limit.

## Main definitions

* `Scheduler.passSlot`, `Scheduler.scan`, `Scheduler.pass`: the step of one slot, of a list of slots, and
  one iteration.
* `Scheduler.SlotsSound`: the bitmap, the flags and the token counts agree.
* `Scheduler.Iteration`, `Scheduler.Passes`: the record of an iteration, and that a list of records
  describes successive iterations.
* `Scheduler.Held`: the active slots are those of the requests admitted and not yet reported.

## Main results

* `Scheduler.scan_slots`, `Scheduler.scan_bit`, `Scheduler.scan_reports`: slots are stepped
  independently.
* `Scheduler.Passes.held`: the state after successive iterations.
* `Scheduler.Passes.reports_since`, `Scheduler.Passes.exists_since`: a request is reported in the
  iteration that is as many iterations after its admission as it has tokens, and nothing else is.

## References

* `cu/gpu_scheduler.cu`.
-/

namespace RolloutRuntime

open RingBuffer

namespace Scheduler

/-! ### One iteration -/

/-- The step of slot `i`, with its report and its release if the rollout is finished. -/
def passSlot (st : GpuRolloutState) (i : Slot) : GpuRolloutState × List RolloutDone :=
  match stepSlot st i with
  | (st', none) => (st', [])
  | (st', some d) => (releaseSlot st' i, [d])

/-- The steps of the given slots in turn. -/
def scan (st : GpuRolloutState) : List Slot → GpuRolloutState × List RolloutDone
  | [] => (st, [])
  | i :: is => ((scan (passSlot st i).1 is).1, (passSlot st i).2 ++ (scan (passSlot st i).1 is).2)

/-- The slots from number `i` on. -/
def slotsFrom (i : ℕ) : List Slot := (List.finRange (4 * 64)).drop i

/-- The admission of what the request ring gave. -/
def admission (st : GpuRolloutState) : Option RolloutRequest → GpuRolloutState
  | none => st
  | some req => admitRequest st req

/-- One iteration of the loop of the worker, given what the request ring gave. -/
def pass (st : GpuRolloutState) (x : Option RolloutRequest) : GpuRolloutState × List RolloutDone :=
  scan (admission st x) (slotsFrom 0)

theorem slotsFrom_lt {i : ℕ} (h : i < 4 * 64) : slotsFrom i = ⟨i, h⟩ :: slotsFrom (i + 1) := by
  rw [slotsFrom, List.drop_eq_getElem_cons (by simpa using h), List.getElem_finRange]
  rfl

theorem slotsFrom_eq_nil {i : ℕ} (h : ¬ i < 4 * 64) : slotsFrom i = [] :=
  List.drop_eq_nil_of_le (by simpa using h)

/-! ### What an iteration does to a slot -/

namespace GpuRolloutSlot

/-- The rollout has reached its limit. -/
def Finished (rs : GpuRolloutSlot) : Prop := rs.active ≠ 0 ∧ rs.maxTokens ≤ rs.tokensGenerated

instance (rs : GpuRolloutSlot) : Decidable rs.Finished := inferInstanceAs (Decidable (_ ∧ _))

/-- The slot after its step. -/
def stepped (rs : GpuRolloutSlot) : GpuRolloutSlot :=
  if rs.active = 0 then rs else if rs.Finished then rs.retire else rs.advance

theorem stepped_active (rs : GpuRolloutSlot) :
    rs.stepped.active = if rs.Finished then 0 else rs.active := by
  by_cases hactive : rs.active = 0
  · have hnot : ¬ rs.Finished := fun h => h.1 hactive
    rw [stepped, if_pos hactive, if_neg hnot]
  · rw [stepped, if_neg hactive]
    split_ifs <;> rfl

theorem stepped_tokens_le {rs : GpuRolloutSlot} (h : rs.tokensGenerated ≤ rs.maxTokens) :
    rs.stepped.tokensGenerated ≤ rs.stepped.maxTokens := by
  rw [stepped]
  split_ifs with hactive hfin
  · exact h
  · exact h
  · have hlt : rs.tokensGenerated < rs.maxTokens :=
      BitVec.not_le.mp fun hle => hfin ⟨hactive, hle⟩
    have hadd : (rs.tokensGenerated + 1).toNat = rs.tokensGenerated.toNat + 1 :=
      toNat_add_one_of_lt hlt
    rw [BitVec.lt_def] at hlt
    rw [BitVec.le_def, advance, hadd]
    exact hlt

end GpuRolloutSlot

/-- The report of slot `i` at its step. -/
def report (i : Slot) (rs : GpuRolloutSlot) : Option RolloutDone :=
  if rs.Finished then some (doneOf i rs) else none

theorem passSlot_spec (st : GpuRolloutState) (i : Slot) :
    (passSlot st i).1.slots = Function.update st.slots i (st.slots i).stepped ∧
      (∀ j, Bitmap.bit (passSlot st i).1.bitmap j =
        (Bitmap.bit st.bitmap j && !decide (j = i ∧ (st.slots i).Finished))) ∧
      (passSlot st i).2 = (report i (st.slots i)).toList := by
  rcases stepSlot_cases st i with ⟨hmem, heq⟩ | ⟨hmem, hdone, heq⟩ | ⟨hmem, hlt, heq⟩
  · have hactive : (st.slots i).active = 0 := by simpa [mem_activeSlots] using hmem
    have hnot : ¬ (st.slots i).Finished := fun h => h.1 hactive
    simp only [passSlot, heq, GpuRolloutSlot.stepped, report, hactive, hnot, if_true, if_false]
    simp
  · have hfin : (st.slots i).Finished := ⟨mem_activeSlots.mp hmem, hdone⟩
    simp only [passSlot, heq, GpuRolloutSlot.stepped, report, mem_activeSlots.mp hmem, hfin, if_true,
      if_false]
    refine ⟨rfl, fun j => ?_, rfl⟩
    simp [releaseSlot, GpuRolloutState.setSlot, Bool.and_comm]
  · have hnot : ¬ (st.slots i).Finished := fun h => absurd hlt (BitVec.not_lt.mpr h.2)
    simp only [passSlot, heq, GpuRolloutSlot.stepped, report, mem_activeSlots.mp hmem, hnot, if_false]
    refine ⟨rfl, fun j => ?_, rfl⟩
    simp [GpuRolloutState.setSlot]

section Scan

variable {st : GpuRolloutState} {is : List Slot}

/-- Slots are stepped independently. -/
theorem scan_slots (his : is.Nodup) (j : Slot) :
    (scan st is).1.slots j = if j ∈ is then (st.slots j).stepped else st.slots j := by
  induction is generalizing st with
  | nil => simp [scan]
  | cons i is ih =>
    obtain ⟨hi, his⟩ := List.nodup_cons.mp his
    rw [scan, ih his, (passSlot_spec st i).1]
    by_cases hj : j = i
    · subst hj
      simp [hi]
    · simp [hj]

theorem scan_bit (his : is.Nodup) (j : Slot) :
    Bitmap.bit (scan st is).1.bitmap j =
      (Bitmap.bit st.bitmap j && !decide (j ∈ is ∧ (st.slots j).Finished)) := by
  induction is generalizing st with
  | nil => simp [scan]
  | cons i is ih =>
    obtain ⟨hi, his⟩ := List.nodup_cons.mp his
    rw [scan, ih his, (passSlot_spec st i).1, (passSlot_spec st i).2.1]
    by_cases hj : j = i
    · subst hj
      simp [hi]
    · simp [hj]

theorem scan_reports (his : is.Nodup) :
    (scan st is).2 = is.filterMap fun i => report i (st.slots i) := by
  induction is generalizing st with
  | nil => rfl
  | cons i is ih =>
    obtain ⟨hi, his⟩ := List.nodup_cons.mp his
    have hcongr : (is.filterMap fun j => report j ((passSlot st i).1.slots j)) =
        is.filterMap fun j => report j (st.slots j) := by
      refine List.filterMap_congr fun j hj => ?_
      have hne : j ≠ i := by
        rintro rfl
        exact hi hj
      rw [(passSlot_spec st i).1, Function.update_of_ne hne]
    rw [scan, ih his, hcongr, (passSlot_spec st i).2.2, List.filterMap_cons]
    cases report i (st.slots i) <;> rfl

end Scan

/-! ### Sound slots -/

/-- The bit of a slot is set exactly if the slot is active, and no rollout is past its limit. -/
structure SlotsSound (st : GpuRolloutState) : Prop where
  bit_iff : ∀ i, Bitmap.bit st.bitmap i = true ↔ (st.slots i).active = 1
  flag : ∀ i, (st.slots i).active = 0 ∨ (st.slots i).active = 1
  tokens_le : ∀ i, (st.slots i).tokensGenerated ≤ (st.slots i).maxTokens

theorem slotsSound_zeroed : SlotsSound .zeroed where
  bit_iff i := by
    rw [GpuRolloutState.zeroed, Bitmap.bit_zero]
    simp [GpuRolloutSlot.zeroed]
  flag _ := Or.inl rfl
  tokens_le _ := BitVec.le_refl _

section Sound

variable {st : GpuRolloutState}

theorem SlotsSound.agrees (h : SlotsSound st) : Agrees st (activeSlots st) := by
  intro i
  rw [h.bit_iff, mem_activeSlots]
  rcases h.flag i with h0 | h1
  · simp [h0]
  · simp [h1]

/-- **Admission.** The slot of the request was not active, and the other slots stay as they are. -/
theorem SlotsSound.admission_cases (h : SlotsSound st) (x : Option RolloutRequest) :
    (admission st x = st ∧ ∀ req, x = some req → findFreeSlot st = none) ∨
      ∃ req i st', x = some req ∧ findFreeSlot st = some (i, st') ∧ (st.slots i).active = 0 ∧
        (admission st x).slots = Function.update st.slots i (admittedSlot req) ∧
        ∀ j, Bitmap.bit (admission st x).bitmap j = true ↔ j = i ∨ Bitmap.bit st.bitmap j = true := by
  cases x with
  | none => exact Or.inl ⟨rfl, by simp⟩
  | some req =>
    cases hfind : findFreeSlot st with
    | none =>
      left
      refine ⟨?_, fun _ _ => rfl⟩
      simp only [admission, admitRequest, hfind]
    | some r =>
      obtain ⟨i, st'⟩ := r
      obtain ⟨hi, -, hslots, hagrees⟩ := findFreeSlot_eq_some h.agrees hfind
      have hadm : admission st (some req) = st'.setSlot i (admittedSlot req) := by
        simp only [admission, admitRequest, hfind]
      right
      refine ⟨req, i, st', rfl, rfl, by simpa [mem_activeSlots] using hi, ?_, fun j => ?_⟩
      · rw [hadm, GpuRolloutState.setSlot, hslots]
      · rw [hadm, GpuRolloutState.setSlot, hagrees j, Finset.mem_insert, h.agrees j]

theorem SlotsSound.admission (h : SlotsSound st) (x : Option RolloutRequest) :
    SlotsSound (Scheduler.admission st x) := by
  rcases h.admission_cases x with ⟨heq, -⟩ | ⟨req, i, st', -, -, -, hslots, hbit⟩
  · rwa [heq]
  · refine ⟨fun j => ?_, fun j => ?_, fun j => ?_⟩
    · rw [hbit, hslots]
      by_cases hj : j = i
      · subst hj
        simp [admittedSlot]
      · simp [hj, h.bit_iff]
    · rw [hslots]
      by_cases hj : j = i
      · subst hj
        simp [admittedSlot]
      · simpa [hj] using h.flag j
    · rw [hslots]
      by_cases hj : j = i
      · subst hj
        simp [admittedSlot, BitVec.le_def]
      · simpa [hj] using h.tokens_le j

theorem nodup_slotsFrom (i : ℕ) : (slotsFrom i).Nodup :=
  (List.nodup_finRange _).sublist (List.drop_sublist _ _)

theorem mem_slotsFrom_zero (i : Slot) : i ∈ slotsFrom 0 := by
  rw [slotsFrom, List.drop_zero]
  exact List.mem_finRange i

/-- Every slot is stepped once in an iteration. -/
theorem pass_slots (st : GpuRolloutState) (x : Option RolloutRequest) (j : Slot) :
    (pass st x).1.slots j = ((Scheduler.admission st x).slots j).stepped := by
  rw [pass, scan_slots (nodup_slotsFrom 0), if_pos (mem_slotsFrom_zero j)]

theorem SlotsSound.pass (h : SlotsSound st) (x : Option RolloutRequest) :
    SlotsSound (Scheduler.pass st x).1 := by
  have hadm := h.admission x
  refine ⟨fun j => ?_, fun j => ?_, fun j => ?_⟩
  · rw [pass_slots, GpuRolloutSlot.stepped_active, Scheduler.pass, scan_bit (nodup_slotsFrom 0),
      Bool.and_eq_true, hadm.bit_iff]
    by_cases hfin : ((Scheduler.admission st x).slots j).Finished
    · simp [hfin, mem_slotsFrom_zero]
    · simp [hfin]
  · rw [pass_slots, GpuRolloutSlot.stepped_active]
    split_ifs
    · exact Or.inl rfl
    · exact hadm.flag j
  · rw [pass_slots]
    exact GpuRolloutSlot.stepped_tokens_le (hadm.tokens_le j)

end Sound

/-! ### Reports -/

/-- The notifications among `ds` that name slot `i`. -/
def reportsOf (i : Slot) (ds : List RolloutDone) : List RolloutDone :=
  ds.filter (·.rolloutId = BitVec.ofNat 32 i)

theorem report_rolloutId {i : Slot} {rs : GpuRolloutSlot} {d : RolloutDone} (h : report i rs = some d) :
    d.rolloutId = BitVec.ofNat 32 i := by
  unfold report at h
  split_ifs at h
  obtain rfl := Option.some.inj h
  rfl

theorem rolloutId_injective {i j : Slot} (h : BitVec.ofNat 32 (i : ℕ) = BitVec.ofNat 32 (j : ℕ)) :
    i = j := by
  have hnat := congrArg BitVec.toNat h
  rw [BitVec.toNat_ofNat, BitVec.toNat_ofNat, Nat.mod_eq_of_lt (by omega), Nat.mod_eq_of_lt (by omega)]
    at hnat
  exact Fin.ext hnat

theorem reportsOf_filterMap {is : List Slot} (his : is.Nodup) (f : Slot → GpuRolloutSlot) (i : Slot) :
    reportsOf i (is.filterMap fun j => report j (f j)) =
      if i ∈ is then (report i (f i)).toList else [] := by
  induction is with
  | nil => rfl
  | cons j is ih =>
    obtain ⟨hj, his⟩ := List.nodup_cons.mp his
    have htail := ih his
    rw [List.filterMap_cons]
    by_cases hij : i = j
    · subst hij
      rw [if_neg hj] at htail
      rw [if_pos List.mem_cons_self]
      cases hrep : report i (f i) with
      | none => exact htail
      | some d =>
        rw [reportsOf, List.filter_cons_of_pos (by simpa using report_rolloutId hrep)]
        exact congrArg (d :: ·) htail
    · have hmem : i ∈ j :: is ↔ i ∈ is := by simp [hij]
      simp only [hmem]
      cases hrep : report j (f j) with
      | none => exact htail
      | some d =>
        have hne : ¬ d.rolloutId = BitVec.ofNat 32 i := by
          rw [report_rolloutId hrep]
          exact fun heq => hij (rolloutId_injective heq).symm
        rw [reportsOf, List.filter_cons_of_neg (by simpa using hne)]
        exact htail

/-- A slot is reported at most once in an iteration, and its report depends on this slot alone. -/
theorem pass_reportsOf (st : GpuRolloutState) (x : Option RolloutRequest) (i : Slot) :
    reportsOf i (pass st x).2 = (report i ((admission st x).slots i)).toList := by
  rw [pass, scan_reports (nodup_slotsFrom 0), reportsOf_filterMap (nodup_slotsFrom 0),
    if_pos (mem_slotsFrom_zero i)]

theorem exists_of_mem_pass {st : GpuRolloutState} {x : Option RolloutRequest} {d : RolloutDone}
    (h : d ∈ (pass st x).2) : ∃ i, report i ((admission st x).slots i) = some d := by
  rw [pass, scan_reports (nodup_slotsFrom 0), List.mem_filterMap] at h
  obtain ⟨i, -, hi⟩ := h
  exact ⟨i, hi⟩

/-! ### The rollout of a request -/

/-- The slot of the request `req`, `t` steps after its admission. -/
def running (req : RolloutRequest) (t : ℕ) : GpuRolloutSlot :=
  { admittedSlot req with tokensGenerated := BitVec.ofNat 32 t }

/-- The notification of a finished request. -/
def completed (i : Slot) (req : RolloutRequest) : RolloutDone :=
  doneOf i { admittedSlot req with tokensGenerated := req.maxTokens }

section Running

variable {req : RolloutRequest} {t : ℕ}

theorem running_finished_iff (ht : t ≤ req.maxTokens.toNat) :
    (running req t).Finished ↔ t = req.maxTokens.toNat := by
  have hmax := req.maxTokens.isLt
  have htok : (running req t).tokensGenerated.toNat = t := by
    rw [running, BitVec.toNat_ofNat, Nat.mod_eq_of_lt (by omega)]
  have hactive : (running req t).active ≠ 0 := by simp [running, admittedSlot]
  rw [GpuRolloutSlot.Finished, and_iff_right hactive, BitVec.le_def, htok]
  change req.maxTokens.toNat ≤ t ↔ _
  omega

theorem running_stepped (ht : t < req.maxTokens.toNat) :
    (running req t).stepped = running req (t + 1) := by
  have hfin : ¬ (running req t).Finished := by
    rw [running_finished_iff ht.le]
    omega
  have hactive : (running req t).active ≠ 0 := by simp [running, admittedSlot]
  rw [GpuRolloutSlot.stepped, if_neg hactive, if_neg hfin, GpuRolloutSlot.advance, running, running,
    BitVec.ofNat_add]
  rfl

theorem running_report_of_lt (i : Slot) (ht : t < req.maxTokens.toNat) :
    report i (running req t) = none := by
  have hfin : ¬ (running req t).Finished := by
    rw [running_finished_iff ht.le]
    omega
  rw [report, if_neg hfin]

theorem running_report (i : Slot) : report i (running req req.maxTokens.toNat) = some (completed i req) := by
  have hfin : (running req req.maxTokens.toNat).Finished := (running_finished_iff le_rfl).mpr rfl
  rw [report, if_pos hfin, completed, running, BitVec.ofNat_toNat, BitVec.setWidth_eq]

end Running

/-! ### Successive iterations -/

/-- The record of an iteration: the state of the device at the top of the loop, the request taken and
the notifications pushed. -/
structure Iteration where
  state : GpuRolloutState
  request : Option RolloutRequest
  reports : List RolloutDone

/-- The iteration gives slot `i` to the request `req`. -/
def Iteration.Admits (it : Iteration) (i : Slot) (req : RolloutRequest) : Prop :=
  it.request = some req ∧ (findFreeSlot it.state).map Prod.fst = some i

/-- Iteration `k` gives slot `i` to the request `req`. -/
def Since (log : List Iteration) (k : ℕ) (i : Slot) (req : RolloutRequest) : Prop :=
  ∃ it, log[k]? = some it ∧ it.Admits i req

/-- The records of successive iterations from the zeroed state, and the state after them. -/
inductive Passes : List Iteration → GpuRolloutState → Prop
  | nil : Passes [] .zeroed
  | snoc {log : List Iteration} {st : GpuRolloutState} (h : Passes log st) (x : Option RolloutRequest) :
      Passes (log ++ [⟨st, x, (pass st x).2⟩]) (pass st x).1

/-- The active slots after `n` steps: a request admitted by iteration `k` is `n - k` tokens old as long as
that is within its limit, and every active slot is that of such a request. -/
structure Held (log : List Iteration) (n : ℕ) (st : GpuRolloutState) : Prop where
  runs : ∀ k i req, Since log k i req → n ≤ k + req.maxTokens.toNat → st.slots i = running req (n - k)
  holder : ∀ i, (st.slots i).active ≠ 0 → ∃ k req, Since log k i req ∧ k ≤ n ∧
    n ≤ k + req.maxTokens.toNat ∧ st.slots i = running req (n - k)

section Log

variable {log : List Iteration} {it : Iteration} {st : GpuRolloutState} {k n : ℕ} {i : Slot}
  {req : RolloutRequest}

theorem Since.lt (h : Since log k i req) : k < log.length := by
  obtain ⟨it, hk, -⟩ := h
  exact (List.getElem?_eq_some_iff.mp hk).1

theorem since_snoc : Since (log ++ [it]) k i req ↔
    Since log k i req ∨ (k = log.length ∧ it.Admits i req) := by
  constructor
  · rintro ⟨it', hk, hadmits⟩
    have hlt := (List.getElem?_eq_some_iff.mp hk).1
    rw [List.length_append, List.length_singleton] at hlt
    by_cases hlast : k = log.length
    · subst hlast
      obtain rfl : it = it' := by simpa using hk
      exact Or.inr ⟨rfl, hadmits⟩
    · rw [List.getElem?_append_left (by omega)] at hk
      exact Or.inl ⟨it', hk, hadmits⟩
  · rintro (h | ⟨rfl, hadmits⟩)
    · obtain ⟨it', hk, hadmits⟩ := h
      refine ⟨it', ?_, hadmits⟩
      rw [List.getElem?_append_left (List.getElem?_eq_some_iff.mp hk).1, hk]
    · exact ⟨it, by simp, hadmits⟩

theorem Held.admission (hsound : SlotsSound st) (h : Held log log.length st) (x : Option RolloutRequest)
    (ds : List RolloutDone) : Held (log ++ [⟨st, x, ds⟩]) log.length (Scheduler.admission st x) := by
  rcases hsound.admission_cases x with ⟨heq, hnone⟩ | ⟨req', i', st', rfl, hfind, hfree, hslots, -⟩
  · -- no request, or no free slot: nothing is admitted
    have hnot (i : Slot) (req : RolloutRequest) : ¬ Iteration.Admits ⟨st, x, ds⟩ i req := by
      rintro ⟨hreq, hslot⟩
      rw [hnone req hreq] at hslot
      exact absurd hslot (by simp)
    rw [heq]
    refine ⟨fun k i req hsince hn => ?_, fun i hi => ?_⟩
    · obtain hold | ⟨-, hadmits⟩ := since_snoc.mp hsince
      · exact h.runs k i req hold hn
      · exact absurd hadmits (hnot i req)
    · obtain ⟨k, req, hold, hrest⟩ := h.holder i hi
      exact ⟨k, req, since_snoc.mpr (Or.inl hold), hrest⟩
  · have hadmits (i : Slot) (req : RolloutRequest) :
        Iteration.Admits ⟨st, some req', ds⟩ i req ↔ req' = req ∧ i' = i := by
      simp [Iteration.Admits, hfind]
    refine ⟨fun k i req hsince hn => ?_, fun i hi => ?_⟩
    · rw [hslots]
      obtain hold | ⟨rfl, hnew⟩ := since_snoc.mp hsince
      · -- a slot in use is not the one given away
        have hrun := h.runs k i req hold hn
        have hne : i ≠ i' := by
          rintro rfl
          rw [hrun] at hfree
          exact absurd hfree (by simp [running, admittedSlot])
        rw [Function.update_of_ne hne, hrun]
      · obtain ⟨rfl, rfl⟩ := (hadmits i req).mp hnew
        rw [Function.update_self, Nat.sub_self]
        rfl
    · by_cases hi' : i = i'
      · subst hi'
        refine ⟨log.length, req', since_snoc.mpr (Or.inr ⟨rfl, (hadmits i req').mpr ⟨rfl, rfl⟩⟩), le_rfl,
          Nat.le_add_right _ _, ?_⟩
        rw [hslots, Function.update_self, Nat.sub_self]
        rfl
      · rw [hslots, Function.update_of_ne hi'] at hi ⊢
        obtain ⟨k, req, hold, hrest⟩ := h.holder i hi
        exact ⟨k, req, since_snoc.mpr (Or.inl hold), hrest⟩

/-- The steps of an iteration: rollouts below their limit get one token older, the others are no longer
active. -/
theorem Held.step (h : Held log n st) (hlog : log.length = n + 1) {st' : GpuRolloutState}
    (hslots : ∀ j, st'.slots j = (st.slots j).stepped) : Held log (n + 1) st' := by
  refine ⟨fun k i req hsince hn => ?_, fun i hi => ?_⟩
  · have hk := hsince.lt
    rw [hslots, h.runs k i req hsince (by omega), running_stepped (by omega)]
    congr 1
    omega
  · rw [hslots] at hi ⊢
    rw [GpuRolloutSlot.stepped_active] at hi
    have hfin : ¬ (st.slots i).Finished := by
      intro hfin
      rw [if_pos hfin] at hi
      exact hi rfl
    rw [if_neg hfin] at hi
    obtain ⟨k, req, hsince, hk, hn, hrun⟩ := h.holder i hi
    rw [hrun, running_finished_iff (by omega)] at hfin
    refine ⟨k, req, hsince, by omega, by omega, ?_⟩
    rw [hrun, running_stepped (by omega)]
    congr 1
    omega

theorem Held.report (h : Held log n st) (hsince : Since log k i req)
    (hn : n ≤ k + req.maxTokens.toNat) (hk : k ≤ n) :
    Scheduler.report i (st.slots i) =
      if n = k + req.maxTokens.toNat then some (completed i req) else none := by
  rw [h.runs k i req hsince hn]
  split_ifs with heq
  · have hsub : n - k = req.maxTokens.toNat := by omega
    rw [hsub, running_report]
  · exact running_report_of_lt i (by omega)

/-- Only requests at their limit are reported. -/
theorem Held.exists_since (h : Held log n st) {d : RolloutDone}
    (hd : Scheduler.report i (st.slots i) = some d) :
    ∃ k req, Since log k i req ∧ n = k + req.maxTokens.toNat ∧ d = completed i req := by
  have hfin : (st.slots i).Finished := by
    by_contra hnot
    rw [Scheduler.report, if_neg hnot] at hd
    exact absurd hd (by simp)
  obtain ⟨k, req, hsince, hk, hn, hrun⟩ := h.holder i hfin.1
  rw [h.report hsince hn hk] at hd
  split_ifs at hd with heq
  exact ⟨k, req, hsince, heq, (Option.some.inj hd).symm⟩

end Log

namespace Passes

variable {log : List Iteration} {it : Iteration} {st : GpuRolloutState} {j k : ℕ} {i : Slot}
  {req : RolloutRequest}

/-- **Successive iterations.** The slots are sound, and the active ones are those of the requests admitted
and not yet reported. -/
theorem held (h : Passes log st) : SlotsSound st ∧ Held log log.length st := by
  induction h with
  | nil =>
    refine ⟨slotsSound_zeroed, ⟨fun k i req hsince => absurd hsince.lt (Nat.not_lt_zero k), ?_⟩⟩
    exact fun i hi => absurd rfl hi
  | @snoc log st h x ih =>
    obtain ⟨hsound, hheld⟩ := ih
    refine ⟨hsound.pass x, ?_⟩
    have hstep := (hheld.admission hsound x (pass st x).2).step (by simp) (pass_slots st x)
    rwa [List.length_append, List.length_singleton]

/-- Every iteration started from what the ones before it left. -/
theorem exists_before (h : Passes log st) (hj : log[j]? = some it) :
    Passes (log.take j) it.state ∧ it.reports = (pass it.state it.request).2 := by
  induction h with
  | nil => simp at hj
  | @snoc log st h x ih =>
    have hlt := (List.getElem?_eq_some_iff.mp hj).1
    rw [List.length_append, List.length_singleton] at hlt
    by_cases hlast : j = log.length
    · subst hlast
      obtain rfl : ⟨st, x, (pass st x).2⟩ = it := by simpa using hj
      rw [List.take_left]
      exact ⟨h, rfl⟩
    · rw [List.getElem?_append_left (by omega)] at hj
      rw [List.take_append_of_le_length (by omega)]
      exact ih hj

/-- What iteration `j` finds after its admission. -/
theorem held_during (h : Passes log st) (hj : log[j]? = some it) :
    Held (log.take (j + 1)) j (admission it.state it.request) := by
  obtain ⟨hbefore, -⟩ := h.exists_before hj
  obtain ⟨hsound, hheld⟩ := hbefore.held
  obtain ⟨hlt, hget⟩ := List.getElem?_eq_some_iff.mp hj
  have hlen : (log.take j).length = j := List.length_take_of_le hlt.le
  have htake : log.take (j + 1) = log.take j ++ [⟨it.state, it.request, it.reports⟩] := by
    rw [List.take_add_one, hj]
    rfl
  have hadm := hheld.admission hsound it.request it.reports
  rwa [← htake, hlen] at hadm

theorem since_take_iff (hk : k ≤ j) : Since (log.take (j + 1)) k i req ↔ Since log k i req := by
  rw [Since, Since, List.getElem?_take_of_lt (by omega)]

/-- **A request is reported once**, in the iteration that is as many iterations after its admission as it
has tokens, and its slot is not reported before. -/
theorem reports_since (h : Passes log st) (hsince : Since log k i req) (hj : log[j]? = some it)
    (hk : k ≤ j) (hle : j ≤ k + req.maxTokens.toNat) :
    reportsOf i it.reports = if j = k + req.maxTokens.toNat then [completed i req] else [] := by
  obtain ⟨-, hreports⟩ := h.exists_before hj
  rw [hreports, pass_reportsOf, (h.held_during hj).report ((since_take_iff hk).mpr hsince) hle hk]
  split_ifs <;> rfl

/-- **Nothing else is reported.** -/
theorem exists_since (h : Passes log st) (hj : log[j]? = some it) {d : RolloutDone}
    (hd : d ∈ it.reports) :
    ∃ k i req, Since log k i req ∧ j = k + req.maxTokens.toNat ∧ d = completed i req := by
  obtain ⟨-, hreports⟩ := h.exists_before hj
  rw [hreports] at hd
  obtain ⟨i, hi⟩ := exists_of_mem_pass hd
  obtain ⟨k, req, hsince, hjk, hcompleted⟩ := (h.held_during hj).exists_since hi
  exact ⟨k, i, req, (since_take_iff (by omega)).mp hsince, hjk, hcompleted⟩

/-- A slot that is given to a request was not active. -/
theorem free_of_admits (h : Passes log st) (hj : log[j]? = some it) (hadmits : it.Admits i req) :
    (it.state.slots i).active = 0 := by
  obtain ⟨hbefore, -⟩ := h.exists_before hj
  obtain ⟨⟨i', st'⟩, hfind, rfl⟩ := Option.map_eq_some_iff.mp hadmits.2
  have hmem := (findFreeSlot_eq_some hbefore.held.1.agrees hfind).1
  simpa [mem_activeSlots] using hmem

end Passes

end Scheduler

end RolloutRuntime
