import RolloutRuntime.Rollout.Slab
import RolloutRuntime.Lifecycle.History
import RolloutRuntime.Concurrency.RelyGuarantee

/-!
# Histories of rollouts

Any number of threads allocate, free and move rollouts of one slab, their accesses to the memory
interleaved. Only the compare-exchange of a transition is atomic: allocation and release read and write
the bitmap in separate accesses, and an allocation resets its record by several writes. Whatever the
threads do to the bitmap, the history of every record is lawful, since its state word is only written by
resets and by the compare-exchange of a transition in the table.

The history of a record is kept beside the slab. A write of `free` by an allocation or a release is a
reset; a successful compare-exchange is a move.

## Main definitions

* `SlabMemory`, `SlabOp`: the slab with the histories, and the accesses to it.
* `rolloutAllocSteps`, `rolloutFreeSteps`, `rolloutTransitionSteps`: the functions, access by access.
* `slabSystem`: the threads that call them.

## Main results

* `rolloutAllocSteps_run`, `rolloutFreeSteps_run`, `rolloutTransitionSteps_run`: without interference the
  functions are those of `RolloutRuntime.Rollout.Slab`.
* `rolloutTransitionSteps_trace`: what a transition does among arbitrary steps of other threads.
* `rollout_histories`: the history of every record, in every interleaving.

## References

* `src/rollout.c`, `include/rollout.h` lines 42–53.
-/

namespace RolloutRuntime

open Bitmap Concurrency Concurrency.Prog Lifecycle

/-! ### The memory and the accesses -/

/-- The slab with the histories of its records. -/
structure SlabMemory where
  slab : RolloutSlab
  history : RolloutId → List (Event RolloutState)

/-- The slab as `rollout_slab_init` leaves it. -/
def SlabMemory.init : SlabMemory := ⟨rolloutSlabInit, fun _ => []⟩

/-- Overwrite a record, with what happens to its state. -/
def SlabMemory.setSlot (m : SlabMemory) (i : RolloutId) (r : Rollout)
    (events : List (Event RolloutState)) : SlabMemory where
  slab := { m.slab with slots := Function.update m.slab.slots i r }
  history := Function.update m.history i (events ++ m.history i)

/-- The accesses to the slab. -/
inductive SlabOp
  | loadWord (w : Fin 128)
  | storeWord (w : Fin 128) (v : BitVec 64)
  | zeroSlot (i : RolloutId)
  | storeId (i : RolloutId) (v : BitVec 32)
  | storeFree (i : RolloutId)
  | compareExchange (i : RolloutId) (src dst : RolloutState)

/-- The effect of an access. -/
def SlabOp.effect : SlabOp → SlabMemory → SlabMemory
  | .loadWord _, m => m
  | .storeWord w v, m =>
    { m with slab := { m.slab with freeBitmap := Function.update m.slab.freeBitmap w v } }
  | .zeroSlot i, m => m.setSlot i Rollout.zeroed [.reset]
  | .storeId i v, m => m.setSlot i { m.slab.slots i with rolloutId := v } []
  | .storeFree i, m => m.setSlot i { m.slab.slots i with state := .free } [.reset]
  | .compareExchange i src dst, m =>
    if (m.slab.slots i).state = src then
      m.setSlot i { m.slab.slots i with state := dst } [.moved src dst]
    else m

/-! ### The functions, access by access -/

/-- The loop of `rollout_alloc` over the words of the bitmap. -/
def rolloutAllocFrom : List (Fin 128) → Prog SlabOp SlabMemory (Option RolloutId)
  | [] => return none
  | w :: ws => do
    let bits ← load (.loadWord w) fun m => m.slab.freeBitmap w
    if h : bits = 0 then rolloutAllocFrom ws
    else
      let id : RolloutId := ⟨w * 64 + bits.ctz.toNat, by have := toNat_ctz_lt h; omega⟩
      let v ← load (.loadWord w) fun m => m.slab.freeBitmap w
      exec (.storeWord w (v &&& ~~~(1#64 <<< bits.ctz.toNat)))
      exec (.zeroSlot id)
      exec (.storeId id (BitVec.ofNat 32 id))
      exec (.storeFree id)
      return some id

/-- `rollout_alloc`. -/
def rolloutAllocSteps : Prog SlabOp SlabMemory (Option RolloutId) :=
  rolloutAllocFrom (List.finRange 128)

/-- `rollout_free`. -/
def rolloutFreeSteps (id : BitVec 32) : Prog SlabOp SlabMemory Unit :=
  match rolloutGet id with
  | none => return ()
  | some i => do
    exec (.storeFree i)
    let v ← load (.loadWord (wordOf i)) fun m => m.slab.freeBitmap (wordOf i)
    exec (.storeWord (wordOf i) (v ||| 1#64 <<< ((i : ℕ) % 64)))

/-- `rollout_transition`, on the record that `rollout_get` returns for an id. -/
def rolloutTransitionSteps (id : BitVec 32) (src dst : RolloutState) : Prog SlabOp SlabMemory Bool :=
  match rolloutGet id with
  | none => return false
  | some i =>
    if rolloutIsValidTransition src dst then
      load (.compareExchange i src dst) fun m => decide ((m.slab.slots i).state = src)
    else return false

/-! ### Without interference -/

theorem rolloutTransitionSteps_run (m : SlabMemory) (id : BitVec 32) (src dst : RolloutState) :
    ((rolloutTransitionSteps id src dst).run SlabOp.effect m).1 =
        (pipelineTransition m.slab id src dst).1 ∧
      ((rolloutTransitionSteps id src dst).run SlabOp.effect m).2.slab =
        (pipelineTransition m.slab id src dst).2 := by
  rw [rolloutTransitionSteps, pipelineTransition]
  rcases rolloutGet id with _ | i
  · exact ⟨rfl, rfl⟩
  · simp only [rolloutTransition]
    by_cases hvalid : rolloutIsValidTransition src dst = true
    · by_cases hstate : (m.slab.slots i).state = src
      · simp [hvalid, hstate, load, SlabOp.effect, SlabMemory.setSlot]
      · simp [hvalid, hstate, load, SlabOp.effect]
    · simp [hvalid]

theorem rolloutFreeSteps_run (m : SlabMemory) (id : BitVec 32) :
    ((rolloutFreeSteps id).run SlabOp.effect m).2.slab = rolloutFree m.slab id := by
  rw [rolloutFreeSteps, rolloutFree]
  rcases rolloutGet id with _ | i
  · rfl
  · rfl

/-- The id of the lowest bit of a word, if the word is not zero. -/
def lowestIn (b : Words 128) (w : Fin 128) : Option RolloutId :=
  if h : b w = 0 then none else some ⟨w * 64 + (b w).ctz.toNat, by have := toNat_ctz_lt h; omega⟩

/-- The slab after an allocation of the given id, or after none. -/
def RolloutSlab.allocated (slab : RolloutSlab) : Option RolloutId → RolloutSlab
  | none => slab
  | some id => {
      slots := Function.update slab.slots id
        { Rollout.zeroed with rolloutId := BitVec.ofNat 32 id, state := .free }
      freeBitmap := clearBit slab.freeBitmap id }

theorem rolloutAllocFrom_run (ws : List (Fin 128)) (m : SlabMemory) :
    ((rolloutAllocFrom ws).run SlabOp.effect m).1 = ws.findSome? (lowestIn m.slab.freeBitmap) ∧
      ((rolloutAllocFrom ws).run SlabOp.effect m).2.slab =
        m.slab.allocated (ws.findSome? (lowestIn m.slab.freeBitmap)) := by
  induction ws with
  | nil => exact ⟨rfl, rfl⟩
  | cons w ws ih =>
    rw [rolloutAllocFrom, load_bind, run_act, List.findSome?_cons]
    by_cases hzero : m.slab.freeBitmap w = 0
    · rw [dif_pos hzero, lowestIn, dif_pos hzero]
      exact ih
    · rw [dif_neg hzero, lowestIn, dif_neg hzero]
      have hlt := toNat_ctz_lt hzero
      refine ⟨rfl, ?_⟩
      generalize hid : (⟨w * 64 + (m.slab.freeBitmap w).ctz.toNat, _⟩ : RolloutId) = id
      have hval : (id : ℕ) = w * 64 + (m.slab.freeBitmap w).ctz.toNat := congrArg Fin.val hid.symm
      have hword : wordOf id = w := Fin.ext (by simp only [wordOf]; omega)
      have hmod : (id : ℕ) % 64 = (m.slab.freeBitmap w).ctz.toNat := by omega
      simp only [RolloutSlab.allocated, clearBit, hword, hmod, load_bind, exec_bind, pure_eq, run_act,
        run_ret, SlabOp.effect, SlabMemory.setSlot, Function.update_self, Function.update_idem]

theorem rolloutAllocSteps_run (m : SlabMemory) :
    (rolloutAllocSteps.run SlabOp.effect m).1 = (rolloutAlloc m.slab).map Prod.fst ∧
      (rolloutAllocSteps.run SlabOp.effect m).2.slab =
        ((rolloutAlloc m.slab).map Prod.snd).getD m.slab := by
  have hscan : (List.finRange 128).findSome? (lowestIn m.slab.freeBitmap) =
      lowestBit m.slab.freeBitmap :=
    (Fin.findSome?_eq_findSome?_finRange _).symm
  obtain ⟨hid, hslab⟩ := rolloutAllocFrom_run (List.finRange 128) m
  rw [rolloutAllocSteps, hid, hslab, hscan, rolloutAlloc]
  rcases lowestBit m.slab.freeBitmap with _ | id
  · exact ⟨rfl, rfl⟩
  · exact ⟨rfl, rfl⟩

/-! ### Among other threads -/

/-- A transition that succeeds is one compare-exchange, on a record in its source state, and is recorded;
one that fails changes nothing. -/
theorem rolloutTransitionSteps_trace {id : BitVec 32} {src dst : RolloutState}
    {tr : List (SlabOp × SlabMemory)} {ok : Bool}
    (h : Trace (rolloutTransitionSteps id src dst) tr ok) :
    (ok = false → ∀ x ∈ tr, x.1.effect x.2 = x.2) ∧
      (ok = true → ∃ i m, rolloutGet id = some i ∧ tr = [(.compareExchange i src dst, m)] ∧
        (m.slab.slots i).state = src ∧
        ((SlabOp.compareExchange i src dst).effect m).history i = .moved src dst :: m.history i) := by
  have hnothing : ∀ {tr ok}, Trace (pure false : Prog SlabOp SlabMemory Bool) tr ok → ok = false ∧ tr = [] := by
    intro tr ok h
    obtain ⟨rfl, rfl⟩ := trace_ret.mp h
    exact ⟨rfl, rfl⟩
  rw [rolloutTransitionSteps] at h
  rcases hget : rolloutGet id with _ | i
  · simp only [hget] at h
    obtain ⟨rfl, rfl⟩ := hnothing h
    exact ⟨fun _ x hx => absurd hx List.not_mem_nil, fun hok => absurd hok (by decide)⟩
  · simp only [hget] at h
    split_ifs at h
    · obtain ⟨m, l, rfl, hl⟩ := trace_act.mp h
      obtain ⟨rfl, rfl⟩ := trace_ret.mp hl
      refine ⟨fun hok x hx => ?_, fun hok => ?_⟩
      · obtain rfl := List.mem_singleton.mp hx
        exact if_neg (of_decide_eq_false hok)
      · have hsrc := of_decide_eq_true hok
        refine ⟨i, m, rfl, rfl, hsrc, ?_⟩
        simp only [SlabOp.effect, if_pos hsrc, SlabMemory.setSlot, Function.update_self]
        rfl
    · obtain ⟨rfl, rfl⟩ := hnothing h
      exact ⟨fun _ x hx => absurd hx List.not_mem_nil, fun hok => absurd hok (by decide)⟩

theorem rolloutAllocFrom_trace_none (ws : List (Fin 128)) {tr : List (SlabOp × SlabMemory)}
    (h : Trace (rolloutAllocFrom ws) tr none) : ∀ x ∈ tr, x.1.effect x.2 = x.2 := by
  induction ws generalizing tr with
  | nil =>
    obtain ⟨rfl, -⟩ := trace_ret.mp h
    exact fun x hx => absurd hx List.not_mem_nil
  | cons w ws ih =>
    rw [rolloutAllocFrom, load_bind, trace_act] at h
    obtain ⟨m, l, rfl, hl⟩ := h
    by_cases hzero : m.slab.freeBitmap w = 0
    · rw [dif_pos hzero] at hl
      intro x hx
      rcases List.mem_cons.mp hx with rfl | hx
      · rfl
      · exact ih hl x hx
    · -- with a bit found, the allocation returns its id
      rw [dif_neg hzero] at hl
      simp only [load_bind, exec_bind, pure_eq, trace_act, trace_ret] at hl
      obtain ⟨_, _, _, _, _, _, _, _, _, _, _, _, _, _, _, _, hnone⟩ := hl
      cases hnone

/-- The compare-exchanges of the functions are those in the table of transitions. -/
def SlabOp.InTable : SlabOp → Prop
  | .compareExchange _ src dst => rolloutIsValidTransition src dst = true
  | _ => True

theorem rolloutAllocFrom_uses (ws : List (Fin 128)) : (rolloutAllocFrom ws).Uses SlabOp.InTable := by
  induction ws with
  | nil => trivial
  | cons w ws ih =>
    rw [rolloutAllocFrom, load_bind]
    refine ⟨trivial, fun m => ?_⟩
    beta_reduce
    by_cases hzero : m.slab.freeBitmap w = 0
    · rw [dif_pos hzero]
      exact ih
    · rw [dif_neg hzero]
      exact ⟨trivial, fun _ => ⟨trivial, fun _ => ⟨trivial, fun _ => ⟨trivial, fun _ =>
        ⟨trivial, fun _ => trivial⟩⟩⟩⟩⟩

theorem rolloutFreeSteps_uses (id : BitVec 32) : (rolloutFreeSteps id).Uses SlabOp.InTable := by
  rw [rolloutFreeSteps]
  rcases rolloutGet id with _ | i
  · trivial
  · exact ⟨trivial, fun _ => ⟨trivial, fun _ => ⟨trivial, fun _ => trivial⟩⟩⟩

theorem rolloutTransitionSteps_uses (id : BitVec 32) (src dst : RolloutState) :
    (rolloutTransitionSteps id src dst).Uses SlabOp.InTable := by
  rw [rolloutTransitionSteps]
  rcases rolloutGet id with _ | i
  · trivial
  · simp only
    split_ifs with hvalid
    · exact ⟨hvalid, fun _ => trivial⟩
    · trivial

/-- What a call returned. -/
inductive SlabReply
  | alloc (id : Option RolloutId)
  | free (id : BitVec 32)
  | transition (id : BitVec 32) (src dst : RolloutState) (ok : Bool)

/-- The program of a call, in a thread with the given replies so far. -/
def slabCall (l : List SlabReply) : SlabCall → Prog SlabOp SlabMemory (List SlabReply)
  | .alloc => do return l ++ [.alloc (← rolloutAllocSteps)]
  | .free id => do
    rolloutFreeSteps id
    return l ++ [.free id]
  | .transition id src dst => do return l ++ [.transition id src dst (← rolloutTransitionSteps id src dst)]

/-- Threads that call the functions of the slab. -/
def slabSystem (ι : Type) : System ι SlabOp SlabMemory (fun _ => List SlabReply) (fun _ => SlabCall) where
  effect := SlabOp.effect
  start _ := slabCall

/-- All threads at rest, on an initialised slab. -/
def slabStart (ι : Type) : Config ι SlabOp SlabMemory fun _ => List SlabReply :=
  Config.rest SlabMemory.init fun _ => []

/-! ### The invariant -/

/-- The table of transitions as a relation. -/
def InTable (src dst : RolloutState) : Prop := rolloutIsValidTransition src dst = true

instance (src dst : RolloutState) : Decidable (InTable src dst) :=
  inferInstanceAs (Decidable (_ = true))

/-- Every record has a lawful history that ends in its state. -/
def SlabMemory.Inv (m : SlabMemory) : Prop :=
  ∀ i, Lawful InTable .free (m.history i) ∧ current .free (m.history i) = (m.slab.slots i).state

theorem SlabMemory.Inv.setSlot {m : SlabMemory} (h : m.Inv) (i : RolloutId) {r : Rollout}
    {events : List (Event RolloutState)} (hlawful : Lawful InTable .free (events ++ m.history i))
    (hcurrent : current .free (events ++ m.history i) = r.state) : (m.setSlot i r events).Inv := by
  intro j
  by_cases hj : j = i
  · subst hj
    simp only [SlabMemory.setSlot, Function.update_self]
    exact ⟨hlawful, hcurrent⟩
  · simp only [SlabMemory.setSlot, Function.update_of_ne hj]
    exact h j

/-- Every access of the functions keeps the histories lawful. -/
theorem SlabMemory.Inv.effect {m : SlabMemory} (h : m.Inv) {o : SlabOp} (ho : o.InTable) :
    (o.effect m).Inv := by
  cases o with
  | loadWord | storeWord => exact h
  | zeroSlot i | storeFree i => exact h.setSlot i (h i).1 rfl
  | storeId i v => exact h.setSlot i (h i).1 (h i).2
  | compareExchange i src dst =>
    rw [SlabOp.effect]
    split_ifs with hstate
    · exact h.setSlot i ⟨((h i).2.trans hstate).symm, ho, (h i).1⟩ rfl
    · exact h

/-- The discipline of the threads: any access within the table, and nothing to rely on. -/
def slabDiscipline (ι : Type) : Discipline ι SlabOp SlabMemory where
  effect := SlabOp.effect
  inv := SlabMemory.Inv
  rely _ _ _ := True
  cond _ _ _ := True
  may _ o _ := o.InTable
  rely_refl _ _ := trivial
  rely_trans _ _ _ _ _ _ := trivial
  inv_effect hs _ ho := hs.effect ho
  rely_effect _ _ _ _ := trivial

theorem slabCall_uses (l : List SlabReply) (c : SlabCall) : (slabCall l c).Uses SlabOp.InTable := by
  cases c with
  | alloc => exact uses_bind (rolloutAllocFrom_uses _) fun _ => trivial
  | free id => exact uses_bind (rolloutFreeSteps_uses id) fun _ => trivial
  | transition id src dst => exact uses_bind (rolloutTransitionSteps_uses id src dst) fun _ => trivial

/-- In every interleaving all histories are lawful. -/
theorem slabSystem_inv {ι : Type} [DecidableEq ι] (es : List ((_ : ι) × SlabCall)) :
    ((slabSystem ι).run (slabStart ι) es).mem.Inv := by
  have hstart : (slabDiscipline ι).Good (fun _ _ _ => True) (slabStart ι) :=
    (slabDiscipline ι).good_rest (fun _ => ⟨trivial, rfl⟩) fun _ _ _ _ => trivial
  refine ((slabDiscipline ι).sound rfl (fun i l c m _ _ => ?_) hstart
    ((slabSystem ι).meets_true _ _)).1
  exact (slabDiscipline ι).ok_of_uses (fun _ _ ho _ => ho) (fun _ _ _ _ => trivial)
    (fun _ _ _ _ => trivial) (slabCall_uses l c) trivial

/-! ### Histories -/

/-- What a rollout must have behind it in each state. -/
def behind : RolloutState → List RolloutState
  | .free => []
  | .prefillReady => [.prefillReady]
  | .decoding => [.prefillReady, .decoding]
  | .rewardPending => [.prefillReady, .decoding, .rewardPending]
  | .trajectoryReady => [.prefillReady, .decoding, .rewardPending, .trajectoryReady]
  | .done => [.prefillReady, .decoding, .done]

theorem behind_step (a b : RolloutState) (h : InTable a b) (hb : b ≠ .free) :
    (behind b).Sublist (behind a ++ [b]) := by
  cases a <;> cases b <;> first | exact absurd h (by decide) | exact absurd rfl hb | decide

/-- **Histories of rollouts.** In every interleaving of any number of threads that allocate, free and
move rollouts: the successful transitions of a record since its last reset are a path in the table from
`free` to its state; between two transitions out of a state it is entered; a rollout that is ready with
its trajectory was prefilled, then decoding, then waiting for its reward, and one that is done was
decoding, since it was last free; and failed calls change nothing. -/
theorem rollout_histories {ι : Type} [DecidableEq ι] (es : List ((_ : ι) × SlabCall)) (i : RolloutId) :
    let m := ((slabSystem ι).run (slabStart ι) es).mem
    IsPath InTable .free (sinceReset (m.history i)) (m.slab.slots i).state ∧
      (∀ a b c l₁ l₂ l₃, m.history i = l₃ ++ .moved a c :: (l₂ ++ .moved a b :: l₁) →
        ∃ e ∈ l₂, e.Enters .free a) ∧
      ((m.slab.slots i).state = .trajectoryReady →
        [RolloutState.prefillReady, .decoding, .rewardPending].Sublist (visited .free (m.history i))) ∧
      ((m.slab.slots i).state = .done → .decoding ∈ visited .free (m.history i)) ∧
      (∀ tr, Trace rolloutAllocSteps tr none → ∀ x ∈ tr, x.1.effect x.2 = x.2) ∧
      ∀ id src dst tr ok, Trace (rolloutTransitionSteps id src dst) tr ok →
        (ok = false → ∀ x ∈ tr, x.1.effect x.2 = x.2) ∧
        (ok = true → ∃ j m', rolloutGet id = some j ∧ tr = [(.compareExchange j src dst, m')] ∧
          (m'.slab.slots j).state = src ∧
          ((SlabOp.compareExchange j src dst).effect m').history j = .moved src dst :: m'.history j) := by
  intro m
  obtain ⟨hlawful, hcurrent⟩ : Lawful InTable .free (m.history i) ∧
      current .free (m.history i) = (m.slab.slots i).state := slabSystem_inv es i
  have hbehind := hlawful.sublist_visited behind rfl behind_step
  rw [hcurrent] at hbehind
  refine ⟨hcurrent ▸ hlawful.isPath, fun a b c l₁ l₂ l₃ hl => ?_, fun hstate => ?_, fun hstate => ?_,
    fun tr htr => rolloutAllocFrom_trace_none _ htr,
    fun id src dst tr ok htr => rolloutTransitionSteps_trace htr⟩
  · rw [hl] at hlawful
    exact hlawful.enters_between (fun a ha => by cases a <;> exact absurd ha (by decide))
  · rw [hstate] at hbehind
    exact List.Sublist.trans (by decide) hbehind
  · rw [hstate] at hbehind
    exact hbehind.subset (by decide)

end RolloutRuntime
