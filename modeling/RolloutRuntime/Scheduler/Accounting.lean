import RolloutRuntime.Scheduler.Worker
import RolloutRuntime.Rings.Progress

/-!
# Accounting for requests

At the top of its loop the worker should have, for every request it took, a rollout that is still
running or a notification it has pushed. It does as long as there is an inactive slot whenever it takes
a request; a request it takes while all slots are active is dropped without a trace, and the host, which
waits for as many notifications as it submitted requests, waits for ever.

## Main definitions

* `Scheduler.Accounted`: requests taken are notifications pushed and rollouts running.
* `Scheduler.FreeSlot`: the condition on the steps of the worker.

## Main results

* `Scheduler.rolloutWorker_accounts`: runs all steps of which meet the condition account for all
  requests.
* `Scheduler.request_dropped`: a run that does not.

## References

* `cu/gpu_scheduler.cu`, `include/request.h` lines 112–138, `bench/bench_gpu_scheduler.cu`
  lines 59–83.
-/

namespace RolloutRuntime

open Concurrency RingBuffer

namespace Scheduler

/-! ### The property and the condition -/

/-- Every request taken is running or has been reported. -/
def Accounted (s : Mem) : Prop :=
  s.reqRing.taken.length = s.doneRing.published.length + (activeSlots s.state).card

/-- A request that is not the sentinel is taken only when some slot is inactive. -/
def FreeSlot : Thread → Access → Mem → Prop
  | .worker, .req (.storeCons _ req), s =>
      req.requestId = sentinel ∨ ∃ i, (s.state.slots i).active = 0
  | _, _, _ => True

instance (i : Thread) (o : Access) (s : Mem) : Decidable (FreeSlot i o s) := by
  unfold FreeSlot
  split <;> infer_instance

/-! ### The discipline -/

/-- Both rings are in order. -/
structure Mem.Inv (s : Mem) : Prop where
  reqRing : s.reqRing.Inv
  doneRing : s.doneRing.Inv

/-- What a thread relies on. The state of the device is the worker's alone. -/
def RelyOn : Thread → Mem → Mem → Prop
  | .submitter, s, s' => Rely .producer s.reqRing s'.reqRing
  | .poller, s, s' => Rely .consumer s.doneRing s'.doneRing
  | .worker, s, s' => Rely .consumer s.reqRing s'.reqRing ∧ Rely .producer s.doneRing s'.doneRing ∧
      s'.state = s.state

/-- What a thread may do. -/
def Permitted : Thread → Access → Mem → Prop
  | .submitter, .req o, s => May (unguarded _) .producer o s.reqRing
  | .poller, .done o, s => May (unguarded _) .consumer o s.doneRing
  | .worker, .req o, s => May (unguarded _) .consumer o s.reqRing
  | .worker, .done o, s => May (unguarded _) .producer o s.doneRing
  | .worker, _, _ => True
  | _, _, _ => False

section Steps

variable {i : Thread} {o : Access} {s : Mem}

theorem permitted_inv (hs : s.Inv) (h : Permitted i o s) : (o.effect s).Inv := by
  obtain ⟨hreq, hdone⟩ := hs
  cases o with
  | req o =>
    cases i with
    | submitter | worker => exact ⟨May.inv h hreq, hdone⟩
    | poller => exact h.elim
  | done o =>
    cases i with
    | poller | worker => exact ⟨hreq, May.inv h hdone⟩
    | submitter => exact h.elim
  | loadState | storeState | countStep => exact ⟨hreq, hdone⟩

theorem permitted_rely {j : Thread} (hij : i ≠ j) (h : Permitted i o s) :
    RelyOn j s (o.effect s) := by
  have hreq := fun i => Rely.refl i s.reqRing
  have hdone := fun i => Rely.refl i s.doneRing
  cases i with
  | submitter =>
    cases o with
    | req o =>
      cases j with
      | submitter => exact absurd rfl hij
      | poller => exact hdone .consumer
      | worker => exact ⟨May.rely_consumer h, hdone .producer, rfl⟩
    | done | loadState | storeState | countStep => exact h.elim
  | poller =>
    cases o with
    | done o =>
      cases j with
      | submitter => exact hreq .producer
      | poller => exact absurd rfl hij
      | worker => exact ⟨hreq .consumer, May.rely_producer h, rfl⟩
    | req | loadState | storeState | countStep => exact h.elim
  | worker =>
    cases j with
    | submitter =>
      cases o with
      | req o => exact May.rely_producer h
      | done | loadState | storeState | countStep => exact hreq .producer
    | poller =>
      cases o with
      | done o => exact May.rely_consumer h
      | req | loadState | storeState | countStep => exact hdone .consumer
    | worker => exact absurd rfl hij

end Steps

/-- The discipline of the host and the worker. -/
def discipline : Discipline Thread Access Mem where
  effect := Access.effect
  inv := Mem.Inv
  rely := RelyOn
  cond := FreeSlot
  may := Permitted
  rely_refl i s := by
    cases i with
    | submitter => exact Rely.refl .producer s.reqRing
    | poller => exact Rely.refl .consumer s.doneRing
    | worker => exact ⟨Rely.refl .consumer s.reqRing, Rely.refl .producer s.doneRing, rfl⟩
  rely_trans i _ _ _ h h' := by
    cases i with
    | submitter => exact Rely.trans (i := .producer) h h'
    | poller => exact Rely.trans (i := .consumer) h h'
    | worker => exact ⟨h.1.trans h'.1, h.2.1.trans h'.2.1, h'.2.2.trans h.2.2⟩
  inv_effect hs _ h := permitted_inv hs h
  rely_effect hij _ _ h := permitted_rely hij h

/-- The discipline without the condition, for statements about all runs. -/
def rules : Discipline Thread Access Mem :=
  { discipline with
    cond := fun _ _ _ => True
    inv_effect := fun hs _ h => permitted_inv hs h
    rely_effect := fun hij _ _ h => permitted_rely hij h }

theorem discipline_ok_of_rules {α : Type} {i : Thread} {Q : α → Mem → Prop} {p : Prog Access Mem α}
    {s : Mem} (h : rules.Ok i Q p s) : discipline.Ok i Q p s :=
  h.transfer discipline rfl (fun _ hs => hs) (fun _ _ hr => hr) (fun _ _ _ => trivial)
    (fun _ _ hm => hm)

/-! ### The programs obey the discipline -/

/-- What the worker knows of the memory: the slots with a bit are those of `A`, and the requests taken
are the notifications pushed and the slots in `A`. -/
def Balanced (s : Mem) (A : Finset Slot) : Prop :=
  Agrees s.state A ∧ s.reqRing.taken.length = s.doneRing.published.length + A.card

/-- What the worker knows between its calls. While it pushes the notification of a slot, the slot is no
longer active, but its bit is still set. -/
def Knows : Phase → Mem → Prop
  | .top, s => Balanced s (activeSlots s.state)
  | .scanning _, s => Balanced s (activeSlots s.state)
  | .pushing i _, s => i ∉ activeSlots s.state ∧ Balanced s (insert i (activeSlots s.state))
  | .returned, _ => True

/-- What a thread knows between its calls. -/
def Known : (i : Thread) → Local i → Mem → Prop
  | .worker, l, s => Knows l s
  | _, _, _ => True

theorem Balanced.rely {s s' : Mem} {A : Finset Slot} (h : Balanced s A) (hr : RelyOn .worker s s') :
    Balanced s' A := by
  obtain ⟨⟨-, htaken, -⟩, ⟨-, -, -, hpub, -⟩, hstate⟩ := hr
  rwa [Balanced, htaken, hpub, hstate]

theorem Knows.rely {l : Phase} {s s' : Mem} (h : Knows l s) (hr : RelyOn .worker s s') :
    Knows l s' := by
  have hstate : s'.state = s.state := hr.2.2
  cases l with
  | top | scanning =>
    rw [Knows, hstate]
    exact Balanced.rely h hr
  | pushing i d =>
    rw [Knows, hstate]
    exact ⟨h.1, h.2.rely hr⟩
  | returned => trivial

section Worker

variable {s : Mem}

theorem ret_ok {l : Phase} (h : Knows l s) : discipline.Ok .worker Knows (.ret l) s :=
  fun _ hr _ => h.rely hr

/-- **The poll.** If a request comes out that is not the sentinel, some slot is inactive. -/
theorem poll_ok :
    discipline.Ok .worker
      (fun x s' => s'.reqRing.taken = s.reqRing.taken ++ x.toList ∧
        (∀ req, x = some req → req.requestId ≠ sentinel → ∃ i, (s.state.slots i).active = 0) ∧
        s'.state = s.state ∧ s'.doneRing.published = s.doneRing.published)
      (onReq reqRingConsume) s := by
  let C : Side → Op 32 RolloutRequest → RequestRing → Prop := fun _ o _ =>
    FreeSlot .worker (.req o) s
  have hconsume : ((spsc 32 10 (unguarded _)).assume C).Ok .consumer _ reqRingConsume s.reqRing :=
    consume_assume_ok (by decide) emptySound_orderedEmpty
  have hzoom := discipline.ok_zoom (i := .worker) _ .req Mem.reqRing
    (fun s' => s'.state = s.state ∧ s'.doneRing.published = s.doneRing.published) hconsume
    ⟨rfl, rfl⟩ (fun _ _ => rfl) (fun _ hs => hs.reqRing) (fun _ _ hr => hr.1) ?_
    (fun _ _ _ _ hm => hm) ?_ (fun _ _ hF => hF)
  · refine Discipline.ok_mono _ hzoom ?_
    rintro x s' - ⟨⟨htaken, hx⟩, hstate, hpub⟩
    refine ⟨htaken, ?_, hstate, hpub⟩
    rintro req rfl hne
    obtain ⟨v, r, hfree⟩ := hx req rfl
    exact Or.resolve_left hfree hne
  · rintro o s' ⟨hstate, -⟩ hc
    refine ⟨trivial, ?_⟩
    change FreeSlot .worker (.req o) s
    cases o with
    | storeCons v req =>
      have hfree : FreeSlot .worker (.req (.storeCons v req)) s' := hc
      simpa only [FreeSlot, hstate] using hfree
    | loadProd | loadCons | readSlot | writeSlot | storeProd | countOverflow => trivial
  · rintro s₁ s₂ ⟨hstate, hpub⟩ ⟨-, ⟨-, -, -, hpub', -⟩, hstate'⟩
    exact ⟨hstate'.trans hstate, hpub'.trans hpub⟩

/-- **The push.** -/
theorem pushDone_ok (hs : s.Inv) (d : RolloutDone) :
    rules.Ok .worker
      (fun x s' => s'.doneRing.published = s.doneRing.published ++ (if x then [d] else []) ∧
        s'.state = s.state ∧ s'.reqRing.taken = s.reqRing.taken)
      (onDone (doneRingPush d)) s := by
  have hpush : (spsc 32 10 (unguarded _)).Ok .producer _ (doneRingPush d) s.doneRing :=
    push_ok (by decide) (roomSound_spaceTest (by decide) false true 1) hs.doneRing trivial
  have hzoom := rules.ok_zoom (i := .worker) _ .done Mem.doneRing
    (fun s' => s'.state = s.state ∧ s'.reqRing.taken = s.reqRing.taken) hpush ⟨rfl, rfl⟩
    (fun _ _ => rfl) (fun _ hs => hs.doneRing) (fun _ _ hr => hr.2.1) (fun _ _ _ _ => trivial)
    (fun _ _ _ _ hm => hm) ?_ (fun _ _ hF => hF)
  · refine Discipline.ok_mono _ hzoom ?_
    rintro x s' - ⟨⟨hpub, -⟩, hF⟩
    exact ⟨hpub, hF⟩
  · rintro s₁ s₂ ⟨hstate, htaken⟩ ⟨⟨-, htaken', -⟩, -, hstate'⟩
    exact ⟨hstate'.trans hstate, htaken'.trans htaken⟩

theorem updateState_ok (f : GpuRolloutState → GpuRolloutState) :
    rules.Ok .worker
      (fun _ s' => s'.state = f s.state ∧ s'.reqRing.taken = s.reqRing.taken ∧
        s'.doneRing.published = s.doneRing.published)
      (updateState f) s := by
  rintro s₁ ⟨⟨-, ht₁, -⟩, ⟨-, -, -, hp₁, -⟩, hst₁⟩ - -
  refine ⟨trivial, ?_⟩
  rintro s₂ ⟨⟨-, ht₂, -⟩, ⟨-, -, -, hp₂, -⟩, -⟩ - -
  refine ⟨trivial, ?_⟩
  rintro s₃ ⟨⟨-, ht₃, -⟩, ⟨-, -, -, hp₃, -⟩, hst₃⟩ -
  refine ⟨?_, ht₃.trans (ht₂.trans ht₁), hp₃.trans (hp₂.trans hp₁)⟩
  rw [hst₃, ← hst₁]
  rfl

theorem rolloutWorker_top_ok (hs : s.Inv) (hl : Knows .top s) :
    discipline.Ok .worker Knows (rolloutWorker .top) s := by
  refine Discipline.ok_bind _ hs poll_ok ?_
  rintro x s₁ hs₁ ⟨htaken, hfree, hstate, hpub⟩
  obtain ⟨hagrees, hcount⟩ := hl
  rcases x with _ | req
  · refine ret_ok ⟨?_, ?_⟩
    · rwa [hstate]
    · rw [htaken, hpub, hstate, Option.toList_none, List.append_nil, hcount]
  · dsimp only
    by_cases hreq : req.requestId = sentinel
    · rw [if_pos hreq]
      exact ret_ok (l := .returned) trivial
    · rw [if_neg hreq]
      refine Discipline.ok_bind _ hs₁ (discipline_ok_of_rules (updateState_ok (admitRequest · req))) ?_
      rintro - s₂ - ⟨hstate₂, htaken₂, hpub₂⟩
      rw [hstate] at hstate₂
      obtain ⟨i, hi, hactive, hagrees'⟩ := admitRequest_spec hagrees req (hfree req rfl hreq)
      refine ret_ok ⟨?_, ?_⟩
      · rwa [hstate₂]
      · rw [htaken₂, htaken, hpub₂, hpub, hstate₂, hactive, Finset.card_insert_of_notMem hi,
          Option.toList_some, List.length_append, List.length_singleton, hcount, Nat.add_assoc]

/-- The step of one slot. A retired rollout leaves the active slots, but keeps its bit. -/
theorem rolloutWorker_scanning_ok (i : ℕ) (hl : Knows (.scanning i) s) :
    discipline.Ok .worker Knows (rolloutWorker (.scanning i)) s := by
  rw [rolloutWorker]
  by_cases h : i < 4 * 64
  · rw [dif_pos h]
    intro s₁ hr₁ _ _
    refine ⟨trivial, fun s₂ hr₂ _ _ => ⟨trivial, ?_⟩⟩
    have hl₂ : Balanced s₂ (activeSlots s₁.state) := Balanced.rely (hl.rely hr₁) hr₂
    have hstate₂ : s₂.state = s₁.state := hr₂.2.2
    obtain ⟨hagrees, hcount⟩ := hl₂
    rw [hstate₂] at hagrees
    rcases hstep : stepSlot s₁.state ⟨i, h⟩ with ⟨st', x⟩
    obtain ⟨hbitmap, hactive⟩ := stepSlot_active hstep
    have hagrees' : Agrees st' (activeSlots s₁.state) := by
      rwa [Agrees, hbitmap]
    rcases hactive with ⟨rfl, hactive⟩ | ⟨rfl, hmem, hactive⟩
    · refine ret_ok (l := .scanning (i + 1)) ?_
      rw [← hactive] at hagrees' hcount
      exact ⟨hagrees', hcount⟩
    · have hfree : (⟨i, h⟩ : Slot) ∉ activeSlots st' := by
        rw [hactive]
        exact Finset.notMem_erase _ _
      have hbalanced : Balanced { s₂ with state := st' } (insert ⟨i, h⟩ (activeSlots st')) := by
        rw [hactive, Finset.insert_erase hmem]
        exact ⟨hagrees', hcount⟩
      exact ret_ok (l := .pushing ⟨i, h⟩ _) ⟨hfree, hbalanced⟩
  · rw [dif_neg h]
    exact ret_ok (l := .top) hl

theorem rolloutWorker_pushing_ok (i : Slot) (d : RolloutDone) (hs : s.Inv)
    (hl : Knows (.pushing i d) s) :
    discipline.Ok .worker Knows (rolloutWorker (.pushing i d)) s := by
  refine Discipline.ok_bind _ hs (discipline_ok_of_rules (pushDone_ok hs d)) ?_
  rintro x s₁ hs₁ ⟨hpub, hstate, htaken⟩
  obtain ⟨hi, hagrees, hcount⟩ := hl
  rcases x with _ | _
  · refine ret_ok (l := .pushing i d) ⟨by rwa [hstate], by rwa [hstate], ?_⟩
    rw [htaken, hpub, hstate, if_neg (by decide), List.append_nil, hcount]
  · refine Discipline.ok_bind _ hs₁ (discipline_ok_of_rules (updateState_ok (releaseSlot · i))) ?_
    rintro - s₂ - ⟨hstate₂, htaken₂, hpub₂⟩ s₃ hr₃ - -
    refine ⟨trivial, ret_ok (l := .scanning (i + 1)) ?_⟩
    have hactive : activeSlots s₂.state = activeSlots s.state := by
      rw [hstate₂, hstate]
      rfl
    have hbalanced : Balanced s₂ (activeSlots s.state) := by
      refine ⟨fun j => ?_, ?_⟩
      · rw [hstate₂, hstate, releaseSlot, Bitmap.bit_clearBit, Bool.and_eq_true, hagrees j,
          Finset.mem_insert]
        by_cases hj : j = i
        · simp [hj, hi]
        · simp [hj]
      · rw [htaken₂, htaken, hpub₂, hpub, if_pos rfl, List.length_append, List.length_singleton,
          hcount, Finset.card_insert_of_notMem hi]
        omega
    rw [← hactive] at hbalanced
    exact Knows.rely (l := .scanning (i + 1)) hbalanced hr₃

theorem rolloutWorker_ok (l : Phase) (hs : s.Inv) (hl : Knows l s) :
    discipline.Ok .worker Knows (rolloutWorker l) s := by
  cases l with
  | top => exact rolloutWorker_top_ok hs hl
  | scanning i => exact rolloutWorker_scanning_ok i hl
  | pushing i d => exact rolloutWorker_pushing_ok i d hs hl
  | returned => exact ret_ok (l := .returned) trivial

end Worker

section Host

variable {s : Mem}

theorem submitCall_ok (hs : s.Inv) (l : List Bool) (req : RolloutRequest) :
    rules.Ok .submitter (fun _ _ => True) (submitCall l req) s := by
  have hsubmit := requestQueue_lawful.give_ok req hs.reqRing
  have hzoom := rules.ok_component (i := .submitter) (spsc 32 10 (unguarded _)) .req
    Mem.reqRing hsubmit (fun _ _ => rfl) (fun _ hs => hs.reqRing) (fun _ _ hr => hr)
    (fun _ _ _ => trivial) (fun _ _ _ hm => hm)
  exact rules.ok_bind hs hzoom fun _ _ _ _ _ _ _ => trivial

theorem popCall_ok (hs : s.Inv) (l : List (Option RolloutDone)) :
    rules.Ok .poller (fun _ _ => True) (popCall l) s := by
  have hpop : (spsc 32 10 (unguarded _)).Ok .consumer _ doneRingPop s.doneRing :=
    consume_ok (by decide) emptySound_orderedEmpty
  have hzoom := rules.ok_component (i := .poller) (spsc 32 10 (unguarded _)) .done
    Mem.doneRing hpop (fun _ _ => rfl) (fun _ hs => hs.doneRing) (fun _ _ hr => hr)
    (fun _ _ _ => trivial) (fun _ _ _ hm => hm)
  exact rules.ok_bind hs hzoom fun _ _ _ _ _ _ _ => trivial

end Host

theorem start_ok (i : Thread) (l : Local i) (x : Call i) (s : Mem) (hs : s.Inv) (hl : Known i l s) :
    discipline.Ok i (Known i) (system.start i l x) s := by
  cases i with
  | submitter => exact discipline_ok_of_rules (submitCall_ok hs l x)
  | poller => exact discipline_ok_of_rules (popCall_ok hs l)
  | worker => exact rolloutWorker_ok l hs hl

/-! ### Runs -/

/-- Nothing has been taken from the zeroed rings, and no slot of the zeroed device is active. -/
theorem knows_init (z : RolloutRequest) (z' : RolloutDone) : Knows .top (init z z').mem := by
  have hstate : (init z z').mem.state = .zeroed := rfl
  have htaken : (init z z').mem.reqRing.taken = [] := rfl
  have hpub : (init z z').mem.doneRing.published = [] := rfl
  rw [Knows, Balanced, hstate, htaken, hpub]
  exact ⟨agrees_zeroed, by simp [activeSlots_zeroed]⟩

/-- **Every request is accounted for.** In every run in which no request but the sentinel is taken while
all slots are active: whenever the worker is at the top of its loop, the requests it has taken are as
many as the notifications it has pushed and the rollouts that are running. -/
theorem rolloutWorker_accounts (z : RolloutRequest) (z' : RolloutDone)
    (es : List ((i : Thread) × Call i)) (h : system.Meets FreeSlot (init z z') es)
    (htop : (system.run (init z z') es).threads .worker = .ret Phase.top) :
    Accounted (system.run (init z z') es).mem := by
  have hgood : discipline.Good Known (system.run (init z z') es) := by
    refine discipline.sound rfl start_ok (discipline.good_rest ?_ ?_) h
    · exact ⟨Ring.zeroed_inv z, Ring.zeroed_inv z'⟩
    · intro i s' hr _
      cases i with
      | submitter | poller => trivial
      | worker => exact (knows_init z z').rely hr
  have hknows : Knows .top _ := hgood.rest htop
  exact hknows.2

/-- The schedule of a request for one token and one for two tokens: they are submitted, and taken in
successive iterations, in the second of which the first is reported. -/
def twoRequests : List ((i : Thread) × Call i) :=
  List.replicate 6 ⟨.submitter, (⟨1, 1, 4, 0, 50, 0, 42⟩ : RolloutRequest)⟩ ++
    List.replicate 6 ⟨.submitter, (⟨2, 2, 4, 0, 50, 0, 42⟩ : RolloutRequest)⟩ ++
    List.replicate 1560 ⟨.worker, ()⟩

instance (c : Config Thread Access Mem Local) : Decidable (c.threads .worker = .ret Phase.top) :=
  match h : c.threads .worker with
  | .ret .top => .isTrue rfl
  | .ret (.scanning _) => .isFalse fun h' => by cases h'
  | .ret (.pushing _ _) => .isFalse fun h' => by cases h'
  | .ret .returned => .isFalse fun h' => by cases h'
  | .act _ _ => .isFalse fun h' => by cases h'

/-- After two iterations the first rollout is accounted for by its notification and the second by its slot. -/
theorem rolloutWorker_accounts_twoRequests :
    system.Meets FreeSlot (init default default) twoRequests ∧
      (system.run (init default default) twoRequests).threads .worker = .ret Phase.top ∧
      (system.run (init default default) twoRequests).mem.doneRing.published.length = 1 ∧
      Accounted (system.run (init default default) twoRequests).mem := by
  have hmeets : system.Meets FreeSlot (init default default) twoRequests := by decide +kernel
  have htop : (system.run (init default default) twoRequests).threads .worker = .ret Phase.top := by
    decide +kernel
  have hdone : (system.run (init default default) twoRequests).mem.doneRing.published.length = 1 := by
    decide +kernel
  exact ⟨hmeets, htop, hdone, rolloutWorker_accounts default default _ hmeets htop⟩

/-! ### A dropped request -/

theorem onReq_run {α : Type} (p : Prog (Op 32 RolloutRequest) RequestRing α) (s : Mem) :
    (onReq p).run Access.effect s =
      ((p.run Op.effect s.reqRing).1, { s with reqRing := (p.run Op.effect s.reqRing).2 }) :=
  Prog.run_zoom _ _ Op.effect Access.effect (fun r s => { s with reqRing := r })
    (fun _ _ => rfl) (fun _ _ => rfl) (fun _ _ _ => rfl) (fun _ => rfl) p s

/-- A request for a thousand tokens. -/
def longRequest : RolloutRequest := ⟨1, 1000, 4, 0, 50, 0, 42⟩

/-- The active rollouts are to generate a thousand tokens, and have generated at most `n`, those below
slot `i` at most one more. -/
def Young (n i : ℕ) (st : GpuRolloutState) : Prop :=
  ∀ j ∈ activeSlots st, (st.slots j).maxTokens = 1000 ∧
    (st.slots j).tokensGenerated.toNat ≤ n + if (j : ℕ) < i then 1 else 0

/-- The step of slot `i` finishes no young rollout. -/
theorem Young.step {n : ℕ} {i : Slot} {st : GpuRolloutState} (hn : n < 1000)
    (h : Young n i st) : ∃ st', stepSlot st i = (st', none) ∧ Young n (i + 1) st' := by
  have hmono : ∀ j ∈ activeSlots st, j ≠ i → (st.slots j).maxTokens = 1000 ∧
      (st.slots j).tokensGenerated.toNat ≤ n + if (j : ℕ) < i + 1 then 1 else 0 := by
    intro j hj hne
    obtain ⟨hmax, htok⟩ := h j hj
    refine ⟨hmax, ?_⟩
    have hij : (j : ℕ) ≠ i := fun heq => hne (Fin.ext heq)
    split_ifs at htok ⊢ <;> omega
  rcases stepSlot_cases st i with ⟨hmem, heq⟩ | ⟨hmem, hdone, -⟩ | ⟨hmem, hlt, heq⟩
  · refine ⟨st, heq, fun j hj => hmono j hj ?_⟩
    rintro rfl
    exact hmem hj
  · obtain ⟨hmax, htok⟩ := h i hmem
    rw [hmax] at hdone
    have hle : 1000 ≤ (st.slots i).tokensGenerated.toNat := hdone
    rw [if_neg (lt_irrefl _)] at htok
    omega
  · refine ⟨_, heq, fun j hj => ?_⟩
    rw [activeSlots_setSlot_advance hmem] at hj
    by_cases hji : j = i
    · subst hji
      obtain ⟨hmax, htok⟩ := h j hmem
      have hadd := toNat_add_one_of_lt hlt
      rw [GpuRolloutState.setSlot_slots_self]
      refine ⟨hmax, ?_⟩
      rw [if_neg (lt_irrefl _)] at htok
      rw [if_pos (Nat.lt_succ_self _), GpuRolloutSlot.advance, hadd]
      omega
    · rw [GpuRolloutState.setSlot_slots_of_ne _ hji]
      exact hmono j hj hji

theorem Young.admitRequest {n : ℕ} {st : GpuRolloutState} (h : Young n 0 st) :
    Young n 0 (admitRequest st longRequest) := by
  rw [Scheduler.admitRequest]
  rcases hfind : findFreeSlot st with _ | ⟨i, st'⟩
  · exact h
  · have hslots : st'.slots = st.slots := by
      obtain ⟨j, -, heq⟩ := Option.map_eq_some_iff.mp hfind
      obtain ⟨-, rfl⟩ := Prod.mk.inj heq
      rfl
    intro j hj
    by_cases hji : j = i
    · subst hji
      rw [GpuRolloutState.setSlot_slots_self]
      exact ⟨rfl, Nat.zero_le _⟩
    · rw [mem_activeSlots, GpuRolloutState.setSlot_slots_of_ne _ hji, hslots] at hj
      rw [GpuRolloutState.setSlot_slots_of_ne _ hji, hslots]
      exact h j (mem_activeSlots.mpr hj)

/-- `m` requests have been published and `m'` taken, nothing has been reported, and the device is
young. -/
structure Loaded (m m' n i : ℕ) (s : Mem) : Prop where
  ring : s.reqRing.Inv
  published : s.reqRing.published = List.replicate m longRequest
  taken : s.reqRing.taken.length = m'
  reported : s.doneRing.published = []
  young : Young n i s.state

theorem Loaded.submit {n : ℕ} {s : Mem} (h : Loaded n n n 0 s) :
    ∃ s', (∀ l, ∃ l', (submitCall l longRequest).run Access.effect s = (l', s')) ∧
      Loaded (n + 1) n n 0 s' := by
  have hempty : s.reqRing.published.length = s.reqRing.taken.length := by
    rw [h.published, h.taken, List.length_replicate]
  obtain ⟨r', hrun, hr', htaken, hpub⟩ :=
    requestQueue_lawful.give_run (requestQueue_acceptsWhenEmpty longRequest) h.ring hempty
  refine ⟨{ s with reqRing := r' }, fun l => ⟨l ++ [true], ?_⟩, hr', ?_, ?_, h.reported, h.young⟩
  · rw [submitCall, Prog.run_bind, onReq_run]
    change ((submitRequest longRequest).run Op.effect s.reqRing) = _ at hrun
    rw [hrun]
    rfl
  · rw [hpub, h.published, List.replicate_succ']
    rfl
  · rw [htaken, h.taken]

theorem Loaded.poll {n : ℕ} {s : Mem} (hn : n < 1000) (h : Loaded (n + 1) n n 0 s) :
    ∃ s', (rolloutWorker .top).run Access.effect s = (.scanning 0, s') ∧
      Loaded (n + 1) (n + 1) n 0 s' := by
  have hpublen : s.reqRing.published.length = n + 1 := by rw [h.published, List.length_replicate]
  have hempty : ¬ orderedEmpty s.reqRing.cons s.reqRing.prod = true := by
    have hcons : s.reqRing.cons.toNat = n := by
      rw [h.ring.cons_eq, h.taken, BitVec.toNat_ofNat, Nat.mod_eq_of_lt (by omega)]
    have hprod : s.reqRing.prod.toNat = n + 1 := by
      rw [h.ring.prod_eq, hpublen, BitVec.toNat_ofNat, Nat.mod_eq_of_lt (by omega)]
    simp only [orderedEmpty, ge_iff_le, BitVec.le_def, decide_eq_true_eq]
    omega
  have hold : s.reqRing.slots (mask 10 s.reqRing.cons) = longRequest := by
    have hget := h.ring.oldest (by decide) (by rw [h.taken, hpublen]; omega)
    rw [h.published, List.getElem?_replicate, if_pos (by rw [h.taken]; omega)] at hget
    exact (Option.some_inj.mp hget).symm
  have hrun := consume_run orderedEmpty s.reqRing
  rw [if_neg hempty, hold] at hrun
  obtain ⟨x, r', hrun', hr', -⟩ := run_of_ok h.ring
    (consume_ok (G := unguarded _) (by decide) emptySound_orderedEmpty)
  obtain ⟨rfl, rfl⟩ := Prod.mk.inj (hrun.symm.trans hrun')
  refine ⟨{ s with reqRing := _, state := admitRequest s.state longRequest }, ?_, hr', h.published, ?_,
    h.reported, h.young.admitRequest⟩
  · rw [rolloutWorker, Prog.run_bind, onReq_run, reqRingConsume, hrun]
    rfl
  · rw [List.length_append, h.taken, List.length_singleton]

theorem Loaded.scan {m m' n i : ℕ} {s : Mem} (hn : n < 1000) (h : Loaded m m' n i s)
    (hi : i < 4 * 64) :
    ∃ s', (rolloutWorker (.scanning i)).run Access.effect s = (.scanning (i + 1), s') ∧
      Loaded m m' n (i + 1) s' := by
  obtain ⟨st', hstep, hyoung⟩ := Young.step (i := ⟨i, hi⟩) hn h.young
  refine ⟨{ s with state := st' }, ?_, h.ring, h.published, h.taken, h.reported, hyoung⟩
  rw [rolloutWorker, dif_pos hi, Prog.load_bind, Prog.run_act, hstep]
  rfl

/-- After the last slot all rollouts are one token older. -/
theorem Loaded.older {m m' n : ℕ} {s : Mem} (h : Loaded m m' n (4 * 64) s) :
    Loaded m m' (n + 1) 0 s := by
  refine ⟨h.ring, h.published, h.taken, h.reported, fun j hj => ?_⟩
  obtain ⟨hmax, htok⟩ := h.young j hj
  rw [if_pos j.isLt] at htok
  exact ⟨hmax, htok⟩

/-- The worker and the submitter are at rest, the worker in the given place, on the memory `s`. -/
def AtRest (c : Config Thread Access Mem Local) (l : Phase) (s : Mem) : Prop :=
  c.threads .worker = .ret l ∧ (∃ l' : List Bool, c.threads .submitter = .ret l') ∧ c.mem = s

section Calls

variable {c : Config Thread Access Mem Local} {l l₁ : Phase} {s s₁ : Mem}

theorem AtRest.worker_call (h : AtRest c l s)
    (hrun : (rolloutWorker l).run Access.effect s = (l₁, s₁)) :
    ∃ es, AtRest (system.run c es) l₁ s₁ := by
  obtain ⟨hw, ⟨l', hl'⟩, rfl⟩ := h
  obtain ⟨es, hmem, hworker, hother⟩ := system.exists_schedule_of_run (i := .worker) () hw hrun
  exact ⟨es, hworker, ⟨l', (hother .submitter (by decide)).trans hl'⟩, hmem⟩

theorem AtRest.submit_call (h : AtRest c l s) (req : RolloutRequest)
    (hrun : ∀ l, ∃ l', (submitCall l req).run Access.effect s = (l', s₁)) :
    ∃ es, AtRest (system.run c es) l s₁ := by
  obtain ⟨hw, ⟨l', hl'⟩, rfl⟩ := h
  obtain ⟨l₁', hrun⟩ := hrun l'
  obtain ⟨es, hmem, hsub, hother⟩ := system.exists_schedule_of_run (i := .submitter) req hl' hrun
  exact ⟨es, (hother .worker (by decide)).trans hw, ⟨l₁', hsub⟩, hmem⟩

/-- The worker looks at the slots from `i` on and returns to the top of its loop. -/
theorem Loaded.exists_scan {m m' n : ℕ} (hn : n < 1000) (j : ℕ) {i : ℕ} (hij : i + j = 4 * 64)
    (hc : AtRest c (.scanning i) s) (h : Loaded m m' n i s) :
    ∃ es s', AtRest (system.run c es) .top s' ∧ Loaded m m' (n + 1) 0 s' := by
  induction j generalizing i c s with
  | zero =>
    obtain rfl : i = 4 * 64 := hij
    have hrun : (rolloutWorker (.scanning (4 * 64))).run Access.effect s = (.top, s) := by
      rw [rolloutWorker, dif_neg (lt_irrefl _)]
      rfl
    obtain ⟨es, hes⟩ := hc.worker_call hrun
    exact ⟨es, s, hes, h.older⟩
  | succ j ih =>
    obtain ⟨s', hrun, h'⟩ := h.scan hn (by omega)
    obtain ⟨es, hes⟩ := hc.worker_call hrun
    obtain ⟨es', s'', hes', h''⟩ := ih (by omega) hes h'
    rw [← System.run_append] at hes'
    exact ⟨es ++ es', s'', hes', h''⟩

end Calls

/-- Any number of long requests up to a thousand can be taken without a report. -/
theorem exists_loaded {n : ℕ} (hn : n < 1000) :
    ∃ es s, AtRest (system.run (init default default) es) .top s ∧ Loaded n n n 0 s := by
  induction n with
  | zero =>
    refine ⟨[], _, ⟨rfl, ⟨[], rfl⟩, rfl⟩, Ring.zeroed_inv default, rfl, rfl, rfl, fun j hj => ?_⟩
    have hmem : j ∈ activeSlots .zeroed := hj
    rw [activeSlots_zeroed] at hmem
    exact absurd hmem (Finset.notMem_empty j)
  | succ n ih =>
    obtain ⟨es, s, hc, h⟩ := ih (by omega)
    obtain ⟨s₁, hrun₁, h₁⟩ := h.submit
    obtain ⟨es₁, hc₁⟩ := hc.submit_call longRequest hrun₁
    obtain ⟨s₂, hrun₂, h₂⟩ := h₁.poll (by omega)
    obtain ⟨es₂, hc₂⟩ := hc₁.worker_call hrun₂
    obtain ⟨es₃, s₃, hc₃, h₃⟩ := h₂.exists_scan (by omega) (4 * 64) (Nat.zero_add _) hc₂
    rw [← System.run_append, ← System.run_append, ← System.run_append] at hc₃
    exact ⟨_, s₃, hc₃, h₃⟩

/-- **A dropped request.** After 257 requests for a thousand tokens each, submitted and taken one by one,
at most 256 of them are running and none is reported. -/
theorem request_dropped :
    ¬ ∀ es : List ((i : Thread) × Call i),
      (system.run (init default default) es).threads .worker = .ret Phase.top →
        Accounted (system.run (init default default) es).mem := by
  intro hall
  obtain ⟨es, s, ⟨hw, -, rfl⟩, h⟩ := exists_loaded (n := 257) (by decide)
  have haccounted := hall es hw
  have hcard := Finset.card_le_univ (activeSlots (system.run (init default default) es).mem.state)
  rw [Accounted, h.taken, h.reported, List.length_nil, Nat.zero_add] at haccounted
  rw [← haccounted, Fintype.card_fin] at hcard
  omega

end Scheduler

end RolloutRuntime
