import RolloutRuntime.Scheduler.Accounting
import RolloutRuntime.Scheduler.Passes
import RolloutRuntime.Concurrency.Observation
import Mathlib.Data.List.ModifyLast

/-!
# The slots of the device scheduler

The iterations of the worker are observed at its accesses: an iteration begins when the worker loads the
consumer index of the request ring, takes its request when it stores that index, and pushes a
notification when it stores the producer index of the done ring. Whatever the host does in between, the
iterations observed are successive passes over the slots from the zeroed state, and at the top of the
loop the state of the device is the state after them. An iteration in which the done ring is full goes on
until the host has made room.

## Main definitions

* `Scheduler.watch`: the record of the iterations.
* `Scheduler.Follows`: the worker, at some place in its loop, has done what its record says.
* `Scheduler.SlotDiscipline`: what is to hold at the top of the loop.

## Main results

* `Scheduler.rolloutWorker_sees`: every call of the worker keeps its record true.
* `Scheduler.rolloutWorker_slots`: the slots at the top of the loop, and the time of every notification.

## References

* `cu/gpu_scheduler.cu`, `include/request.h` lines 112–138.
-/

namespace RolloutRuntime

open Concurrency RingBuffer

namespace Scheduler

/-! ### The record -/

/-- The record of the iterations after an access of the worker. -/
def watch : Access → Mem → List Iteration → List Iteration
  | .req .loadCons, s, log => log ++ [⟨s.state, none, []⟩]
  | .req (.storeCons _ req), _, log => log.modifyLast fun it => { it with request := some req }
  | .done (.storeProd _ ds), _, log => log.modifyLast fun it => { it with reports := it.reports ++ ds }
  | _, _, log => log

section Accesses

variable {s : Mem}

theorem onReq_consume_eq : onReq reqRingConsume =
    .act (.req .loadCons) fun s => .act (.req .loadProd) fun s' =>
      if orderedEmpty s.reqRing.cons s'.reqRing.prod then .ret none
      else .act (.req (.readSlot s.reqRing.cons)) fun s'' =>
        .act (.req (.storeCons (s.reqRing.cons + 1) (s''.reqRing.slots (mask 10 s.reqRing.cons))))
          fun _ => .ret (some (s''.reqRing.slots (mask 10 s.reqRing.cons))) := by
  rw [onReq, reqRingConsume, consume_eq]
  refine congrArg (Prog.act _) (funext fun s => congrArg (Prog.act _) (funext fun s' => ?_))
  change Prog.zoom _ _ (if orderedEmpty s.reqRing.cons s'.reqRing.prod then .ret none else _) = _
  split_ifs <;> rfl

theorem onDone_push_eq (noRoom : BitVec 32 → BitVec 32 → BitVec 32 → Bool) (d : RolloutDone) :
    onDone (push ⟨false, noRoom, true⟩ d) =
      .act (.done .loadCons) fun s => .act (.done .loadProd) fun s' =>
        if noRoom s'.doneRing.prod s.doneRing.cons 1 then
          .act (.done .countOverflow) fun _ => .ret false
        else .act (.done (.writeSlot s'.doneRing.prod d)) fun _ =>
          .act (.done (.storeProd (s'.doneRing.prod + 1) [d])) fun _ => .ret true := by
  refine congrArg (Prog.act _) (funext fun s => congrArg (Prog.act _) (funext fun s' => ?_))
  change Prog.zoom _ _ ((if noRoom s'.doneRing.prod s.doneRing.cons 1 then _ else _) >>= _) = _
  cases noRoom s'.doneRing.prod s.doneRing.cons 1 <;> rfl

/-- **The poll.** -/
theorem poll_rules_ok :
    rules.Ok .worker
      (fun x s' => s'.reqRing.taken = s.reqRing.taken ++ x.toList ∧ s'.state = s.state ∧
        s'.doneRing.published = s.doneRing.published)
      (onReq reqRingConsume) s := by
  have hconsume : (spsc 32 10 (unguarded _)).Ok .consumer _ reqRingConsume s.reqRing :=
    consume_ok (by decide) emptySound_orderedEmpty
  have hzoom := rules.ok_zoom (i := .worker) _ .req Mem.reqRing
    (fun s' => s'.state = s.state ∧ s'.doneRing.published = s.doneRing.published) hconsume ⟨rfl, rfl⟩
    (fun _ _ => rfl) (fun _ hs => hs.reqRing) (fun _ _ hr => hr.1) (fun _ _ _ _ => trivial)
    (fun _ _ _ _ hm => hm) ?_ (fun _ _ hF => hF)
  · exact hzoom
  · rintro s₁ s₂ ⟨hstate, hpub⟩ ⟨-, ⟨-, -, -, hpub', -⟩, hstate'⟩
    exact ⟨hstate'.trans hstate, hpub'.trans hpub⟩

/-- The poll begins an iteration, which is given what the poll returns. -/
theorem poll_sees (log : List Iteration) :
    rules.Sees .worker watch (fun x _ log' => log' = log ++ [⟨s.state, x, []⟩]) (onReq reqRingConsume) s
      log := by
  rw [onReq_consume_eq]
  refine .act fun s₁ hr₁ _ _ => .act fun s₂ _ _ _ => ?_
  have hstate : s₁.state = s.state := hr₁.2.2
  split_ifs
  · refine .ret fun _ _ _ => ?_
    rw [← hstate]
    rfl
  · refine .act fun s₃ _ _ _ => .act fun s₄ _ _ _ => .ret fun _ _ _ => ?_
    rw [← hstate]
    exact List.modifyLast_concat _ _ _

/-- A successful push is entered in the record of the iteration. -/
theorem push_sees (d : RolloutDone) (log : List Iteration) :
    rules.Sees .worker watch
      (fun ok _ log' => log' =
        if ok then log.modifyLast fun it => { it with reports := it.reports ++ [d] } else log)
      (onDone (doneRingPush d)) s log := by
  rw [doneRingPush, onDone_push_eq]
  -- whether there is room does not matter
  generalize spaceTest 10 = noRoom
  refine .act fun s₁ _ _ _ => .act fun s₂ _ _ _ => ?_
  split_ifs
  · exact .act fun _ _ _ _ => .ret fun _ _ _ => rfl
  · exact .act fun _ _ _ _ => .act fun _ _ _ _ => .ret fun _ _ _ => rfl

theorem updateState_sees (f : GpuRolloutState → GpuRolloutState) (log : List Iteration) :
    rules.Sees .worker watch
      (fun _ s' log' => (s'.state = f s.state ∧ s'.reqRing.taken = s.reqRing.taken ∧
        s'.doneRing.published = s.doneRing.published) ∧ log' = log)
      (updateState f) s log := by
  refine Discipline.sees_of_ok (A := fun o => ∀ s log, watch o s log = log) (fun o s log h => h s log)
    (updateState_ok f) ?_
  exact ⟨fun _ _ => rfl, fun _ => ⟨fun _ _ => rfl, fun _ => trivial⟩⟩

end Accesses

/-! ### The worker follows its record -/

/-- The requests taken and the notifications pushed are those of the record. -/
def Recorded (s : Mem) (log : List Iteration) : Prop :=
  s.reqRing.taken = log.filterMap Iteration.request ∧
    s.doneRing.published = log.flatMap Iteration.reports

/-- The last iteration of the record is under way, and `rest` is what it will come to: the state after it,
and the notifications still to be pushed. -/
def UnderWay (log : List Iteration) (rest : GpuRolloutState × List RolloutDone) : Prop :=
  ∃ log' it, log = log' ++ [it] ∧ Passes log' it.state ∧ (pass it.state it.request).1 = rest.1 ∧
    (pass it.state it.request).2 = it.reports ++ rest.2

/-- The worker, at the given place in its loop, has done what its record says. -/
def Follows : Phase → Mem → List Iteration → Prop
  | .top, s, log => Recorded s log ∧ Passes log s.state
  | .scanning i, s, log => Recorded s log ∧ UnderWay log (scan s.state (slotsFrom i))
  | .pushing i d, s, log => Recorded s log ∧
      UnderWay log ((scan (releaseSlot s.state i) (slotsFrom (i + 1))).1,
        d :: (scan (releaseSlot s.state i) (slotsFrom (i + 1))).2)
  | .returned, _, _ => True

theorem Recorded.rely {s s' : Mem} {log : List Iteration} (h : Recorded s log)
    (hr : RelyOn .worker s s') : Recorded s' log := by
  obtain ⟨⟨-, htaken, -⟩, ⟨-, -, -, hpub, -⟩, -⟩ := hr
  rwa [Recorded, htaken, hpub]

theorem Follows.rely {l : Phase} {s s' : Mem} {log : List Iteration} (h : Follows l s log)
    (hr : RelyOn .worker s s') : Follows l s' log := by
  have hstate : s'.state = s.state := hr.2.2
  cases l with
  | top | scanning | pushing =>
    rw [Follows, hstate]
    exact ⟨h.1.rely hr, h.2⟩
  | returned => trivial

section Worker

variable {s : Mem} {log : List Iteration}

theorem ret_sees {l : Phase} (h : Follows l s log) : rules.Sees .worker watch Follows (.ret l) s log :=
  .ret fun _ hr _ => h.rely hr

/-- An iteration begins: the slots are to be stepped from the state after the admission. -/
theorem follows_admission {s' : Mem} {x : Option RolloutRequest} (h : Follows .top s log)
    (htaken : s'.reqRing.taken = s.reqRing.taken ++ x.toList)
    (hpub : s'.doneRing.published = s.doneRing.published) (hstate : s'.state = admission s.state x) :
    Follows (.scanning 0) s' (log ++ [⟨s.state, x, []⟩]) := by
  obtain ⟨⟨htaken₀, hpub₀⟩, hpasses⟩ := h
  refine ⟨⟨?_, ?_⟩, log, ⟨s.state, x, []⟩, rfl, hpasses, ?_, ?_⟩
  · rw [htaken, htaken₀, List.filterMap_append]
    cases x <;> rfl
  · rw [hpub, hpub₀, List.flatMap_append]
    simp
  · rw [hstate, pass]
  · rw [hstate, pass, List.nil_append]

theorem rolloutWorker_top_sees (hs : s.Inv) (h : Follows .top s log) :
    rules.Sees .worker watch Follows (rolloutWorker .top) s log := by
  refine Discipline.sees_bind hs poll_rules_ok (poll_sees log) ?_
  rintro x s₁ - hs₁ ⟨htaken, hstate, hpub⟩ rfl
  rcases x with _ | req
  · exact ret_sees (follows_admission h htaken hpub hstate)
  · dsimp only
    by_cases hreq : req.requestId = sentinel
    · rw [if_pos hreq]
      exact ret_sees (l := .returned) trivial
    · rw [if_neg hreq]
      refine Discipline.sees_bind hs₁ (updateState_ok (admitRequest · req)) (updateState_sees _ _) ?_
      rintro - s₂ - - - ⟨⟨hstate₂, htaken₂, hpub₂⟩, rfl⟩
      rw [hstate] at hstate₂
      exact ret_sees (follows_admission h (htaken₂.trans htaken) (hpub₂.trans hpub) hstate₂)

theorem rolloutWorker_scanning_sees (i : ℕ) (h : Follows (.scanning i) s log) :
    rules.Sees .worker watch Follows (rolloutWorker (.scanning i)) s log := by
  rw [rolloutWorker]
  by_cases hi : i < 4 * 64
  · rw [dif_pos hi]
    refine .act fun s₁ hr₁ _ _ => .act fun s₂ hr₂ _ _ => ?_
    have hrec : Recorded s₂ log := (h.1.rely hr₁).rely hr₂
    have hstate₁ : s₁.state = s.state := hr₁.2.2
    have hway : UnderWay log (scan s₁.state (slotsFrom i)) := by
      rw [hstate₁]
      exact h.2
    rw [slotsFrom_lt hi, scan] at hway
    rcases hstep : stepSlot s₁.state ⟨i, hi⟩ with ⟨st', _ | d⟩
    · have hpass : passSlot s₁.state ⟨i, hi⟩ = (st', []) := by rw [passSlot, hstep]
      rw [hpass] at hway
      exact ret_sees (l := .scanning (i + 1)) ⟨hrec, hway⟩
    · have hpass : passSlot s₁.state ⟨i, hi⟩ = (releaseSlot st' ⟨i, hi⟩, [d]) := by
        rw [passSlot, hstep]
      rw [hpass] at hway
      exact ret_sees (l := .pushing ⟨i, hi⟩ d) ⟨hrec, hway⟩
  · rw [dif_neg hi]
    obtain ⟨hrec, log', it, rfl, hpasses, hst, hds⟩ := h
    rw [slotsFrom_eq_nil hi, scan] at hst hds
    refine ret_sees (l := .top) ⟨hrec, ?_⟩
    have hsnoc := hpasses.snoc it.request
    rw [hst, hds, List.append_nil] at hsnoc
    exact hsnoc

theorem rolloutWorker_pushing_sees (i : Slot) (d : RolloutDone) (hs : s.Inv)
    (h : Follows (.pushing i d) s log) :
    rules.Sees .worker watch Follows (rolloutWorker (.pushing i d)) s log := by
  refine Discipline.sees_bind hs (pushDone_ok hs d) (push_sees d log) ?_
  rintro x s₁ - hs₁ ⟨hpub, hstate, htaken⟩ rfl
  obtain ⟨⟨htaken₀, hpub₀⟩, log', it, rfl, hpasses, hst, hds⟩ := h
  rcases x with _ | _
  · simp only [Bool.false_eq_true, if_false, List.append_nil] at hpub ⊢
    refine ret_sees (l := .pushing i d) ⟨⟨htaken.trans htaken₀, hpub.trans hpub₀⟩, ?_⟩
    rw [hstate]
    exact ⟨log', it, rfl, hpasses, hst, hds⟩
  · simp only [if_true, List.modifyLast_concat]
    refine Discipline.sees_bind hs₁ (updateState_ok (releaseSlot · i)) (updateState_sees _ _) ?_
    rintro - s₂ - - - ⟨⟨hstate₂, htaken₂, hpub₂⟩, rfl⟩
    have hfollows : Follows (.scanning (i + 1)) s₂
        (log' ++ [{ it with reports := it.reports ++ [d] }]) := by
      refine ⟨⟨?_, ?_⟩, ?_⟩
      · rw [htaken₂, htaken, htaken₀, List.filterMap_append, List.filterMap_append]
        rfl
      · rw [hpub₂, hpub, hpub₀, if_pos rfl, List.flatMap_append, List.flatMap_append, List.append_assoc]
        simp
      · rw [hstate₂, hstate]
        refine ⟨log', _, rfl, hpasses, hst, ?_⟩
        rw [hds, List.append_assoc]
        rfl
    exact .act fun s₃ hr₃ _ _ => ret_sees (l := .scanning (i + 1)) (hfollows.rely hr₃)

/-- **Every call of the worker** keeps its record true. -/
theorem rolloutWorker_sees (l : Phase) (hs : s.Inv) (h : Follows l s log) :
    rules.Sees .worker watch Follows (rolloutWorker l) s log := by
  cases l with
  | top => exact rolloutWorker_top_sees hs h
  | scanning i => exact rolloutWorker_scanning_sees i h
  | pushing i d => exact rolloutWorker_pushing_sees i d hs h
  | returned => exact ret_sees (l := .returned) trivial

theorem rolloutWorker_permitted (l : Phase) (hs : s.Inv) :
    rules.Ok .worker (fun _ _ => True) (rolloutWorker l) s := by
  have hret (l : Phase) (s : Mem) : rules.Ok .worker (fun _ _ => True) (.ret l) s :=
    fun _ _ _ => trivial
  cases l with
  | top =>
    refine Discipline.ok_bind _ hs poll_rules_ok fun x s₁ hs₁ _ => ?_
    rcases x with _ | req
    · exact hret _ _
    · dsimp only
      split_ifs
      · exact hret _ _
      · exact Discipline.ok_bind _ hs₁ (updateState_ok _) fun _ _ _ _ => hret _ _
  | scanning i =>
    rw [rolloutWorker]
    by_cases hi : i < 4 * 64
    · rw [dif_pos hi]
      refine fun s₁ _ _ _ => ⟨trivial, fun s₂ _ _ _ => ⟨trivial, ?_⟩⟩
      beta_reduce
      split <;> exact hret _ _
    · rw [dif_neg hi]
      exact hret _ _
  | pushing i d =>
    refine Discipline.ok_bind _ hs (pushDone_ok hs d) fun x s₁ hs₁ _ => ?_
    rcases x with _ | _
    · exact hret _ _
    · refine Discipline.ok_bind _ hs₁ (updateState_ok _) fun _ _ _ _ => ?_
      exact fun _ _ _ _ => ⟨trivial, hret _ _⟩
  | returned => exact hret _ _

end Worker

/-! ### Runs -/

theorem start_permitted (i : Thread) (l : Local i) (x : Call i) (s : Mem) (hs : rules.inv s) (_ : True) :
    rules.Ok i (fun _ _ => True) (system.start i l x) s := by
  cases i with
  | submitter => exact submitCall_ok hs l x
  | poller => exact popCall_ok hs l
  | worker => exact rolloutWorker_permitted l hs

/-- What is to hold at the top of the loop on the memory `s`, after the iterations of the record `log`. -/
structure SlotDiscipline (s : Mem) (log : List Iteration) : Prop where
  /-- The requests taken are those of the iterations, in order. -/
  taken : s.reqRing.taken = log.filterMap Iteration.request
  /-- The notifications pushed are those of the iterations, in order. -/
  published : s.doneRing.published = log.flatMap Iteration.reports
  /-- A bit is set exactly if its slot is active, and no rollout is past its limit. -/
  sound : SlotsSound s.state
  /-- So it was at the top of the loop before every iteration. -/
  sound_before : ∀ it ∈ log, SlotsSound it.state
  /-- A slot is given only to a request that finds it not active. -/
  free : ∀ (k : ℕ) (it : Iteration) (i : Slot) (req : RolloutRequest), log[k]? = some it →
    it.Admits i req → (it.state.slots i).active = 0
  /-- The slot of a request admitted by iteration `k` is reported by no iteration before number
  `k + max_tokens`, and by that one once, with the slot and the tokens of the request. -/
  reported : ∀ (k : ℕ) (i : Slot) (req : RolloutRequest), Since log k i req →
    ∀ (j : ℕ) (it : Iteration), log[j]? = some it → k ≤ j → j ≤ k + req.maxTokens.toNat →
    reportsOf i it.reports = if j = k + req.maxTokens.toNat then [completed i req] else []
  /-- Nothing else is reported. -/
  admitted : ∀ (j : ℕ) (it : Iteration), log[j]? = some it → ∀ d ∈ it.reports,
    ∃ k i req, Since log k i req ∧ j = k + req.maxTokens.toNat ∧ d = completed i req

theorem Follows.slotDiscipline {s : Mem} {log : List Iteration} (h : Follows .top s log) :
    SlotDiscipline s log := by
  obtain ⟨⟨htaken, hpub⟩, hpasses⟩ := h
  refine ⟨htaken, hpub, hpasses.held.1, fun it hit => ?_, fun k it i req hk => hpasses.free_of_admits hk,
    fun k i req hsince j it hj => hpasses.reports_since hsince hj,
    fun j it hj d hd => hpasses.exists_since hj hd⟩
  obtain ⟨j, hj⟩ := List.mem_iff_getElem?.mp hit
  exact (hpasses.exists_before hj).1.held.1

/-- **The slots of the worker.** In every run from zeroed rings and a zeroed device, whatever the host
submits and whenever it pops: at the top of the loop a bit is set exactly if its slot is active, no
rollout is past its limit, no slot has been given away while it was active, and every request admitted
has one notification, pushed in the iteration that is `max_tokens` iterations after the one that admitted
it, with the index of its slot and the tokens of the request. -/
theorem rolloutWorker_slots (z : RolloutRequest) (z' : RolloutDone) (es : List ((i : Thread) × Call i))
    (htop : (system.run (init z z') es).threads .worker = .ret Phase.top) :
    SlotDiscipline (system.run (init z z') es).mem
      (system.observe .worker watch (init z z') [] es) := by
  have hinit : rules.inv (init z z').mem := ⟨Ring.zeroed_inv z, Ring.zeroed_inv z'⟩
  have hgood : rules.Good (fun _ _ _ => True) (init z z') := ⟨hinit, fun i _ _ _ => trivial⟩
  have hmeets := system.meets_true (init z z') es
  have hrun := rules.sound rfl start_permitted hgood hmeets
  have hsees : rules.Sees .worker watch Follows ((system.run (init z z') es).threads .worker)
      (system.run (init z z') es).mem (system.observe .worker watch (init z z') [] es) := by
    refine Discipline.sees_sound rfl start_permitted ?_ hgood ?_ hmeets
    · exact fun l _ s log hs _ h => rolloutWorker_sees l hs h
    · exact ret_sees (l := .top) ⟨⟨rfl, rfl⟩, .nil⟩
  rw [htop] at hsees
  exact (hsees.post hrun.1).slotDiscipline

/-- The request for one token is reported in the iteration after the one that admits it, in which the other
request is admitted. -/
theorem rolloutWorker_slots_twoRequests :
    (system.run (init default default) twoRequests).threads .worker = .ret Phase.top ∧
      (system.observe .worker watch (init default default) [] twoRequests).map
        (fun it => (it.request.isSome, it.reports.length)) = [(true, 0), (true, 1)] ∧
      SlotDiscipline (system.run (init default default) twoRequests).mem
        (system.observe .worker watch (init default default) [] twoRequests) := by
  have htop : (system.run (init default default) twoRequests).threads .worker = .ret Phase.top := by
    decide +kernel
  exact ⟨htop, by decide +kernel, rolloutWorker_slots default default twoRequests htop⟩

end Scheduler

end RolloutRuntime
