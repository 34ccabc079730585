import RolloutRuntime.Concurrency.Progress
import RolloutRuntime.Scheduler.BenchmarkRuns

/-!
# Small benchmarks of the device scheduler come to their end

A benchmark of at most 2049 rollouts, with at most 255 tokens for each, is never stuck: wherever the host
and the worker are, they can go on until the host has popped a notification for each of its requests. If
the request ring is full while the host submits, so few requests have left it that the done ring has room
for all their notifications, and the worker comes back to the top of its loop and takes the next one.
While the host waits, every iteration of the worker brings the oldest request that is not answered one
token nearer to its end.

## Main definitions

* `Scheduler.Bench.Reached`, `Scheduler.Bench.Leads`: the places that some run reaches, and that a schedule
  leads from one to another.

## Main results

* `Scheduler.Bench.leads_scan`, `Scheduler.Bench.leads_pass`: the worker finishes its iteration, and makes
  a whole one, if there is room for what it pushes.
* `Scheduler.Bench.benchmark_not_stuck`: the host can always end its wait.

## References

* `bench/bench_gpu_scheduler.cu` lines 55–84, `cu/gpu_scheduler.cu` lines 35–82, `include/request.h`
  lines 81–150.
-/

namespace RolloutRuntime

open Concurrency RingBuffer

namespace Scheduler

namespace Bench

/-! ### Places and calls -/

/-- The local states of the two threads. -/
def places (l : Host) (p : Phase) : (i : Thread) → Local i
  | .host => l
  | .worker => p

theorem update_places_host (l l' : Host) (p : Phase) :
    Function.update (places l p) .host l' = places l' p := by
  funext i
  cases i with
  | host => exact Function.update_self _ _ _
  | worker => exact Function.update_of_ne (by decide) _ _

theorem update_places_worker (l : Host) (p p' : Phase) :
    Function.update (places l p) .worker p' = places l p' := by
  funext i
  cases i with
  | host => exact Function.update_of_ne (by decide) _ _
  | worker => exact Function.update_self _ _ _

/-- Some run comes to rest there. -/
def Reached (x : Args) (z : RolloutRequest) (z' : RolloutDone) (l : Host) (p : Phase) (s : Mem) : Prop :=
  (system x).Arrives (init z z') (places l p) s

/-- From one place the threads can go to another. -/
def Leads (x : Args) (l : Host) (p : Phase) (s : Mem) (l' : Host) (p' : Phase) (s' : Mem) : Prop :=
  (system x).Leads (places l p) s (places l' p') s'

section Places

variable {x : Args} {z : RolloutRequest} {z' : RolloutDone} {l l₁ : Host} {p p₁ : Phase}
  {s s₁ : Mem}

theorem Reached.leads (h : Reached x z z' l p s) (h' : Leads x l p s l₁ p₁ s₁) :
    Reached x z z' l₁ p₁ s₁ :=
  System.Arrives.leads h h'

theorem leads_host (h : (host x l).run Access.effect s = (l₁, s₁)) : Leads x l p s l₁ p s₁ := by
  have hcall := System.leads_call (S := system x) (l := places l p) (i := .host) () h
  rwa [update_places_host] at hcall

theorem leads_worker (h : (rolloutWorker p).run Access.effect s = (p₁, s₁)) :
    Leads x l p s l p₁ s₁ := by
  have hcall := System.leads_call (S := system x) (l := places l p) (i := .worker) () h
  rwa [update_places_worker] at hcall

theorem Reached.known (h : Reached x z z' l p s) :
    Inv x s ∧ HostKnows x l s ∧ Unstopped p s ∧ ∃ log, Serving p s log := by
  obtain ⟨es, hes⟩ := h
  have hgood := good_run x z z' es
  have hserving := fun hworker => exists_serving x z z' es (l := p) hworker
  rw [hes] at hgood hserving
  exact ⟨hgood.1, hgood.rest (i := .host) rfl, hgood.rest (i := .worker) rfl, hserving rfl⟩

theorem Reached.stock (h : Reached x z z' l p s) (hT : x.tokensPer.toNat ≤ 255) : Stock x s := by
  obtain ⟨hs, -, hl, log, hlog⟩ := h.known
  exact hlog.stock hT hs hl

end Places

/-! ### Calls of the worker -/

theorem onDone_run {α : Type} (p : Prog (Op 32 RolloutDone) DoneRing α) (s : Mem) :
    (onDone p).run Access.effect s =
      ((p.run Op.effect s.doneRing).1, { s with doneRing := (p.run Op.effect s.doneRing).2 }) :=
  Prog.run_zoom _ _ Op.effect Access.effect (fun r s => { s with doneRing := r })
    (fun _ _ => rfl) (fun _ _ => rfl) (fun _ _ _ => rfl) (fun _ => rfl) p s

theorem doneRingPush_run {r : DoneRing} (hr : r.Inv)
    (hroom : r.published.length < r.taken.length + 2 ^ 10) (d : RolloutDone) :
    ∃ r' : DoneRing, (doneRingPush d).run Op.effect r = (true, r') ∧ r'.Inv ∧
      r'.published = r.published ++ [d] ∧ r'.taken = r.taken := by
  have hspace : spaceTest 10 r.prod r.cons 1 = false := by
    rw [← Bool.not_eq_true, spaceTest_iff (by decide) hr]
    omega
  obtain ⟨ok, r', hrun, hr', htaken, hpub, -⟩ :=
    producer_run_of_ok hr (doneQueue_lawful.give_ok d hr)
  have hok : ok = true := by
    have hrun' : (doneRingPush d).run Op.effect r = (ok, r') := hrun
    rw [doneRingPush] at hrun'
    generalize spaceTest 10 = noRoom at hspace hrun'
    rw [push_run_of_room hspace] at hrun'
    exact (Prod.mk.inj hrun').1.symm
  subst hok
  exact ⟨r', hrun, hr', hpub, htaken⟩

theorem pushing_run {s : Mem} (hs : s.doneRing.Inv)
    (hroom : s.doneRing.published.length < s.doneRing.taken.length + 2 ^ 10) (i : Slot)
    (d : RolloutDone) :
    ∃ s', (rolloutWorker (.pushing i d)).run Access.effect s = (.scanning (i + 1), s') ∧
      s'.doneRing.Inv ∧ s'.doneRing.published = s.doneRing.published ++ [d] ∧
      s'.doneRing.taken = s.doneRing.taken ∧ s'.reqRing = s.reqRing ∧
      s'.state = releaseSlot s.state i := by
  obtain ⟨r', hrun, hr', hpub, htaken⟩ := doneRingPush_run hs hroom d
  refine ⟨⟨s.reqRing, r', releaseSlot s.state i, s.stepCount + 1⟩, ?_, hr', hpub, htaken, rfl, rfl⟩
  rw [rolloutWorker, Prog.run_bind, onDone_run, hrun]
  rfl

theorem scanning_run {i : ℕ} (hi : i < 4 * 64) (s : Mem) :
    (rolloutWorker (.scanning i)).run Access.effect s =
      (match (stepSlot s.state ⟨i, hi⟩).2 with
        | none => .scanning (i + 1)
        | some d => .pushing ⟨i, hi⟩ d, { s with state := (stepSlot s.state ⟨i, hi⟩).1 }) := by
  rw [rolloutWorker, dif_pos hi, Prog.load_bind, Prog.run_act, Prog.exec_bind, Prog.run_act]
  cases (stepSlot s.state ⟨i, hi⟩).2 <;> rfl

/-- The memory `s'` is `s` after the worker has pushed notifications and left the device in some state. -/
structure Pushed (s s' : Mem) (rest : GpuRolloutState × List RolloutDone) : Prop where
  inv : s'.doneRing.Inv
  published : s'.doneRing.published = s.doneRing.published ++ rest.2
  taken : s'.doneRing.taken = s.doneRing.taken
  reqRing : s'.reqRing = s.reqRing
  state : s'.state = rest.1

section Scan

variable (x : Args) (l : Host)

theorem leads_scan_end {i : ℕ} (hi : ¬ i < 4 * 64) {s : Mem} (hs : s.doneRing.Inv) :
    ∃ s', Leads x l (.scanning i) s l .top s' ∧ Pushed s s' (scan s.state (slotsFrom i)) := by
  refine ⟨s, leads_worker ?_, ?_⟩
  · rw [rolloutWorker, dif_neg hi]
    rfl
  · rw [slotsFrom_eq_nil hi, scan]
    exact ⟨hs, (List.append_nil _).symm, rfl, rfl, rfl⟩

/-- **The rest of an iteration.** If there is room for what the worker has to push, it comes back to the top
of its loop. -/
theorem leads_scan (i : ℕ) {s : Mem} (hs : s.doneRing.Inv)
    (hroom : s.doneRing.published.length + (scan s.state (slotsFrom i)).2.length ≤
      s.doneRing.taken.length + 2 ^ 10) :
    ∃ s', Leads x l (.scanning i) s l .top s' ∧ Pushed s s' (scan s.state (slotsFrom i)) := by
  -- on the number of slots that are left
  obtain ⟨j, hij⟩ : ∃ j, 4 * 64 ≤ i + j := ⟨4 * 64, Nat.le_add_left _ _⟩
  induction j generalizing i s with
  | zero => exact leads_scan_end x l (by omega) hs
  | succ j ih =>
    by_cases hi : i < 4 * 64
    swap
    · exact leads_scan_end x l hi hs
    have hrun := scanning_run hi s
    rw [slotsFrom_lt hi, scan] at hroom ⊢
    rcases hstep : stepSlot s.state ⟨i, hi⟩ with ⟨st', _ | d⟩
    · have hpass : passSlot s.state ⟨i, hi⟩ = (st', []) := by rw [passSlot, hstep]
      rw [hpass] at hroom ⊢
      rw [hstep] at hrun
      obtain ⟨s', hleads, hpushed⟩ := ih (i + 1) (s := { s with state := st' }) hs hroom (by omega)
      exact ⟨s', (leads_worker hrun).trans hleads,
        ⟨hpushed.inv, hpushed.published, hpushed.taken, hpushed.reqRing, hpushed.state⟩⟩
    · have hpass : passSlot s.state ⟨i, hi⟩ = (releaseSlot st' ⟨i, hi⟩, [d]) := by
        rw [passSlot, hstep]
      rw [hpass] at hroom ⊢
      rw [hstep] at hrun
      dsimp only at hroom ⊢
      rw [List.length_append, List.length_singleton] at hroom
      obtain ⟨s₁, hrun₁, hs₁, hpub₁, htaken₁, hreq₁, hstate₁⟩ :=
        pushing_run (s := { s with state := st' }) hs (by dsimp only; omega) ⟨i, hi⟩ d
      have hlen₁ : s₁.doneRing.published.length = s.doneRing.published.length + 1 := by
        rw [hpub₁, List.length_append]
        rfl
      rw [← hstate₁] at hroom ⊢
      have hroom₁ : s₁.doneRing.published.length + (scan s₁.state (slotsFrom (i + 1))).2.length ≤
          s₁.doneRing.taken.length + 2 ^ 10 := by
        rw [hlen₁, htaken₁]
        dsimp only
        omega
      obtain ⟨s', hleads, hpushed⟩ := ih (i + 1) hs₁ hroom₁ (by omega)
      refine ⟨s', ((leads_worker hrun).trans (leads_worker hrun₁)).trans hleads, hpushed.inv, ?_,
        hpushed.taken.trans htaken₁, hpushed.reqRing.trans hreq₁, hpushed.state⟩
      rw [hpushed.published, hpub₁, List.append_assoc]

theorem leads_poll {s : Mem} (hs : s.Inv) (hlt : s.reqRing.published.length < 2 ^ 32)
    {y : Option RolloutRequest} (hy : s.reqRing.published[s.reqRing.taken.length]? = y)
    (hsentinel : ∀ req, y = some req → req.requestId ≠ sentinel) :
    ∃ s', Leads x l .top s l (.scanning 0) s' ∧ s'.reqRing.published = s.reqRing.published ∧
      s'.reqRing.taken = s.reqRing.taken ++ y.toList ∧ s'.doneRing = s.doneRing ∧
      s'.state = admission s.state y := by
  have hempty := orderedEmpty_iff hs.reqRing hlt
  have hrun := consume_run orderedEmpty s.reqRing
  by_cases hnone : s.reqRing.published.length ≤ s.reqRing.taken.length
  · rw [if_pos (hempty.mpr hnone)] at hrun
    obtain rfl : none = y := by rw [← hy, List.getElem?_eq_none hnone]
    refine ⟨s, leads_worker ?_, rfl, (List.append_nil _).symm, rfl, rfl⟩
    rw [rolloutWorker, Prog.run_bind, onReq_run, reqRingConsume, hrun]
    rfl
  · rw [if_neg (fun h => hnone (hempty.mp h))] at hrun
    have hold := hs.reqRing.oldest (by decide) (not_le.mp hnone)
    rw [hy] at hold
    subst hold
    have hne := hsentinel _ rfl
    generalize s.reqRing.slots (mask 10 s.reqRing.cons) = req at hrun hne
    refine ⟨{ s with
      reqRing := { s.reqRing with cons := s.reqRing.cons + 1, taken := s.reqRing.taken ++ [req] }
      state := admitRequest s.state req }, leads_worker ?_, rfl, rfl, rfl, rfl⟩
    rw [rolloutWorker, Prog.run_bind, onReq_run, reqRingConsume, hrun]
    dsimp only
    rw [if_neg hne]
    rfl

/-- **A whole iteration.** -/
theorem leads_pass {s : Mem} (hs : s.Inv) (hlt : s.reqRing.published.length < 2 ^ 32)
    {y : Option RolloutRequest} (hy : s.reqRing.published[s.reqRing.taken.length]? = y)
    (hsentinel : ∀ req, y = some req → req.requestId ≠ sentinel)
    (hroom : s.doneRing.published.length + (pass s.state y).2.length ≤
      s.doneRing.taken.length + 2 ^ 10) :
    ∃ s', Leads x l .top s l .top s' ∧ s'.reqRing.taken = s.reqRing.taken ++ y.toList ∧
      s'.doneRing.published = s.doneRing.published ++ (pass s.state y).2 ∧
      s'.doneRing.taken = s.doneRing.taken ∧ s'.state = (pass s.state y).1 := by
  obtain ⟨s₁, hpoll, -, htaken₁, hdone₁, hstate₁⟩ := leads_poll x l hs hlt hy hsentinel
  rw [pass, ← hstate₁, ← hdone₁] at hroom
  obtain ⟨s', hscan, hpushed⟩ := leads_scan x l 0 (hdone₁ ▸ hs.doneRing) hroom
  rw [hstate₁] at hpushed
  refine ⟨s', hpoll.trans hscan, ?_, ?_, ?_, hpushed.state⟩
  · rw [hpushed.reqRing, htaken₁]
  · rw [hpushed.published, hdone₁]
    rfl
  · rw [hpushed.taken, hdone₁]

end Scan

section Progress

variable {x : Args} {z : RolloutRequest} {z' : RolloutDone} {l : Host}
  {p : Phase} {s : Mem}

/-- A worker that is not at the top has still to push no more than it has taken. -/
theorem Reached.underWay (hT : x.tokensPer.toNat ≤ 255) (h : Reached x z z' l p s) (hp : p ≠ .returned)
    {log : List Iteration} {rest : GpuRolloutState × List RolloutDone} (hrec : Recorded s log)
    (hway : UnderWay log rest) :
    s.doneRing.published.length + rest.2.length ≤ s.reqRing.taken.length := by
  obtain ⟨hs, -, hl, -⟩ := h.known
  obtain ⟨htaken, hpub⟩ := hrec
  have heq := (taken_eq_requests hs hp hl).2
  have hord := (hway.inOrder (alike_of_requests (htaken.symm.trans heq)) hT).2
  rwa [← htaken, ← hpub] at hord

/-- **The worker comes back to the top of its loop** if the done ring has room for all requests taken. -/
theorem Reached.leads_top (hT : x.tokensPer.toNat ≤ 255) (h : Reached x z z' l p s) (hp : p ≠ .returned)
    (hroom : s.reqRing.taken.length ≤ s.doneRing.taken.length + 2 ^ 10) :
    ∃ s', Leads x l p s l .top s' ∧ s'.doneRing.taken = s.doneRing.taken ∧ s'.reqRing = s.reqRing := by
  obtain ⟨hs, -, -, log, hlog⟩ := h.known
  have hdone := hs.rings.doneRing
  cases p with
  | top => exact ⟨s, .refl, rfl, rfl⟩
  | scanning i =>
    obtain ⟨hrec, hway⟩ := hlog
    have hle := h.underWay hT hp hrec hway
    obtain ⟨s', hleads, hpushed⟩ := leads_scan x l i hdone (hle.trans hroom)
    exact ⟨s', hleads, hpushed.taken, hpushed.reqRing⟩
  | pushing i d =>
    obtain ⟨hrec, hway⟩ := hlog
    have hle := h.underWay hT hp hrec hway
    rw [List.length_cons] at hle
    obtain ⟨s₁, hrun, hs₁, hpub₁, htaken₁, hreq₁, hstate₁⟩ := pushing_run hdone (by omega) i d
    rw [← hstate₁] at hle
    have hroom₁ : s₁.doneRing.published.length + (scan s₁.state (slotsFrom (i + 1))).2.length ≤
        s₁.doneRing.taken.length + 2 ^ 10 := by
      rw [hpub₁, htaken₁, List.length_append, List.length_singleton]
      omega
    obtain ⟨s', hleads, hpushed⟩ := leads_scan x l (i + 1) hs₁ hroom₁
    exact ⟨s', (leads_worker hrun).trans hleads, hpushed.taken.trans htaken₁,
      hpushed.reqRing.trans hreq₁⟩
  | returned => exact absurd rfl hp

/-- Before the sentinel is sent the worker has not returned. -/
theorem Reached.ne_returned (h : Reached x z z' l p s) (hle : s.reqRing.published.length ≤ x.total) :
    p ≠ .returned := by
  rintro rfl
  obtain ⟨hs, -, -, log, hlog⟩ := h.known
  obtain ⟨-, -, -, -, htaken⟩ := hlog.returned hs
  have hlen := hs.rings.reqRing.taken_le.length_le
  omega

theorem Reached.next_ne_sentinel (h : Reached x z z' l p s) (hle : s.reqRing.published.length ≤ x.total)
    {k : ℕ} {req : RolloutRequest} (hk : s.reqRing.published[k]? = some req) :
    req.requestId ≠ sentinel := by
  obtain ⟨hs, -⟩ := h.known
  rw [eq_requests hs.submitted.1 hle] at hk
  obtain ⟨hlt, rfl⟩ := List.getElem?_eq_some_iff.mp hk
  rw [x.length_requests] at hlt
  simpa [Args.requests] using Args.request_ne_sentinel (hlt.trans_le hle)

/-! ### The host submits -/

theorem submitting_run (hs : s.Inv) {i : ℕ} (hi : i < x.total)
    (hroom : s.reqRing.published.length < s.reqRing.taken.length + 2 ^ 10) :
    ∃ s', (host x (.submitting i)).run Access.effect s = (.submitting (i + 1), s') := by
  have hspace : spaceTest 10 s.reqRing.prod s.reqRing.cons 1 = false := by
    rw [← Bool.not_eq_true, spaceTest_iff (by decide) hs.reqRing]
    omega
  have hok : ((submitRequest (x.request i)).run Op.effect s.reqRing).1 = true := by
    rw [submitRequest_eq, reqRingProducer]
    generalize spaceTest 10 = noRoom at hspace ⊢
    exact submit_run_of_room (P := ⟨false, noRoom, false⟩) hspace
  have hlt : (i : ℤ) < x.nRollouts.toInt := by
    rw [Args.total] at hi
    omega
  refine ⟨{ s with reqRing := ((submitRequest (x.request i)).run Op.effect s.reqRing).2 }, ?_⟩
  rw [host, if_pos hlt, Prog.run_bind, onReq_run, hok]
  rfl

/-- **The host can submit its next request.** If there is no room for it, the worker can take a request:
the done ring, of which nothing was popped, has room for all notifications of those it took before. -/
theorem Reached.leads_submit (hT : x.tokensPer.toNat ≤ 255) (hn : x.total ≤ 2049) {i : ℕ}
    (h : Reached x z z' (.submitting i) p s) (hi : i < x.total) :
    ∃ p' s', Leads x (.submitting i) p s (.submitting (i + 1)) p' s' := by
  obtain ⟨hs, ⟨-, hpub, hpopped⟩, -⟩ := h.known
  have hlen : s.reqRing.published.length = i := by rw [hpub, x.length_requests]
  by_cases hroom : s.reqRing.published.length < s.reqRing.taken.length + 2 ^ 10
  · obtain ⟨s', hrun⟩ := submitting_run hs.rings hi hroom
    exact ⟨p, s', leads_host hrun⟩
  · have hp := h.ne_returned (by omega)
    obtain ⟨s₁, htop, -, hreq₁⟩ := h.leads_top hT hp (by omega)
    have h₁ := h.leads htop
    obtain ⟨hs₁, -⟩ := h₁.known
    rw [← hreq₁] at hlen hroom
    obtain ⟨y, hy⟩ : ∃ y, s₁.reqRing.published[s₁.reqRing.taken.length]? = some y :=
      ⟨_, List.getElem?_eq_getElem (by omega)⟩
    have hne := h₁.next_ne_sentinel (by omega) hy
    obtain ⟨s₂, hpoll, hpub₂, htaken₂, -, -⟩ := leads_poll x (.submitting i) hs₁.rings (by omega) hy
      (by rintro _ ⟨⟩; exact hne)
    obtain ⟨hs₂, -⟩ := (h₁.leads hpoll).known
    have hroom₂ : s₂.reqRing.published.length < s₂.reqRing.taken.length + 2 ^ 10 := by
      have hbound := hs₁.rings.reqRing.bound
      rw [hpub₂, htaken₂, List.length_append, Option.toList_some, List.length_singleton]
      omega
    obtain ⟨s', hrun⟩ := submitting_run hs₂.rings hi hroom₂
    exact ⟨_, s', (htop.trans hpoll).trans (leads_host hrun)⟩

/-- The host can submit all its requests. -/
theorem Reached.leads_counting (hT : x.tokensPer.toNat ≤ 255) (hn : x.total ≤ 2049) {i : ℕ}
    (h : Reached x z z' (.submitting i) p s) :
    ∃ p' s', Leads x (.submitting i) p s (.counting 0) p' s' := by
  obtain ⟨-, ⟨hle, -⟩, -⟩ := h.known
  obtain ⟨d, hd⟩ := Nat.exists_eq_add_of_le hle
  induction d generalizing i p s with
  | zero =>
    refine ⟨p, s, leads_host ?_⟩
    have hge : ¬ (i : ℤ) < x.nRollouts.toInt := by
      rw [Args.total] at hd
      omega
    rw [host, if_neg hge]
    rfl
  | succ d ih =>
    obtain ⟨p₁, s₁, hnext⟩ := h.leads_submit hT hn (by omega)
    obtain ⟨p', s', hleads⟩ := ih (h.leads hnext) (by omega) (by omega)
    exact ⟨p', s', hnext.trans hleads⟩

/-! ### The host waits -/

/-- While the host waits, all requests have been submitted. -/
theorem Reached.next_request {c : ℕ} (h : Reached x z z' (.counting c) p s) {req : RolloutRequest}
    {k : ℕ} (hk : s.reqRing.published[k]? = some req) :
    req.requestId ≠ sentinel ∧ req.maxTokens = x.tokensPer := by
  obtain ⟨-, ⟨hpub, -⟩, -⟩ := h.known
  refine ⟨h.next_ne_sentinel (by rw [hpub, x.length_requests]) hk, ?_⟩
  rw [hpub] at hk
  obtain ⟨k, -, rfl⟩ := List.mem_map.mp (List.mem_of_getElem? hk)
  rfl

/-- The requests of the record ask for the same number of tokens. -/
theorem Reached.alike {c : ℕ} {log : List Iteration} (h : Reached x z z' (.counting c) .top s)
    (hrec : Recorded s log) : Alike x.tokensPer.toNat log := by
  obtain ⟨hs, -, hl, -⟩ := h.known
  exact alike_of_requests (hrec.1.symm.trans (taken_eq_requests hs Phase.noConfusion hl).2)

/-- **One iteration while the host waits**, with no notification left to pop. -/
theorem Reached.leads_iteration (hT : x.tokensPer.toNat ≤ 255) {c : ℕ} {log : List Iteration}
    (h : Reached x z z' (.counting c) .top s) (hrec : Recorded s log) (hpasses : Passes log s.state)
    (hempty : s.doneRing.published.length = c) :
    ∃ s' it, Leads x (.counting c) .top s (.counting c) .top s' ∧ Recorded s' (log ++ [it]) ∧
      Passes (log ++ [it]) s'.state ∧
      it.request = s.reqRing.published[s.reqRing.taken.length]? := by
  obtain ⟨hs, ⟨hsub, hpopped⟩, -⟩ := h.known
  obtain ⟨htaken, hpub⟩ := hrec
  obtain ⟨y, hy⟩ : ∃ y, s.reqRing.published[s.reqRing.taken.length]? = y := ⟨_, rfl⟩
  have hnext : ∀ req, y = some req → req.requestId ≠ sentinel ∧ req.maxTokens = x.tokensPer :=
    fun req hreq => h.next_request (hy.trans hreq)
  have hsnoc := hpasses.snoc y
  set it : Iteration := ⟨s.state, y, (pass s.state y).2⟩
  have halike : Alike x.tokensPer.toNat (log ++ [it]) := by
    intro it' hit' req hreq
    rcases List.mem_append.mp hit' with hold | hnew
    · exact h.alike ⟨htaken, hpub⟩ it' hold req hreq
    · rw [List.mem_singleton.mp hnew] at hreq
      rw [(hnext req hreq).2]
  have hreqs : (log ++ [it]).filterMap Iteration.request = s.reqRing.taken ++ y.toList := by
    rw [List.filterMap_append, ← htaken]
    cases y <;> rfl
  have hreports : (log ++ [it]).flatMap Iteration.reports =
      s.doneRing.published ++ (pass s.state y).2 := by
    rw [List.flatMap_append, ← hpub, List.flatMap_singleton]
  -- the iteration answers requests that have been taken, and these are few
  have hroom : s.doneRing.published.length + (pass s.state y).2.length ≤
      s.doneRing.taken.length + 2 ^ 10 := by
    have hle := (hsnoc.inOrder halike hT).length_le
    have hahead := (h.stock hT).ahead
    have hone : y.toList.length ≤ 1 := by cases y <;> simp
    rw [hreqs, hreports, List.length_append, List.length_append] at hle
    omega
  have hlt : s.reqRing.published.length < 2 ^ 32 := by
    have htotal := x.total_lt
    rw [hsub, x.length_requests]
    omega
  obtain ⟨s', hleads, htaken', hpub', -, hstate'⟩ := leads_pass x (.counting c) hs.rings hlt hy
    (fun req hreq => (hnext req hreq).1) hroom
  refine ⟨s', it, hleads, ⟨?_, ?_⟩, hstate' ▸ hsnoc, hy.symm⟩
  · rw [htaken', hreqs]
  · rw [hpub', hreports]

/-- **Some iterations while the host waits**: either one of them pushes a notification, or all of them are
made. -/
theorem Reached.leads_iterations (hT : x.tokensPer.toNat ≤ 255) {c : ℕ} {log : List Iteration}
    (h : Reached x z z' (.counting c) .top s) (hrec : Recorded s log) (hpasses : Passes log s.state)
    (hempty : s.doneRing.published.length = c) (m : ℕ) :
    (∃ s', Leads x (.counting c) .top s (.counting c) .top s' ∧ c < s'.doneRing.published.length) ∨
      ∃ s' log', Leads x (.counting c) .top s (.counting c) .top s' ∧ Recorded s' log' ∧
        Passes log' s'.state ∧ log <+: log' ∧ log'.length = log.length + m ∧
        s'.doneRing.published.length = c := by
  induction m with
  | zero => exact Or.inr ⟨s, log, .refl, hrec, hpasses, List.prefix_rfl, rfl, hempty⟩
  | succ m ih =>
    rcases ih with hdone | ⟨s₁, log₁, hleads₁, hrec₁, hpasses₁, hprefix, hlen, hempty₁⟩
    · exact Or.inl hdone
    · obtain ⟨s₂, it, hleads₂, hrec₂, hpasses₂, -⟩ :=
        (h.leads hleads₁).leads_iteration hT hrec₁ hpasses₁ hempty₁
      have hleads := hleads₁.trans hleads₂
      by_cases hpushed : c < s₂.doneRing.published.length
      · exact Or.inl ⟨s₂, hleads, hpushed⟩
      · refine Or.inr ⟨s₂, log₁ ++ [it], hleads, hrec₂, hpasses₂, hprefix.trans (List.prefix_append _ _),
          ?_, ?_⟩
        · rw [List.length_append, hlen]
          rfl
        · obtain ⟨hs₂, ⟨-, hpopped⟩, -⟩ := (h.leads hleads).known
          have hle := hs₂.rings.doneRing.taken_le.length_le
          omega

/-- **A request that was taken and is not answered** is answered: after as many iterations as it has
tokens, all requests taken so far are. -/
theorem Reached.leads_answer (hT : x.tokensPer.toNat ≤ 255) {c : ℕ} {log : List Iteration}
    (h : Reached x z z' (.counting c) .top s) (hrec : Recorded s log) (hpasses : Passes log s.state)
    (hempty : s.doneRing.published.length = c) (hmore : c < s.reqRing.taken.length) :
    ∃ s', Leads x (.counting c) .top s (.counting c) .top s' ∧ c < s'.doneRing.published.length := by
  rcases h.leads_iterations hT hrec hpasses hempty x.tokensPer.toNat with
    hdone | ⟨s₁, log₁, hleads, hrec₁, hpasses₁, hprefix, hlen, hempty₁⟩
  · exact hdone
  · exfalso
    have hord := (hpasses₁.reports_in_order ((h.leads hleads).alike hrec₁) hT).length_eq
    have htake : log₁.take (log₁.length - x.tokensPer.toNat) = log := by
      rw [hlen, Nat.add_sub_cancel]
      exact (List.prefix_iff_eq_take.mp hprefix).symm
    rw [htake, ← hrec.1, ← hrec₁.2, hempty₁] at hord
    omega

/-- **The worker pushes a notification** while the host waits for one. -/
theorem Reached.leads_report (hT : x.tokensPer.toNat ≤ 255) {c : ℕ}
    (h : Reached x z z' (.counting c) p s) (hc : c < x.total)
    (hempty : s.doneRing.published.length = c) :
    ∃ s', Leads x (.counting c) p s (.counting c) .top s' ∧ c < s'.doneRing.published.length := by
  obtain ⟨-, ⟨hsub, hpopped⟩, -⟩ := h.known
  have hp := h.ne_returned (by rw [hsub, x.length_requests])
  have hahead := (h.stock hT).ahead
  obtain ⟨s₁, hleads₁, -, -⟩ := h.leads_top hT hp (by omega)
  have h₁ := h.leads hleads₁
  obtain ⟨hs₁, ⟨hsub₁, hpopped₁⟩, -, log, hrec, hpasses⟩ := h₁.known
  have hle := hs₁.rings.doneRing.taken_le.length_le
  by_cases hpushed : c < s₁.doneRing.published.length
  · exact ⟨s₁, hleads₁, hpushed⟩
  have hempty₁ : s₁.doneRing.published.length = c := by omega
  by_cases hmore : c < s₁.reqRing.taken.length
  · obtain ⟨s', hleads, hpub⟩ := h₁.leads_answer hT hrec hpasses hempty₁ hmore
    exact ⟨s', hleads₁.trans hleads, hpub⟩
  · -- there is a request to be taken first
    obtain ⟨s₂, it, hleads₂, hrec₂, hpasses₂, hreq⟩ := h₁.leads_iteration hT hrec hpasses hempty₁
    have h₂ := h₁.leads hleads₂
    by_cases hpushed₂ : c < s₂.doneRing.published.length
    · exact ⟨s₂, hleads₁.trans hleads₂, hpushed₂⟩
    have hge := (hpasses.inOrder (h₁.alike hrec) hT).length_le
    rw [← hrec.1, ← hrec.2] at hge
    obtain ⟨req, hget⟩ : ∃ req, s₁.reqRing.published[s₁.reqRing.taken.length]? = some req :=
      ⟨_, List.getElem?_eq_getElem (by rw [hsub₁, x.length_requests]; omega)⟩
    obtain ⟨hs₂, ⟨-, hpopped₂⟩, -⟩ := h₂.known
    have hle₂ := hs₂.rings.doneRing.taken_le.length_le
    have htaken₂ : s₂.reqRing.taken = s₁.reqRing.taken ++ [req] := by
      rw [hrec₂.1, List.filterMap_append, ← hrec.1, List.filterMap_cons, hreq, hget]
      rfl
    have hmore₂ : c < s₂.reqRing.taken.length := by
      rw [htaken₂, List.length_append, List.length_singleton]
      omega
    obtain ⟨s', hleads, hpub⟩ := h₂.leads_answer hT hrec₂ hpasses₂ (by omega) hmore₂
    exact ⟨s', (hleads₁.trans hleads₂).trans hleads, hpub⟩

theorem popping_run_some (hs : s.Inv) (hlt : s.doneRing.published.length < 2 ^ 32) {c : ℕ}
    (hmore : s.doneRing.taken.length < s.doneRing.published.length) :
    ∃ s', (host x (.popping c)).run Access.effect s = (.popping (c + 1), s') := by
  have hempty := orderedEmpty_iff hs.doneRing hlt
  have hrun := consume_run orderedEmpty s.doneRing
  rw [if_neg (fun h => absurd (hempty.mp h) (by omega))] at hrun
  refine ⟨{ s with doneRing := (doneRingPop.run Op.effect s.doneRing).2 }, ?_⟩
  rw [host, Prog.run_bind, onDone_run, doneRingPop, hrun]
  rfl

theorem popping_run_none (hs : s.Inv) (hlt : s.doneRing.published.length < 2 ^ 32) {c : ℕ}
    (hnone : s.doneRing.published.length ≤ s.doneRing.taken.length) :
    (host x (.popping c)).run Access.effect s = (.counting c, s) := by
  have hempty := orderedEmpty_iff hs.doneRing hlt
  have hrun := consume_run orderedEmpty s.doneRing
  rw [if_pos (hempty.mpr hnone)] at hrun
  rw [host, Prog.run_bind, onDone_run, doneRingPop, hrun]
  rfl

theorem Args.toNat_signExtend (hn : 0 ≤ x.nRollouts.toInt) :
    (x.nRollouts.signExtend 64).toNat = x.total := by
  have hcast := BitVec.toInt_eq_toNat_cond (x.nRollouts.signExtend 64)
  have hlt := (x.nRollouts.signExtend 64).isLt
  rw [x.toInt_signExtend] at hcast
  rw [Args.total]
  split_ifs at hcast <;> omega

theorem counting_run (hn : 0 ≤ x.nRollouts.toInt) (c : ℕ) :
    (host x (.counting c)).run Access.effect s =
      (if c < x.total then .popping c else .stopping, s) := by
  rw [host, x.toNat_signExtend hn]
  split_ifs <;> rfl

/-- **The host can end its wait.** -/
theorem Reached.leads_stopping (hT : x.tokensPer.toNat ≤ 255) (hn : 0 ≤ x.nRollouts.toInt) {c : ℕ}
    (h : Reached x z z' (.popping c) p s) :
    ∃ p' s', Leads x (.popping c) p s .stopping p' s' := by
  have hpop {c : ℕ} {p : Phase} {s : Mem} (h : Reached x z z' (.popping c) p s) :
      s.Inv ∧ s.doneRing.published.length < 2 ^ 32 ∧ s.doneRing.published.length ≤ x.total ∧
        s.doneRing.taken.length = c ∧ c ≤ s.doneRing.published.length := by
    obtain ⟨hs, ⟨-, hpopped⟩, -⟩ := h.known
    have hle := (h.stock hT).length_le
    have hlt := x.total_lt
    have hlen := hs.rings.doneRing.taken_le.length_le
    exact ⟨hs.rings, by omega, hle, hpopped, by omega⟩
  obtain ⟨d, hd⟩ : ∃ d, x.total = c + d := by
    obtain ⟨-, -, hle, -, hge⟩ := hpop h
    exact Nat.exists_eq_add_of_le (hge.trans hle)
  induction d generalizing c p s with
  | zero =>
    obtain ⟨hs, hlt, hle, hpopped, hge⟩ := hpop h
    have hnone := popping_run_none (x := x) (c := c) hs hlt (by omega)
    have hstop := counting_run (s := s) hn c
    rw [if_neg (by omega)] at hstop
    exact ⟨p, s, (leads_host hnone).trans (leads_host hstop)⟩
  | succ d ih =>
    -- a notification can be popped, now or after the worker has pushed one
    obtain ⟨p₁, s₁, hleads₁, hmore⟩ : ∃ p₁ s₁, Leads x (.popping c) p s (.popping c) p₁ s₁ ∧
        c < s₁.doneRing.published.length := by
      obtain ⟨hs, hlt, hle, hpopped, hge⟩ := hpop h
      by_cases hmore : c < s.doneRing.published.length
      · exact ⟨p, s, .refl, hmore⟩
      · have hnone := leads_host (p := p) (popping_run_none (x := x) (c := c) hs hlt (by omega))
        obtain ⟨s₁, hleads, hpub⟩ := (h.leads hnone).leads_report hT (by omega) (by omega)
        have hback := counting_run (s := s₁) hn c
        rw [if_pos (by omega)] at hback
        exact ⟨.top, s₁, (hnone.trans hleads).trans (leads_host hback), hpub⟩
    have h₁ := h.leads hleads₁
    obtain ⟨hs₁, hlt₁, -, hpopped₁, -⟩ := hpop h₁
    obtain ⟨s₂, hrun⟩ := popping_run_some (x := x) (c := c) hs₁ hlt₁ (by omega)
    have hleads₂ := hleads₁.trans (leads_host hrun)
    obtain ⟨p', s', hleads⟩ := ih (h.leads hleads₂) (by omega)
    exact ⟨p', s', hleads₂.trans hleads⟩

end Progress

/-! ### Result -/

instance : Fintype Thread := ⟨{.host, .worker}, fun i => by cases i <;> decide⟩

/-- Every run can be continued until both threads rest. -/
theorem exists_reached (x : Args) (c : Config Thread Access Mem Local) :
    ∃ l p s, (system x).Arrives c (places l p) s := by
  obtain ⟨l, s, h⟩ := System.exists_arrives (S := system x) (fun _ => ()) c
  refine ⟨l .host, l .worker, s, ?_⟩
  have hplaces : places (l .host) (l .worker) = l := by
    funext i
    cases i <;> rfl
  rwa [hplaces]

/-- **A small benchmark is never stuck.** If there are at most 2049 rollouts, with at most 255 tokens for
each, then from every state that a run of the benchmark can reach, whatever the order of its steps, the run
can be continued such that the host ends its wait. -/
theorem benchmark_not_stuck (x : Args) (hT : x.tokensPer.toNat ≤ 255) (hn : 0 ≤ x.nRollouts.toInt)
    (hn' : x.nRollouts.toInt ≤ 2049) (z : RolloutRequest) (z' : RolloutDone)
    (es : List ((_ : Thread) × Unit)) :
    ∃ es', let c := (system x).run (init z z') (es ++ es')
      c.threads .host = .ret Host.stopping ∨ c.threads .host = .ret Host.synchronizing := by
  have htotal : x.total ≤ 2049 := by
    rw [Args.total]
    omega
  obtain ⟨l, p, s, es₁, hes₁⟩ := exists_reached x ((system x).run (init z z') es)
  rw [← (system x).run_append] at hes₁
  have h : Reached x z z' l p s := ⟨es ++ es₁, hes₁⟩
  -- from the comparison on
  have hcount {c : ℕ} {p : Phase} {s : Mem} (h : Reached x z z' (.counting c) p s) :
      ∃ p' s', Leads x (.counting c) p s .stopping p' s' := by
    have hrun := counting_run (s := s) hn c
    split_ifs at hrun
    · obtain ⟨p', s', hleads⟩ := (h.leads (leads_host hrun)).leads_stopping hT hn
      exact ⟨p', s', (leads_host hrun).trans hleads⟩
    · exact ⟨p, s, leads_host hrun⟩
  have hwait (hl : l ≠ .synchronizing) : ∃ p' s', Leads x l p s .stopping p' s' := by
    cases l with
    | submitting i =>
      obtain ⟨p₁, s₁, hleads₁⟩ := h.leads_counting hT htotal
      obtain ⟨p', s', hleads⟩ := hcount (h.leads hleads₁)
      exact ⟨p', s', hleads₁.trans hleads⟩
    | counting c => exact hcount h
    | popping c => exact h.leads_stopping hT hn
    | stopping => exact ⟨p, s, .refl⟩
    | synchronizing => exact absurd rfl hl
  by_cases hl : l = .synchronizing
  · subst hl
    refine ⟨es₁, Or.inr ?_⟩
    rw [hes₁]
    rfl
  · obtain ⟨p', s', es₂, hes₂⟩ := hwait hl
    refine ⟨es₁ ++ es₂, Or.inl ?_⟩
    rw [← List.append_assoc, (system x).run_append, hes₁, hes₂]
    rfl

/-- The largest such benchmark with the tokens of the defaults. -/
theorem benchmark_not_stuck_largest :
    ∃ es', let c := (system ⟨2049, 128⟩).run (init default default) es'
      c.threads .host = .ret Host.stopping ∨ c.threads .host = .ret Host.synchronizing :=
  benchmark_not_stuck ⟨2049, 128⟩ (by decide) (by decide) (by decide) default default []

end Bench

end Scheduler

end RolloutRuntime
