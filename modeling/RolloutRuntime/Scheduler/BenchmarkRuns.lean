import RolloutRuntime.Scheduler.Benchmark
import RolloutRuntime.Scheduler.DoneIds

/-!
# Runs of the benchmark of the device scheduler

All requests of the benchmark ask for the same number of tokens. If these are at most 255, the device
never runs out of slots, and the worker reports the requests in the order in which they were submitted; it
is never more than one request for each token, and one more, ahead of the notifications it has pushed.

While the host submits, at most 1024 notifications are pushed, and at most 1024 requests wait in their
ring. So a benchmark of more than `2049 + tokens` rollouts never comes to its first pop.

## Main definitions

* `Scheduler.InOrder`: notifications answer the first requests, and few requests are unanswered.
* `Scheduler.Bench.Serving`, `Scheduler.Bench.Unstopped`: what the worker knows.
* `Scheduler.Bench.Stock`: what is in the rings and on the device.
* `Scheduler.Bench.Args.Served`: what the host pops.

## Main results

* `Scheduler.Bench.benchmark_in_order`: the host pops the notifications of its requests in order, and ends
  its wait after all of them.
* `Scheduler.Bench.benchmark_stuck`: a large benchmark submits for ever.

## References

* `bench/bench_gpu_scheduler.cu` lines 20–115, `cu/gpu_scheduler.cu`, `include/request.h`.
-/

namespace RolloutRuntime

open Concurrency RingBuffer

namespace Scheduler

/-! ### Order -/

/-- The notifications `ds` are those of the first requests among `reqs`, and at most `n` requests have
none. -/
def InOrder (n : ℕ) (ds : List RolloutDone) (reqs : List RolloutRequest) : Prop :=
  List.Forall₂ Answers ds (reqs.take ds.length) ∧ reqs.length ≤ ds.length + n

section InOrder

variable {n T : ℕ} {ds ds' : List RolloutDone} {reqs : List RolloutRequest} {log : List Iteration}
  {st : GpuRolloutState}

theorem InOrder.length_le (h : InOrder n ds reqs) : ds.length ≤ reqs.length := by
  have hlen := h.1.length_eq
  rw [List.length_take] at hlen
  omega

theorem forall₂_answers_take (h : List.Forall₂ Answers ds' (reqs.take ds'.length)) (hds : ds <+: ds') :
    List.Forall₂ Answers ds (reqs.take ds.length) := by
  obtain ⟨rest, rfl⟩ := hds
  have htake := List.forall₂_take ds.length h
  rwa [List.take_left, List.take_take, Nat.min_eq_left (by simp)] at htake

/-- The requests of the last `T` iterations, and those before. -/
theorem requests_split (T : ℕ) (log : List Iteration) : log.filterMap Iteration.request =
    (log.take (log.length - T)).filterMap Iteration.request ++
      (log.drop (log.length - T)).filterMap Iteration.request := by
  rw [← List.filterMap_append, List.take_append_drop]

/-- **At the top of the loop** the requests of the last `T` iterations are unanswered. -/
theorem Passes.inOrder (h : Passes log st) (halike : Alike T log) (hT : T ≤ 255) :
    InOrder T (log.flatMap Iteration.reports) (log.filterMap Iteration.request) := by
  have hord := h.reports_in_order halike hT
  have hsplit := requests_split T log
  have hrest : ((log.drop (log.length - T)).filterMap Iteration.request).length ≤ T := by
    refine (List.length_filterMap_le _ _).trans ?_
    rw [List.length_drop]
    omega
  have hlen := hord.length_eq
  refine ⟨?_, ?_⟩
  · rwa [hsplit, hlen, List.take_left]
  · rw [hsplit, List.length_append]
    omega

/-- If all requests are answered, no slot is active. -/
theorem Passes.activeSlots_eq_empty (h : Passes log st) (halike : Alike T log) (hT : T ≤ 255)
    (hall : (log.filterMap Iteration.request).length ≤ (log.flatMap Iteration.reports).length) :
    activeSlots st = ∅ := by
  refine Finset.eq_empty_of_forall_notMem fun i hi => ?_
  obtain ⟨k, req, hsince, -, hage, -⟩ := h.held.2.holder i (mem_activeSlots.mp hi)
  have hlimit := halike.since hsince
  obtain ⟨it, hk, hreq, -⟩ := hsince
  have hord := (h.reports_in_order halike hT).length_eq
  have hsplit := requests_split T log
  rw [hsplit, List.length_append, hord] at hall
  have hnil : (log.drop (log.length - T)).filterMap Iteration.request = [] :=
    List.eq_nil_of_length_eq_zero (by omega)
  have hmem : it ∈ log.drop (log.length - T) := by
    refine List.mem_of_getElem? (i := k - (log.length - T)) ?_
    rw [List.getElem?_drop, Nat.add_sub_cancel' (by omega), hk]
  have hreqmem : req ∈ (log.drop (log.length - T)).filterMap Iteration.request :=
    List.mem_filterMap.mpr ⟨it, hmem, hreq⟩
  rw [hnil] at hreqmem
  exact List.not_mem_nil hreqmem

/-- The iteration with all it is to push. -/
def Iteration.whole (it : Iteration) : Iteration :=
  { it with reports := (pass it.state it.request).2 }

theorem Alike.whole {log' : List Iteration} {it : Iteration} (h : Alike T (log' ++ [it])) :
    Alike T (log' ++ [it.whole]) := by
  intro it' hit'
  rcases List.mem_append.mp hit' with hold | hnew
  · exact h it' (List.mem_append_left _ hold)
  · obtain rfl := List.mem_singleton.mp hnew
    exact h it (by simp)

/-- **In an iteration** there may be one more. What the iteration has still to push is in order too. -/
theorem UnderWay.inOrder {rest : GpuRolloutState × List RolloutDone} (h : UnderWay log rest)
    (halike : Alike T log) (hT : T ≤ 255) :
    InOrder (T + 1) (log.flatMap Iteration.reports) (log.filterMap Iteration.request) ∧
      (log.flatMap Iteration.reports).length + rest.2.length ≤
        (log.filterMap Iteration.request).length := by
  obtain ⟨log', it, rfl, hpasses, -, hds⟩ := h
  have halike' : Alike T log' := fun it' hit' => halike it' (List.mem_append_left _ hit')
  have hbefore := hpasses.inOrder halike' hT
  have hafter : InOrder T ((log' ++ [it.whole]).flatMap Iteration.reports)
      ((log' ++ [it.whole]).filterMap Iteration.request) :=
    (hpasses.snoc it.request).inOrder halike.whole hT
  have hreqs : (log' ++ [it.whole]).filterMap Iteration.request =
      (log' ++ [it]).filterMap Iteration.request := by
    rw [List.filterMap_append, List.filterMap_append]
    rfl
  have hreports : (log' ++ [it.whole]).flatMap Iteration.reports =
      (log' ++ [it]).flatMap Iteration.reports ++ rest.2 := by
    rw [List.flatMap_append, List.flatMap_append, List.append_assoc, List.flatMap_singleton,
      List.flatMap_singleton, ← hds]
    rfl
  rw [hreqs, hreports] at hafter
  refine ⟨⟨forall₂_answers_take hafter.1 (List.prefix_append _ _), ?_⟩, ?_⟩
  · have hone : ([it].filterMap Iteration.request).length ≤ 1 := List.length_filterMap_le _ _
    rw [List.filterMap_append, List.flatMap_append, List.length_append, List.length_append]
    have hbound := hbefore.2
    omega
  · rw [← List.length_append]
    exact hafter.length_le

end InOrder

namespace Bench

/-! ### The worker -/

/-- What the record says of the worker of the benchmark. When it has returned, its last iteration took the
sentinel and did nothing else. -/
def Serving : Phase → Mem → List Iteration → Prop
  | .returned, s, log => Recorded s log ∧ ∃ log' st req, log = log' ++ [⟨st, some req, []⟩] ∧
      req.requestId = sentinel ∧ Passes log' s.state
  | l, s, log => Follows l s log

/-- A worker that has not returned has not taken the sentinel. -/
def Unstopped (l : Phase) (s : Mem) : Prop :=
  l ≠ .returned → ∀ req ∈ s.reqRing.taken, req.requestId ≠ sentinel

section Worker

variable {s : Mem} {log : List Iteration}

theorem serving_of_ne {l : Phase} (hl : l ≠ .returned) (h : Follows l s log) : Serving l s log := by
  cases l with
  | returned => exact absurd rfl hl
  | top | scanning | pushing => exact h

theorem Serving.follows {l : Phase} (h : Serving l s log) : Follows l s log := by
  cases l with
  | returned => trivial
  | top | scanning | pushing => exact h

theorem Serving.rely {l : Phase} {s' : Mem} (h : Serving l s log)
    (hr : Scheduler.RelyOn .worker s s') : Serving l s' log := by
  cases l with
  | top => exact Follows.rely (l := .top) h hr
  | scanning i => exact Follows.rely (l := .scanning i) h hr
  | pushing i d => exact Follows.rely (l := .pushing i d) h hr
  | returned =>
    obtain ⟨hrec, log', st, req, hlog, hreq, hpasses⟩ := h
    have hstate : s'.state = s.state := hr.2.2
    refine ⟨hrec.rely hr, log', st, req, hlog, hreq, ?_⟩
    rwa [hstate]

theorem ret_serves {l : Phase} (h : Serving l s log) : rules.Sees .worker watch Serving (.ret l) s log :=
  .ret fun _ hr _ => h.rely hr

theorem worker_top_serves (hs : s.Inv) (h : Follows .top s log) :
    rules.Sees .worker watch Serving (rolloutWorker .top) s log := by
  refine Discipline.sees_bind hs poll_rules_ok (poll_sees log) ?_
  rintro y s₁ - hs₁ ⟨htaken, hstate, hpub⟩ rfl
  rcases y with _ | req
  · exact ret_serves (l := .scanning 0) (follows_admission h htaken hpub hstate)
  · dsimp only
    by_cases hreq : req.requestId = sentinel
    · rw [if_pos hreq]
      obtain ⟨⟨htaken₀, hpub₀⟩, hpasses⟩ := h
      rw [← hstate] at hpasses
      refine ret_serves (l := .returned) ⟨⟨?_, ?_⟩, log, s.state, req, rfl, hreq, hpasses⟩
      · rw [htaken, htaken₀, List.filterMap_append]
        rfl
      · rw [hpub, hpub₀, List.flatMap_append]
        simp
    · rw [if_neg hreq]
      refine Discipline.sees_bind hs₁ (updateState_ok (admitRequest · req)) (updateState_sees _ _) ?_
      rintro - s₂ - - - ⟨⟨hstate₂, htaken₂, hpub₂⟩, rfl⟩
      rw [hstate] at hstate₂
      exact ret_serves (l := .scanning 0)
        (follows_admission h (htaken₂.trans htaken) (hpub₂.trans hpub) hstate₂)

/-- **Every call of the worker** keeps its record true. -/
theorem worker_serves (l : Phase) (hs : s.Inv) (h : Serving l s log) :
    rules.Sees .worker watch Serving (rolloutWorker l) s log := by
  cases l with
  | top => exact worker_top_serves hs h
  | scanning i =>
    exact (rolloutWorker_sees (.scanning i) hs h.follows).mono (scanning_returns i)
      fun _ _ _ hne hl => serving_of_ne hne hl
  | pushing i d =>
    exact (rolloutWorker_sees (.pushing i d) hs h.follows).mono (pushing_returns i d)
      fun _ _ _ hne hl => serving_of_ne hne hl
  | returned => exact ret_serves (l := .returned) h

theorem unstopped_ret_ok {l : Phase} (h : Unstopped l s) : rules.Ok .worker Unstopped (.ret l) s := by
  intro s' hr _ hl
  have htaken : s'.reqRing.taken = s.reqRing.taken := hr.1.taken_eq
  rw [htaken]
  exact h hl

/-- **Every call of the worker** that takes the sentinel returns. -/
theorem worker_unstopped (l : Phase) (hs : s.Inv) (h : Unstopped l s) :
    rules.Ok .worker Unstopped (rolloutWorker l) s := by
  have hsame {l' : Phase} {s' : Mem} (hl : l ≠ .returned)
      (htaken : s'.reqRing.taken = s.reqRing.taken) : rules.Ok .worker Unstopped (.ret l') s' := by
    refine unstopped_ret_ok fun _ => ?_
    rw [htaken]
    exact h hl
  cases l with
  | top =>
    refine Discipline.ok_bind _ hs poll_rules_ok ?_
    rintro y s₁ hs₁ ⟨htaken, -, -⟩
    rcases y with _ | req
    · exact hsame Phase.noConfusion (by simpa using htaken)
    · dsimp only
      by_cases hreq : req.requestId = sentinel
      · rw [if_pos hreq]
        exact unstopped_ret_ok (l := .returned) fun hne => absurd rfl hne
      · rw [if_neg hreq]
        refine Discipline.ok_bind _ hs₁ (updateState_ok (admitRequest · req)) ?_
        rintro - s₂ - ⟨-, htaken₂, -⟩
        refine unstopped_ret_ok (l := .scanning 0) fun _ req' hreq' => ?_
        rw [htaken₂, htaken, List.mem_append] at hreq'
        rcases hreq' with hold | hnew
        · exact h Phase.noConfusion req' hold
        · obtain rfl := List.mem_singleton.mp hnew
          exact hreq
  | scanning i =>
    rw [rolloutWorker]
    by_cases hi : i < 4 * 64
    · rw [dif_pos hi]
      intro s₁ hr₁ _ _
      refine ⟨trivial, fun s₂ hr₂ _ _ => ⟨trivial, ?_⟩⟩
      have htaken : s₂.reqRing.taken = s.reqRing.taken := hr₂.1.taken_eq.trans hr₁.1.taken_eq
      beta_reduce
      split
      · exact hsame Phase.noConfusion htaken
      · exact hsame Phase.noConfusion htaken
    · rw [dif_neg hi]
      exact hsame Phase.noConfusion rfl
  | pushing i d =>
    refine Discipline.ok_bind _ hs (pushDone_ok hs d) ?_
    rintro ok s₁ hs₁ ⟨-, -, htaken⟩
    rcases ok with _ | _
    · exact hsame Phase.noConfusion htaken
    · refine Discipline.ok_bind _ hs₁ (updateState_ok (releaseSlot · i)) ?_
      rintro - s₂ - ⟨-, htaken₂, -⟩ s₃ hr₃ - -
      exact ⟨trivial, hsame Phase.noConfusion (hr₃.1.taken_eq.trans (htaken₂.trans htaken))⟩
  | returned => exact unstopped_ret_ok h

end Worker

/-! ### The rings and the device -/

/-- What is in the rings and on the device: notifications of the first requests, and at most one request
for each token, and one more, that was taken and has none. -/
structure Stock (x : Args) (s : Mem) : Prop where
  answered : List.Forall₂ Answers s.doneRing.published (x.requests s.doneRing.published.length)
  length_le : s.doneRing.published.length ≤ x.total
  ahead : s.reqRing.taken.length ≤ s.doneRing.published.length + x.tokensPer.toNat + 1

section Stock

variable {x : Args} {s : Mem} {log : List Iteration}

theorem eq_requests {l : List RolloutRequest} (h : l <+: x.requests x.total ++ [sentinelRequest])
    (hle : l.length ≤ x.total) : l = x.requests l.length := by
  have hprefix : l <+: x.requests x.total :=
    List.prefix_of_prefix_length_le h (List.prefix_append _ _) (by rwa [x.length_requests])
  have hlen : (x.requests l.length).length = l.length := x.length_requests _
  exact (List.prefix_of_prefix_length_le hprefix (x.requests_isPrefix hle) hlen.ge).eq_of_length hlen.symm

/-- As long as the worker has not returned, it has taken requests only. -/
theorem taken_eq_requests {l : Phase} (hs : Inv x s) (hl : l ≠ .returned) (h : Unstopped l s) :
    s.reqRing.taken.length ≤ x.total ∧ s.reqRing.taken = x.requests s.reqRing.taken.length := by
  have htaken : s.reqRing.taken <+: x.requests x.total ++ [sentinelRequest] :=
    hs.rings.reqRing.taken_le.trans hs.submitted.1
  have hle : s.reqRing.taken.length ≤ x.total := by
    by_contra hlt
    have hlen : (x.requests x.total ++ [sentinelRequest]).length ≤ s.reqRing.taken.length := by
      rw [List.length_append, x.length_requests, List.length_singleton]
      omega
    have hmem : sentinelRequest ∈ s.reqRing.taken := by
      rw [htaken.eq_of_length_le hlen]
      simp
    exact h hl _ hmem rfl
  exact ⟨hle, eq_requests htaken hle⟩

theorem alike_of_requests {m : ℕ} (h : log.filterMap Iteration.request = x.requests m) :
    Alike x.tokensPer.toNat log := by
  intro it hit req hreq
  have hmem : req ∈ x.requests m := by
    rw [← h]
    exact List.mem_filterMap.mpr ⟨it, hit, hreq⟩
  obtain ⟨k, -, rfl⟩ := List.mem_map.mp hmem
  rfl

/-- A worker that has not returned serves in order. -/
theorem follows_inOrder {T : ℕ} {l : Phase} (hl : l ≠ .returned) (h : Follows l s log)
    (halike : Alike T log) (hT : T ≤ 255) : InOrder (T + 1) s.doneRing.published s.reqRing.taken := by
  cases l with
  | top =>
    obtain ⟨⟨htaken, hpub⟩, hpasses⟩ := h
    obtain ⟨hans, hlen⟩ := hpasses.inOrder halike hT
    rw [htaken, hpub]
    exact ⟨hans, by omega⟩
  | scanning i =>
    obtain ⟨⟨htaken, hpub⟩, hway⟩ := h
    rw [htaken, hpub]
    exact (hway.inOrder halike hT).1
  | pushing i d =>
    obtain ⟨⟨htaken, hpub⟩, hway⟩ := h
    rw [htaken, hpub]
    exact (hway.inOrder halike hT).1
  | returned => exact absurd rfl hl

theorem stock_of_inOrder {m : ℕ} (h : InOrder (x.tokensPer.toNat + 1) s.doneRing.published (x.requests m))
    (hm : m ≤ x.total) (hahead : s.reqRing.taken.length ≤ s.doneRing.published.length +
      x.tokensPer.toNat + 1) : Stock x s := by
  have hlen := h.length_le
  rw [x.length_requests] at hlen
  have htake : (x.requests m).take s.doneRing.published.length =
      x.requests s.doneRing.published.length := by
    have hprefix := List.prefix_iff_eq_take.mp (x.requests_isPrefix hlen)
    rw [x.length_requests] at hprefix
    exact hprefix.symm
  refine ⟨?_, hlen.trans hm, hahead⟩
  rw [← htake]
  exact h.1

theorem Args.request_ne_sentinel {k : ℕ} (hk : k < x.total) : (x.request k).requestId ≠ sentinel := by
  intro h
  have hlt := x.total_lt
  have hnat := congrArg BitVec.toNat h
  have hsentinel : sentinel.toNat = 2 ^ 64 - 1 := by decide
  rw [Args.request, BitVec.toNat_ofNat, Nat.mod_eq_of_lt (by omega), hsentinel] at hnat
  omega

/-- A worker that has returned has taken all requests and then the sentinel. -/
theorem Serving.returned (hs : Inv x s) (h : Serving .returned s log) :
    ∃ log', Passes log' s.state ∧ s.doneRing.published = log'.flatMap Iteration.reports ∧
      log'.filterMap Iteration.request = x.requests x.total ∧ s.reqRing.taken.length = x.total + 1 := by
  obtain ⟨⟨htaken, hpub⟩, log', st, req, rfl, hreq, hpasses⟩ := h
  have htaken' : s.reqRing.taken = log'.filterMap Iteration.request ++ [req] := by
    rw [htaken, List.filterMap_append]
    rfl
  have hexpected : log'.filterMap Iteration.request ++ [req] <+:
      x.requests x.total ++ [sentinelRequest] := by
    rw [← htaken']
    exact hs.rings.reqRing.taken_le.trans hs.submitted.1
  have hle : (log'.filterMap Iteration.request).length ≤ x.total := by
    have hbound := hexpected.length_le
    rw [List.length_append, List.length_append, x.length_requests] at hbound
    exact Nat.le_of_succ_le_succ hbound
  have heq := eq_requests ((List.prefix_append _ _).trans hexpected) hle
  have hall : (log'.filterMap Iteration.request).length = x.total := by
    by_contra hne
    -- the sentinel stands after all requests
    have hlt : (log'.filterMap Iteration.request).length < x.total := by omega
    have hnext := eq_requests hexpected (by rw [List.length_append]; exact hlt)
    rw [List.length_append, List.length_singleton, x.requests_succ] at hnext
    obtain ⟨-, hlast⟩ := List.append_inj' hnext rfl
    obtain rfl : req = _ := by simpa using hlast
    exact Args.request_ne_sentinel hlt hreq
  rw [hall] at heq
  refine ⟨log', hpasses, ?_, heq, ?_⟩
  · rw [hpub, List.flatMap_append]
    simp
  · rw [htaken', List.length_append, hall]
    rfl

/-- **What is in the rings and on the device** wherever the worker rests. -/
theorem Serving.stock {l : Phase} (hT : x.tokensPer.toNat ≤ 255) (hs : Inv x s) (hl : Unstopped l s)
    (h : Serving l s log) : Stock x s := by
  by_cases hret : l = .returned
  · subst hret
    obtain ⟨log', hpasses, hpub, hreqs, htaken⟩ := h.returned hs
    have hord := hpasses.inOrder (alike_of_requests hreqs) hT
    rw [hreqs, ← hpub] at hord
    refine stock_of_inOrder ⟨hord.1, hord.2.trans (Nat.le_succ _)⟩ le_rfl ?_
    have hbound := hord.2
    rw [x.length_requests] at hbound
    omega
  · obtain ⟨hle, heq⟩ := taken_eq_requests hs hret hl
    have hfollows := h.follows
    have hrec : s.reqRing.taken = log.filterMap Iteration.request := by
      cases l with
      | returned => exact absurd rfl hret
      | top | scanning | pushing => exact hfollows.1.1
    have hord := follows_inOrder hret hfollows (alike_of_requests (hrec.symm.trans heq)) hT
    have hahead := hord.2
    rw [heq] at hord
    exact stock_of_inOrder hord hle hahead

end Stock

/-! ### Runs -/

/-- What a thread knows between its passes. -/
def Known (x : Args) : (i : Thread) → Local i → Mem → Prop
  | .host => HostKnows x
  | .worker => Unstopped

section Runs

variable (x : Args) (z : RolloutRequest) (z' : RolloutDone)

theorem start_ok (i : Thread) (l : Local i) (y : Unit) (s : Mem) (hs : Inv x s) (hl : Known x i l s) :
    (discipline x).Ok i (Known x i) ((system x).start i l y) s := by
  cases i with
  | host => exact host_ok l hs hl
  | worker =>
    exact (worker_unstopped l hs.rings hl).recast (discipline x) .worker rfl (fun _ hs => hs.rings)
      (fun _ _ hr => hr) (fun _ _ _ => trivial) fun _ _ hm => hm

theorem inv_init : Inv x (init z z').mem := by
  refine ⟨⟨Ring.zeroed_inv z, Ring.zeroed_inv z'⟩, List.nil_prefix, fun hlt => ?_⟩
  exact absurd hlt (Nat.not_lt_zero _)

theorem good_init : (discipline x).Good (Known x) (init z z') := by
  refine (discipline x).good_rest (inv_init x z z') ?_
  intro i s' hr _
  cases i with
  | host => exact HostKnows.rely (l := .submitting 0) ⟨Nat.zero_le _, rfl, rfl⟩ hr
  | worker =>
    have htaken : s'.reqRing.taken = [] := hr.1.taken_eq
    intro _ req hreq
    rw [htaken] at hreq
    exact absurd hreq List.not_mem_nil

variable (es : List ((_ : Thread) × Unit))

theorem good_run : (discipline x).Good (Known x) ((system x).run (init z z') es) :=
  (discipline x).sound rfl (start_ok x) (good_init x z z') ((system x).meets_true _ es)

/-- The record of the worker is true in every run. -/
theorem exists_serving {l : Phase}
    (hrest : ((system x).run (init z z') es).threads .worker = .ret l) :
    ∃ log, Serving l ((system x).run (init z z') es).mem log := by
  have hsees : (discipline x).Sees .worker watch Serving
      (((system x).run (init z z') es).threads .worker) ((system x).run (init z z') es).mem
      ((system x).observe .worker watch (init z z') [] es) := by
    refine Discipline.sees_sound (S := system x) (P := Known x) rfl (start_ok x) ?_ (good_init x z z') ?_
      ((system x).meets_true _ es)
    · intro l _ s log hs _ h
      exact (worker_serves l hs.rings h).recast (discipline x) .worker rfl (fun _ hs => hs.rings)
        (fun _ _ hr => hr) fun _ _ _ => trivial
    · refine .ret fun s' hr _ => ?_
      exact Serving.rely (l := .top) ⟨⟨rfl, rfl⟩, .nil⟩ hr
  rw [hrest] at hsees
  exact ⟨_, hsees.post (good_run x z z' es).1⟩

/-- **Every state is like one in which the worker rests**, to the host. -/
theorem exists_rest : ∃ es' l,
    let c := (system x).run (init z z') es
    let c' := (system x).run (init z z') (es ++ es')
    c'.threads .worker = .ret l ∧ c'.threads .host = c.threads .host ∧
      c'.mem.reqRing.published = c.mem.reqRing.published ∧
      c'.mem.doneRing.taken = c.mem.doneRing.taken := by
  have hgood := good_run x z z' es
  obtain ⟨es', hmem, hworker, hhost⟩ :=
    (system x).exists_schedule_rest .worker () ((system x).run (init z z') es)
  rw [← (system x).run_append] at hmem hworker hhost
  have hrely : RelyOn .host _ _ := (discipline x).rely_run (fun _ _ => trivial) (j := .host) (by decide)
    hgood.1 (hgood.2 .worker)
  refine ⟨es', _, hworker, hhost .host (by decide), ?_, ?_⟩
  · rw [hmem]
    exact hrely.1.published_eq
  · rw [hmem]
    exact hrely.2.taken_eq

end Runs

/-! ### The step counter -/

/-- The record of how often the worker counted. -/
def countSteps : Access → Mem → ℕ → ℕ
  | .countStep, _, n => n + 1
  | _, _, n => n

section Counter

variable {s : Mem} {n : ℕ}

theorem ret_counts (l : Phase) (h : s.doneRing.published.length = n) :
    rules.Sees .worker countSteps (fun _ s n => s.doneRing.published.length = n) (.ret l) s n := by
  refine .ret fun s' hr _ => ?_
  rw [hr.2.1.published_eq]
  exact h

theorem sees_uncounted {α : Type} {Q : α → Mem → Prop} {p : Prog Access Mem α}
    (hok : rules.Ok .worker Q p s) (huses : p.Uses (· ≠ .countStep)) :
    rules.Sees .worker countSteps (fun a s n' => Q a s ∧ n' = n) p s n := by
  refine Discipline.sees_of_ok (A := (· ≠ .countStep)) (fun o s n ho => ?_) hok huses
  cases o with
  | countStep => exact absurd rfl ho
  | req | done | loadState | storeState => rfl

theorem onReq_uncounted {α : Type} (p : Prog (Op 32 RolloutRequest) RequestRing α) :
    (onReq p).Uses (· ≠ .countStep) :=
  Prog.uses_zoom (Prog.uses_of_forall (fun _ => Access.noConfusion) p)

theorem onDone_uncounted {α : Type} (p : Prog (Op 32 RolloutDone) DoneRing α) :
    (onDone p).Uses (· ≠ .countStep) :=
  Prog.uses_zoom (Prog.uses_of_forall (fun _ => Access.noConfusion) p)

theorem updateState_uncounted (f : GpuRolloutState → GpuRolloutState) :
    (updateState f).Uses (· ≠ .countStep) :=
  ⟨Access.noConfusion, fun _ => ⟨Access.noConfusion, fun _ => trivial⟩⟩

/-- **Every call of the worker** counts the notification it pushes. -/
theorem worker_counts (l : Phase) (hs : s.Inv) (h : s.doneRing.published.length = n) :
    rules.Sees .worker countSteps (fun _ s n => s.doneRing.published.length = n) (rolloutWorker l) s
      n := by
  cases l with
  | top =>
    refine Discipline.sees_bind hs poll_rules_ok (sees_uncounted poll_rules_ok (onReq_uncounted _)) ?_
    rintro y s₁ n₁ hs₁ - ⟨⟨-, -, hpub⟩, rfl⟩
    rw [← hpub] at h
    rcases y with _ | req
    · exact ret_counts _ h
    · dsimp only
      split_ifs
      · exact ret_counts _ h
      · refine Discipline.sees_bind hs₁ (updateState_ok (admitRequest · req))
          (sees_uncounted (updateState_ok _) (updateState_uncounted _)) ?_
        rintro - s₂ n₂ - - ⟨⟨-, -, hpub₂⟩, rfl⟩
        rw [← hpub₂] at h
        exact ret_counts _ h
  | scanning i =>
    rw [rolloutWorker]
    by_cases hi : i < 4 * 64
    · rw [dif_pos hi]
      refine .act fun s₁ hr₁ _ _ => .act fun s₂ hr₂ _ _ => ?_
      have hpub : s₂.doneRing.published.length = n := by
        rw [hr₂.2.1.published_eq]
        exact (congrArg List.length hr₁.2.1.published_eq).trans h
      beta_reduce
      split
      · exact ret_counts _ hpub
      · exact ret_counts _ hpub
    · rw [dif_neg hi]
      exact ret_counts _ h
  | pushing i d =>
    refine Discipline.sees_bind hs (pushDone_ok hs d) (sees_uncounted (pushDone_ok hs d)
      (onDone_uncounted _)) ?_
    rintro ok s₁ n₁ hs₁ - ⟨⟨hpub, -, -⟩, rfl⟩
    rcases ok with _ | _
    · refine ret_counts _ ?_
      rw [hpub, ← h]
      simp
    · refine Discipline.sees_bind hs₁ (updateState_ok (releaseSlot · i))
        (sees_uncounted (updateState_ok _) (updateState_uncounted _)) ?_
      rintro - s₂ n₂ - - ⟨⟨-, -, hpub₂⟩, rfl⟩
      refine .act fun s₃ hr₃ _ _ => ret_counts _ ?_
      have hpub₃ : s₃.doneRing.published = s.doneRing.published ++ [d] :=
        hr₃.2.1.published_eq.trans (hpub₂.trans hpub)
      change s₃.doneRing.published.length = _
      rw [hpub₃, List.length_append, h]
      rfl
  | returned => exact ret_counts _ h

end Counter

section Counted

variable (x : Args)

/-- One step: the counter is what the worker counted. -/
theorem stepCount_step {c : Config Thread Access Mem Local} (hgood : (discipline x).Good (Known x) c)
    {n : ℕ} (h : c.mem.stepCount = BitVec.ofNat 64 n) (e : (_ : Thread) × Unit) :
    ((system x).step c e).mem.stepCount =
      BitVec.ofNat 64 (System.observeStep .worker countSteps c n e) := by
  obtain ⟨i, y⟩ := e
  have hhost : Thread.host ≠ Thread.worker := by decide
  cases hp : c.threads i with
  | ret l =>
    rw [(system x).step_ret hp]
    cases i with
    | host => rwa [System.observeStep_of_ne hhost]
    | worker => rwa [System.observeStep_ret hp]
  | act o k =>
    rw [(system x).step_act hp]
    cases i with
    | host =>
      have hmay : Permitted x .host o c.mem :=
        hgood.may (Config.next_eq_some.mpr ⟨k, hp⟩) trivial
      rw [System.observeStep_of_ne hhost]
      cases o with
      | req | done => exact h
      | loadState | storeState | countStep => exact hmay.elim
    | worker =>
      rw [System.observeStep_act hp]
      cases o with
      | countStep =>
        change c.mem.stepCount + 1 = _
        rw [h, countSteps, BitVec.ofNat_add]
        rfl
      | req | done | loadState | storeState => exact h

theorem stepCount_run {c : Config Thread Access Mem Local} (hgood : (discipline x).Good (Known x) c)
    {n : ℕ} (h : c.mem.stepCount = BitVec.ofNat 64 n) (es : List ((_ : Thread) × Unit)) :
    ((system x).run c es).mem.stepCount =
      BitVec.ofNat 64 ((system x).observe .worker countSteps c n es) := by
  induction es generalizing c n with
  | nil => exact h
  | cons e es ih =>
    have hstep := (discipline x).good_step (S := system x) rfl (start_ok x) hgood e fun _ _ => trivial
    exact ih hstep (stepCount_step x hgood h e)

/-- **The step counter** counts the notifications. -/
theorem stepCount_eq (z : RolloutRequest) (z' : RolloutDone) (es : List ((_ : Thread) × Unit))
    {l : Phase} (hrest : ((system x).run (init z z') es).threads .worker = .ret l) :
    ((system x).run (init z z') es).mem.stepCount =
      BitVec.ofNat 64 ((system x).run (init z z') es).mem.doneRing.published.length := by
  have hsees : (discipline x).Sees .worker countSteps (fun _ s n => s.doneRing.published.length = n)
      (((system x).run (init z z') es).threads .worker) ((system x).run (init z z') es).mem
      ((system x).observe .worker countSteps (init z z') 0 es) := by
    refine Discipline.sees_sound (S := system x) (P := Known x) rfl (start_ok x) ?_ (good_init x z z') ?_
      ((system x).meets_true _ es)
    · intro l _ s n hs _ h
      exact (worker_counts l hs.rings h).recast (discipline x) .worker rfl (fun _ hs => hs.rings)
        (fun _ _ hr => hr) fun _ _ _ => trivial
    · refine .ret fun s' hr _ => ?_
      rw [hr.2.1.published_eq]
      rfl
  rw [hrest] at hsees
  rw [stepCount_run x (good_init x z z') rfl es, hsees.post (good_run x z z' es).1]

end Counted

/-! ### What the host gets -/

/-- The notification `d` is that of request number `k`: it has its id and the tokens and the reward of a
rollout that went to its end. -/
structure Args.Served (x : Args) (k : ℕ) (d : RolloutDone) : Prop where
  requestId : d.requestId = BitVec.ofNat 64 (k + 1)
  rolloutId : d.rolloutId.toNat < 4 * 64
  tokensGenerated : d.tokensGenerated = x.tokensPer
  reward : d.reward = (x.tokensPer.toNat : ℚ) / 255
  status : d.status = 0

section Served

variable {x : Args}

theorem served_of_answers (hT : x.tokensPer.toNat ≤ 255) {k : ℕ} (hk : k < x.total) {d : RolloutDone}
    (h : Answers d (x.request k)) : x.Served k d := by
  obtain ⟨i, rfl⟩ := h
  have htotal := x.total_lt
  have hid : (x.request k).requestId.toNat < 2 ^ 32 := by
    rw [Args.request, BitVec.toNat_ofNat, Nat.mod_eq_of_lt (by omega)]
    omega
  have hslot : (BitVec.ofNat 32 (i : ℕ)).toNat = i := by
    rw [BitVec.toNat_ofNat, Nat.mod_eq_of_lt (by omega)]
  have hreward : (x.tokensPer &&& 0xFF).toNat = x.tokensPer.toNat := by
    have hmask : (0xFF : BitVec 32).toNat = 2 ^ 8 - 1 := by decide
    rw [BitVec.toNat_and, hmask, Nat.and_two_pow_sub_one_eq_mod, Nat.mod_eq_of_lt (by omega)]
  refine ⟨(completed_requestId_eq_iff i _).mpr hid, hslot ▸ i.isLt, rfl, ?_, rfl⟩
  change ((x.tokensPer &&& 0xFF).toNat : ℚ) / 255 = _
  rw [hreward]

theorem Stock.popped {s : Mem} (h : Stock x s) (hs : Inv x s) (hT : x.tokensPer.toNat ≤ 255) {k : ℕ}
    {d : RolloutDone} (hd : s.doneRing.taken[k]? = some d) : x.Served k d := by
  have hget : s.doneRing.published[k]? = some d := by
    obtain ⟨rest, hrest⟩ := hs.rings.doneRing.taken_le
    rw [← hrest, List.getElem?_append_left (List.getElem?_eq_some_iff.mp hd).1, hd]
  obtain ⟨hlt, rfl⟩ := List.getElem?_eq_some_iff.mp hget
  have hlt' : k < (x.requests s.doneRing.published.length).length := by rwa [x.length_requests]
  have hans := h.answered.get hlt hlt'
  have hreq : (x.requests s.doneRing.published.length).get ⟨k, hlt'⟩ = x.request k := by
    simp [Args.requests]
  rw [hreq] at hans
  exact served_of_answers hT (hlt.trans_le h.length_le) hans

/-- A wait that has ended has seen all notifications. -/
theorem Stock.length_popped {s : Mem} (h : Stock x s) (hs : Inv x s)
    (hcount : (x.nRollouts.signExtend 64).toNat ≤ s.doneRing.taken.length) :
    (s.doneRing.taken.length : ℤ) = x.nRollouts.toInt := by
  have hle : s.doneRing.taken.length ≤ x.total := hs.rings.doneRing.taken_le.length_le.trans h.length_le
  have htotal := x.toInt_eq_total (hcount.trans hle)
  have hcast := BitVec.toInt_eq_toNat_cond (x.nRollouts.signExtend 64)
  rw [x.toInt_signExtend] at hcast
  split_ifs at hcast <;> omega

end Served

/-! ### Results -/

section Results

variable (x : Args) (hT : x.tokensPer.toNat ≤ 255) (z : RolloutRequest) (z' : RolloutDone)
  (es : List ((_ : Thread) × Unit))

include hT

theorem stock_run {l : Phase} (hrest : ((system x).run (init z z') es).threads .worker = .ret l) :
    Stock x ((system x).run (init z z') es).mem := by
  obtain ⟨log, hlog⟩ := exists_serving x z z' es hrest
  have hgood := good_run x z z' es
  exact hlog.stock hT hgood.1 (hgood.rest hrest)

/-- There is a slot for the next request. -/
theorem findFreeSlot_run (htop : ((system x).run (init z z') es).threads .worker = .ret Phase.top) :
    findFreeSlot ((system x).run (init z z') es).mem.state ≠ none := by
  obtain ⟨log, ⟨htaken, -⟩, hpasses⟩ := exists_serving x z z' es htop
  have hgood := good_run x z z' es
  have heq := (taken_eq_requests (l := .top) hgood.1 Phase.noConfusion (hgood.rest htop)).2
  exact hpasses.findFreeSlot_ne_none ((alike_of_requests (htaken.symm.trans heq)).limited hT)

theorem returned_run
    (hret : ((system x).run (init z z') es).threads .worker = .ret Phase.returned) :
    let s := ((system x).run (init z z') es).mem
    (s.doneRing.taken.length : ℤ) = x.nRollouts.toInt ∧ s.doneRing.taken = s.doneRing.published ∧
      activeSlots s.state = ∅ := by
  intro s
  have hgood := good_run x z z' es
  have hstock := stock_run x hT z z' es hret
  obtain ⟨log, hlog⟩ := exists_serving x z z' es hret
  obtain ⟨log', hpasses, hpub, hreqs, htaken⟩ := hlog.returned hgood.1
  -- the sentinel was submitted after all notifications had been popped
  have hsent : x.total < s.reqRing.published.length :=
    htaken.ge.trans hgood.1.rings.reqRing.taken_le.length_le
  have hcount := hstock.length_popped hgood.1 (hgood.1.submitted.2 hsent)
  have hall : s.doneRing.published.length ≤ s.doneRing.taken.length := by
    have hle := hstock.length_le
    rw [Args.total, ← hcount] at hle
    exact hle
  refine ⟨hcount, hgood.1.rings.doneRing.taken_le.eq_of_length_le hall, ?_⟩
  refine hpasses.activeSlots_eq_empty (alike_of_requests hreqs) hT ?_
  rw [hreqs, ← hpub, x.length_requests, Args.total, ← hcount]
  exact hgood.1.rings.doneRing.taken_le.length_le

/-- The requests that fit the rings and the device. -/
theorem submitting_le {i : ℕ}
    (hrest : ((system x).run (init z z') es).threads .host = .ret (Host.submitting i)) :
    i ≤ 2049 + x.tokensPer.toNat := by
  obtain ⟨es', l, hworker, hhost, -, -⟩ := exists_rest x z z' es
  have hgood := good_run x z z' (es ++ es')
  obtain ⟨-, -, hahead⟩ := stock_run x hT z z' (es ++ es') hworker
  obtain ⟨-, hpub, htaken⟩ := hgood.rest (hhost.trans hrest)
  have hreq := hgood.1.rings.reqRing.bound
  have hdone := hgood.1.rings.doneRing.bound
  rw [htaken, List.length_nil] at hdone
  rw [hpub, x.length_requests] at hreq
  omega

omit hT in
/-- A host with requests left submits again. -/
theorem host_submitting_returns {i : ℕ} (hi : (i : ℤ) < x.nRollouts.toInt) :
    (host x (.submitting i)).Returns fun l => ∃ j, l = .submitting j := by
  rw [host, if_pos hi]
  refine Prog.returns_bind fun ok => ?_
  cases ok with
  | false => exact .ret ⟨i, rfl⟩
  | true => exact .ret ⟨i + 1, rfl⟩

/-- The host of a large benchmark stays in its first loop. -/
theorem host_returns (hn : 2049 + (x.tokensPer.toNat : ℤ) < x.nRollouts.toInt) :
    (((system x).run (init z z') es).threads .host).Returns fun l => ∃ i, l = Host.submitting i := by
  refine (system x).returns_run (i := .host) (R := fun l : Host => ∃ i, l = .submitting i)
    (.ret ⟨0, rfl⟩) ?_ es
  rintro es l - hrest ⟨i, rfl⟩
  have hle := submitting_le x hT z z' es hrest
  exact host_submitting_returns x (by omega)

end Results

/-- **The benchmark is served in order.** In every run of the benchmark with at most 255 tokens for each
rollout, whatever the order of the steps: notification number `k` that the host pops is that of its request
number `k`; when the host ends its wait, it has popped exactly as many as it submitted; whenever the worker
may take a request there is a free slot; the step counter counts notifications; and when the worker has
returned, all notifications have been popped and no slot is active. -/
theorem benchmark_in_order (x : Args) (hT : x.tokensPer.toNat ≤ 255) (z : RolloutRequest)
    (z' : RolloutDone) (es : List ((_ : Thread) × Unit)) :
    let c := (system x).run (init z z') es
    (∀ k d, c.mem.doneRing.taken[k]? = some d → x.Served k d) ∧
      (c.threads .host = .ret Host.stopping ∨ c.threads .host = .ret Host.synchronizing →
        (c.mem.doneRing.taken.length : ℤ) = x.nRollouts.toInt) ∧
      (c.threads .worker = .ret Phase.top → findFreeSlot c.mem.state ≠ none) ∧
      (∀ l, c.threads .worker = .ret l →
        c.mem.stepCount = BitVec.ofNat 64 c.mem.doneRing.published.length) ∧
      (c.threads .worker = .ret Phase.returned →
        (c.mem.doneRing.taken.length : ℤ) = x.nRollouts.toInt ∧
          c.mem.doneRing.taken = c.mem.doneRing.published ∧ activeSlots c.mem.state = ∅) := by
  intro c
  obtain ⟨es', l, hworker, hhost, hpub, htaken⟩ := exists_rest x z z' es
  have hgood := good_run x z z' (es ++ es')
  have hstock := stock_run x hT z z' (es ++ es') hworker
  refine ⟨fun k d hd => ?_, fun hended => ?_, findFreeSlot_run x hT z z' es,
    fun l hl => stepCount_eq x z z' es hl, returned_run x hT z z' es⟩
  · rw [← htaken] at hd
    exact hstock.popped hgood.1 hT hd
  · rw [← htaken]
    refine hstock.length_popped hgood.1 ?_
    rcases hended with hstop | hsync
    · exact (hgood.rest (hhost.trans hstop)).2
    · exact hgood.rest (hhost.trans hsync)

/-- **A large benchmark submits for ever.** Let each rollout have at most 255 tokens, and let there be more
than `2049 + tokens` rollouts. Then in every run of the benchmark, whatever the order of the steps, the host
never leaves the loop in which it submits: it has popped nothing, and the rings and the device hold all it
could submit. -/
theorem benchmark_stuck (x : Args) (hT : x.tokensPer.toNat ≤ 255) (z : RolloutRequest)
    (z' : RolloutDone) (es : List ((_ : Thread) × Unit))
    (hn : 2049 + (x.tokensPer.toNat : ℤ) < x.nRollouts.toInt) :
    let c := (system x).run (init z z') es
    (∀ l, c.threads .host = .ret l → ∃ i, l = Host.submitting i) ∧ c.mem.doneRing.taken = [] ∧
      c.mem.reqRing.published.length ≤ 2049 + x.tokensPer.toNat := by
  intro c
  have hgood := good_run x z z' es
  -- let the host finish its attempt
  obtain ⟨es', hmem, hhost, -⟩ := (system x).exists_schedule_rest .host () c
  rw [← (system x).run_append] at hmem hhost
  have hrely : RelyOn .worker c.mem _ := (discipline x).rely_run (fun _ _ => trivial) (j := .worker)
    (by decide) hgood.1 (hgood.2 .host)
  have hreturns := host_returns x hT z z' (es ++ es') hn
  rw [hhost] at hreturns
  obtain ⟨i, hi⟩ := hreturns.of_ret
  rw [hi] at hhost
  obtain ⟨-, hpub, htaken⟩ := (good_run x z z' (es ++ es')).rest hhost
  have hle := submitting_le x hT z z' (es ++ es') hhost
  rw [hmem] at hpub htaken
  refine ⟨fun l hl => ?_, ?_, ?_⟩
  · have hrest := host_returns x hT z z' es hn
    rw [show ((system x).run (init z z') es).threads .host = .ret l from hl] at hrest
    exact hrest.of_ret
  · have hprefix := hrely.2.1.taken_isPrefix
    exact List.prefix_nil.mp (htaken ▸ hprefix)
  · refine hrely.1.published_isPrefix.length_le.trans ?_
    refine (congrArg List.length hpub).le.trans ?_
    rwa [x.length_requests]

/-! ### Two benchmarks -/

/-- The schedule of a benchmark of two rollouts of one token: the host submits both, the worker reports the
first while it runs the second, and the host pops the notification. -/
def twoSubmitted : List ((_ : Thread) × Unit) :=
  List.replicate 14 ⟨.host, ()⟩ ++ List.replicate 1560 ⟨.worker, ()⟩ ++ List.replicate 5 ⟨.host, ()⟩

instance (c : Config Thread Access Mem Local) : Decidable (c.threads .worker = .ret Phase.top) :=
  match h : c.threads .worker with
  | .ret .top => .isTrue rfl
  | .ret (.scanning _) => .isFalse fun h' => by cases h'
  | .ret (.pushing _ _) => .isFalse fun h' => by cases h'
  | .ret .returned => .isFalse fun h' => by cases h'
  | .act _ _ => .isFalse fun h' => by cases h'

/-- The one notification that is popped is that of the first request. -/
theorem benchmark_in_order_two :
    ((system ⟨2, 1⟩).run (init default default) twoSubmitted).threads .worker = .ret Phase.top ∧
      findFreeSlot ((system ⟨2, 1⟩).run (init default default) twoSubmitted).mem.state ≠ none ∧
      ∃ d, ((system ⟨2, 1⟩).run (init default default) twoSubmitted).mem.doneRing.taken = [d] ∧
        Args.Served ⟨2, 1⟩ 0 d := by
  have htop : ((system ⟨2, 1⟩).run (init default default) twoSubmitted).threads .worker =
      .ret Phase.top := by decide +kernel
  have hlen : ((system ⟨2, 1⟩).run (init default default) twoSubmitted).mem.doneRing.taken.length = 1 := by
    decide +kernel
  obtain ⟨hserved, -, hfree, -⟩ := benchmark_in_order ⟨2, 1⟩ (by decide) default default twoSubmitted
  obtain ⟨d, hd⟩ := List.length_eq_one_iff.mp hlen
  exact ⟨htop, hfree htop, d, hd, hserved 0 d (by rw [hd, List.getElem?_cons_zero])⟩

/-- The benchmark with the arguments it has by default: 10000 rollouts of 128 tokens. -/
def defaults : Args := ⟨10000, 128⟩

/-- It never pops a notification. -/
theorem benchmark_stuck_defaults :
    defaults.tokensPer.toNat ≤ 255 ∧
      2049 + (defaults.tokensPer.toNat : ℤ) < defaults.nRollouts.toInt ∧
      ∀ es : List ((_ : Thread) × Unit),
        ((system defaults).run (init default default) es).mem.doneRing.taken = [] := by
  have hT : defaults.tokensPer.toNat ≤ 255 := by decide
  have hn : 2049 + (defaults.tokensPer.toNat : ℤ) < defaults.nRollouts.toInt := by decide
  exact ⟨hT, hn, fun es => (benchmark_stuck defaults hT default default es hn).2.1⟩

end Bench

end Scheduler

end RolloutRuntime
