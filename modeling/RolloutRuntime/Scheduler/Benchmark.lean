import RolloutRuntime.Scheduler.Capacity
import RolloutRuntime.Scheduler.Slots

/-!
# The benchmark of the device scheduler

The benchmark submits all its requests before it pops a notification: it waits for room in the request
ring as long as there is none, then counts notifications until there is one for each request, and sends a
request with the sentinel id. Its host is one thread, which plays the submitter first, then the poller and
then the submitter again.

While the host submits, nobody empties the done ring. A worker that finds it full waits, and takes no
requests; so the requests submitted are at most those in the request ring, those on the device and those
in the done ring. From the outset the worker may have to wait for a host that is waiting for the worker.

The copy of the step counter to the host, before the sentinel is sent, and what is printed are left out.

## Main definitions

* `Scheduler.Bench.Args`, `Scheduler.Bench.Args.request`: the arguments, and the requests.
* `Scheduler.Bench.host`, `Scheduler.Bench.system`: the host, and the system with the worker.
* `Scheduler.Bench.HostKnows`, `Scheduler.Bench.Serving`: what the host and the worker know.

## Main results

* `Scheduler.Bench.host_ok`, `Scheduler.Bench.worker_serves`: they know it in every run.

## References

* `bench/bench_gpu_scheduler.cu` lines 18–115, `cu/gpu_scheduler.cu`, `include/request.h`.
-/

namespace RolloutRuntime

open Concurrency RingBuffer

namespace Scheduler

namespace Bench

/-! ### The host -/

/-- The arguments of the benchmark: two values of type `int`. -/
structure Args where
  nRollouts : BitVec 32
  tokensPer : BitVec 32

/-- Request number `i`. The temperature is `1.0f` and the mass `0.9f`. -/
def Args.request (x : Args) (i : ℕ) : RolloutRequest where
  requestId := BitVec.ofNat 64 (i + 1)
  maxTokens := x.tokensPer
  kvBlocks := 4
  temperature := 0x3F800000
  topK := 50
  topP := 0x3F666666
  rngSeed := 42 + BitVec.ofNat 64 i

/-- The request that makes the worker return. -/
def sentinelRequest : RolloutRequest := ⟨sentinel, 0, 0, 0, 0, 0, 0⟩

/-- Where the host is: submitting request `i`, about to compare the number of notifications with the number
of requests, popping notifications, about to send the sentinel, or waiting for the device. -/
inductive Host
  | submitting (i : ℕ)
  | counting (completed : ℕ)
  | popping (completed : ℕ)
  | stopping
  | synchronizing

/-- A pass of the host. The number of requests is converted to an unsigned one for the comparison. -/
def host (x : Args) : Host → Prog Access Mem Host
  | .submitting i =>
    if (i : ℤ) < x.nRollouts.toInt then do
      if ← onReq (submitRequest (x.request i)) then return .submitting (i + 1)
      return .submitting i
    else return .counting 0
  | .counting completed =>
    if completed < (x.nRollouts.signExtend 64).toNat then return .popping completed
    else return .stopping
  | .popping completed => do
    match ← onDone doneRingPop with
    | none => return .counting completed
    | some _ => return .popping (completed + 1)
  | .stopping => do
    if ← onReq (submitRequest sentinelRequest) then return .synchronizing
    return .stopping
  | .synchronizing => return .synchronizing

/-! ### The threads -/

/-- The two threads. -/
inductive Thread
  | host
  | worker
  deriving DecidableEq

/-- What a thread keeps between its passes. -/
def Local : Thread → Type
  | .host => Host
  | .worker => Phase

/-- The host and the worker. -/
def system (x : Args) : System Thread Access Mem Local (fun _ => Unit) where
  effect := Access.effect
  start
    | .host, l, _ => host x l
    | .worker, l, _ => rolloutWorker l

/-- Zeroed rings and a zeroed device, and threads that have not started. -/
def init (z : RolloutRequest) (z' : RolloutDone) : Config Thread Access Mem Local :=
  .rest ⟨Ring.zeroed 32 10 z, Ring.zeroed 32 10 z', .zeroed, 0⟩ fun
    | .host => Host.submitting 0
    | .worker => Phase.top

/-! ### The rules -/

/-- The first `i` requests. -/
def Args.requests (x : Args) (i : ℕ) : List RolloutRequest := (List.range i).map x.request

/-- The number of requests, none if it is given as a negative one. -/
def Args.total (x : Args) : ℕ := x.nRollouts.toInt.toNat

section Args

variable (x : Args)

theorem Args.requests_succ (i : ℕ) : x.requests (i + 1) = x.requests i ++ [x.request i] := by
  rw [requests, requests, List.range_succ, List.map_append]
  rfl

theorem Args.length_requests (i : ℕ) : (x.requests i).length = i := by
  rw [requests, List.length_map, List.length_range]

theorem Args.requests_isPrefix {i j : ℕ} (h : i ≤ j) : x.requests i <+: x.requests j := by
  obtain ⟨d, rfl⟩ := Nat.exists_eq_add_of_le h
  rw [requests, requests, List.range_add, List.map_append]
  exact List.prefix_append _ _

theorem Args.total_lt : x.total < 2 ^ 31 := by
  have hlt := x.nRollouts.toInt_lt
  rw [total]
  omega

theorem Args.toInt_signExtend : (x.nRollouts.signExtend 64).toInt = x.nRollouts.toInt :=
  BitVec.toInt_signExtend_of_le (by decide)

/-- The conversion to an unsigned number makes a negative one larger than every count. -/
theorem Args.toInt_eq_total (h : (x.nRollouts.signExtend 64).toNat ≤ x.total) :
    x.nRollouts.toInt = x.total := by
  have hcast := BitVec.toInt_eq_toNat_cond (x.nRollouts.signExtend 64)
  have hlt := x.nRollouts.toInt_lt
  rw [x.toInt_signExtend] at hcast
  rw [total] at h ⊢
  split_ifs at hcast <;> omega

end Args

/-- What may have been submitted: the requests in order, and the sentinel after them if as many
notifications have been popped. -/
def Args.Submits (x : Args) (popped : ℕ) (l : List RolloutRequest) : Prop :=
  l <+: x.requests x.total ++ [sentinelRequest] ∧
    (x.total < l.length → (x.nRollouts.signExtend 64).toNat ≤ popped)

/-- The rings are in order, and nothing unexpected was submitted. -/
structure Inv (x : Args) (s : Mem) : Prop where
  rings : s.Inv
  submitted : x.Submits s.doneRing.taken.length s.reqRing.published

/-- What a thread relies on. -/
def RelyOn : Thread → Mem → Mem → Prop
  | .host, s, s' => Rely .producer s.reqRing s'.reqRing ∧ Rely .consumer s.doneRing s'.doneRing
  | .worker, s, s' => Scheduler.RelyOn .worker s s'

/-- What a thread may do. -/
def Permitted (x : Args) : Thread → Access → Mem → Prop
  | .host, .req o, s => May (x.Submits s.doneRing.taken.length) .producer o s.reqRing
  | .host, .done o, s => May (unguarded _) .consumer o s.doneRing
  | .host, _, _ => False
  | .worker, o, s => Scheduler.Permitted .worker o s

section Steps

variable {x : Args} {i : Thread} {o : Access} {s : Mem}

/-- Who does it, one of the parts of the scheduler may do it. -/
theorem Permitted.exists_part (h : Permitted x i o s) : ∃ j, Scheduler.Permitted j o s := by
  cases i with
  | host =>
    cases o with
    | req o => exact ⟨.submitter, May.mono h fun _ _ => trivial⟩
    | done o => exact ⟨.poller, h⟩
    | loadState | storeState | countStep => exact h.elim
  | worker => exact ⟨.worker, h⟩

theorem Permitted.inv (hs : Inv x s) (h : Permitted x i o s) : Inv x (o.effect s) := by
  obtain ⟨j, hj⟩ := h.exists_part
  refine ⟨permitted_inv hs.rings hj, ?_⟩
  obtain ⟨hexpected, hended⟩ := hs.submitted
  cases i with
  | host =>
    cases o with
    | req o => exact May.guard h hs.submitted
    | done o =>
      have hle : s.doneRing.taken.length ≤ (o.effect s.doneRing).taken.length :=
        (May.rely_producer h).taken_isPrefix.length_le
      exact ⟨hexpected, fun hlt => (hended hlt).trans hle⟩
    | loadState | storeState | countStep => exact h.elim
  | worker =>
    cases o with
    | req o =>
      have hpub : (o.effect s.reqRing).published = s.reqRing.published :=
        (May.rely_producer h).published_eq
      simpa only [Access.effect, hpub] using hs.submitted
    | done o =>
      have htaken : (o.effect s.doneRing).taken = s.doneRing.taken := (May.rely_consumer h).taken_eq
      simpa only [Access.effect, htaken] using hs.submitted
    | loadState | storeState | countStep => exact hs.submitted

theorem Permitted.rely {j : Thread} (hij : i ≠ j) (h : Permitted x i o s) :
    RelyOn j s (o.effect s) := by
  cases i with
  | host =>
    cases j with
    | host => exact absurd rfl hij
    | worker =>
      cases o with
      | req o =>
        have hreq : Scheduler.Permitted .submitter (.req o) s := May.mono h fun _ _ => trivial
        exact permitted_rely (j := .worker) (by decide) hreq
      | done o => exact permitted_rely (i := .poller) (j := .worker) (by decide) h
      | loadState | storeState | countStep => exact h.elim
  | worker =>
    cases j with
    | host =>
      exact ⟨permitted_rely (i := .worker) (j := .submitter) (by decide) h,
        permitted_rely (i := .worker) (j := .poller) (by decide) h⟩
    | worker => exact absurd rfl hij

end Steps

/-- The discipline of the benchmark. -/
def discipline (x : Args) : Discipline Thread Access Mem where
  effect := Access.effect
  inv := Inv x
  rely := RelyOn
  cond _ _ _ := True
  may := Permitted x
  rely_refl i s := by
    cases i with
    | host => exact ⟨Rely.refl .producer s.reqRing, Rely.refl .consumer s.doneRing⟩
    | worker => exact rules.rely_refl .worker s
  rely_trans i _ _ _ h h' := by
    cases i with
    | host => exact ⟨h.1.trans h'.1, h.2.trans h'.2⟩
    | worker => exact rules.rely_trans .worker h h'
  inv_effect hs _ h := h.inv hs
  rely_effect hij _ _ h := h.rely hij

/-! ### The host -/

section Host

variable {x : Args} {s : Mem}

theorem submitRequest_ok (hs : Inv x s) {req : RolloutRequest}
    (hreq : x.Submits s.doneRing.taken.length (s.reqRing.published ++ [req])) :
    (discipline x).Ok .host
      (fun ok s' => s'.reqRing.published = s.reqRing.published ++ (if ok then [req] else []) ∧
        s'.doneRing.taken = s.doneRing.taken)
      (onReq (submitRequest req)) s := by
  have hsubmit : (spsc 32 10 (x.Submits s.doneRing.taken.length)).Ok .producer
      (fun ok r' => r'.published = s.reqRing.published ++ (if ok then [req] else []) ∧
        r'.overflow = s.reqRing.overflow + refusals reqRingProducer !ok)
      (submitRequest req) s.reqRing := by
    rw [submitRequest_eq]
    exact submit_ok (by decide) (roomSound_spaceTest (by decide) false false _) (by simp)
      hs.rings.reqRing hreq
  have hzoom := (discipline x).ok_zoom (i := .host) _ .req Mem.reqRing
    (fun s' => s'.doneRing.taken = s.doneRing.taken) hsubmit rfl
    (fun _ _ => rfl) (fun _ hs => hs.rings.reqRing) (fun _ _ hr => hr.1) (fun _ _ _ _ => trivial)
    ?_ ?_ (fun _ _ hF => hF)
  · refine Discipline.ok_mono _ hzoom ?_
    rintro ok s' - ⟨hpub, htaken⟩
    exact ⟨hpub.1, htaken⟩
  · intro o s' _ hF hm
    change May (x.Submits s'.doneRing.taken.length) .producer o s'.reqRing
    rwa [hF]
  · rintro s₁ s₂ hF ⟨-, hr⟩
    exact hr.taken_eq.trans hF

theorem doneRingPop_ok :
    (discipline x).Ok .host
      (fun d s' => s'.doneRing.taken = s.doneRing.taken ++ d.toList ∧
        s'.reqRing.published = s.reqRing.published)
      (onDone doneRingPop) s := by
  have hpop : (spsc 32 10 (unguarded _)).Ok .consumer _ doneRingPop s.doneRing :=
    consume_ok (by decide) emptySound_orderedEmpty
  have hzoom := (discipline x).ok_zoom (i := .host) _ .done Mem.doneRing
    (fun s' => s'.reqRing.published = s.reqRing.published) hpop rfl
    (fun _ _ => rfl) (fun _ hs => hs.rings.doneRing) (fun _ _ hr => hr.2) (fun _ _ _ _ => trivial)
    (fun _ _ _ _ hm => hm) ?_ (fun _ _ hF => hF)
  · exact hzoom
  · rintro s₁ s₂ hF ⟨hr, -⟩
    exact hr.published_eq.trans hF

/-- What the host knows between its passes: what it has submitted, and what it has popped. -/
def HostKnows (x : Args) : Host → Mem → Prop
  | .submitting i, s => i ≤ x.total ∧ s.reqRing.published = x.requests i ∧ s.doneRing.taken = []
  | .counting completed, s => s.reqRing.published = x.requests x.total ∧
      s.doneRing.taken.length = completed
  | .popping completed, s => s.reqRing.published = x.requests x.total ∧
      s.doneRing.taken.length = completed
  | .stopping, s => s.reqRing.published = x.requests x.total ∧
      (x.nRollouts.signExtend 64).toNat ≤ s.doneRing.taken.length
  | .synchronizing, s => (x.nRollouts.signExtend 64).toNat ≤ s.doneRing.taken.length

theorem HostKnows.rely {l : Host} {s' : Mem} (h : HostKnows x l s) (hr : RelyOn .host s s') :
    HostKnows x l s' := by
  obtain ⟨hreq, hdone⟩ := hr
  have hpub := hreq.published_eq
  have htaken := hdone.taken_eq
  cases l <;> simpa only [HostKnows, hpub, htaken] using h

theorem host_ret_ok {l : Host} (h : HostKnows x l s) :
    (discipline x).Ok .host (HostKnows x) (.ret l) s :=
  fun _ hr _ => h.rely hr

theorem host_submitting_ok (hs : Inv x s) {i : ℕ} (hl : HostKnows x (.submitting i) s) :
    (discipline x).Ok .host (HostKnows x) (host x (.submitting i)) s := by
  obtain ⟨hle, hpub, htaken⟩ := hl
  rw [host]
  split_ifs with hi
  · have hlt : i < x.total := by
      rw [Args.total]
      omega
    have hnext : x.Submits s.doneRing.taken.length (s.reqRing.published ++ [x.request i]) := by
      rw [hpub, ← x.requests_succ]
      refine ⟨(x.requests_isPrefix hlt).trans (List.prefix_append _ _), fun hlong => ?_⟩
      rw [x.length_requests] at hlong
      omega
    refine Discipline.ok_bind _ hs (submitRequest_ok hs hnext) ?_
    rintro ok s₁ - ⟨hpub₁, htaken₁⟩
    rw [hpub] at hpub₁
    rw [htaken] at htaken₁
    cases ok with
    | false => exact host_ret_ok (l := .submitting i) ⟨hle, by simpa using hpub₁, htaken₁⟩
    | true =>
      refine host_ret_ok (l := .submitting (i + 1)) ⟨hlt, ?_, htaken₁⟩
      rw [x.requests_succ]
      exact hpub₁
  · have hall : i = x.total := by
      rw [Args.total] at hle ⊢
      omega
    subst hall
    exact host_ret_ok (l := .counting 0) ⟨hpub, by rw [htaken]; rfl⟩

theorem host_popping_ok (hs : Inv x s) {completed : ℕ} (hl : HostKnows x (.popping completed) s) :
    (discipline x).Ok .host (HostKnows x) (host x (.popping completed)) s := by
  obtain ⟨hpub, hcount⟩ := hl
  refine Discipline.ok_bind _ hs doneRingPop_ok ?_
  rintro d s₁ - ⟨htaken, hpub₁⟩
  have hcount₁ : s₁.doneRing.taken.length = completed + d.toList.length := by
    rw [htaken, List.length_append, hcount]
  cases d with
  | none => exact host_ret_ok (l := .counting completed) ⟨hpub₁.trans hpub, hcount₁⟩
  | some d => exact host_ret_ok (l := .popping (completed + 1)) ⟨hpub₁.trans hpub, hcount₁⟩

theorem host_stopping_ok (hs : Inv x s) (hl : HostKnows x .stopping s) :
    (discipline x).Ok .host (HostKnows x) (host x .stopping) s := by
  obtain ⟨hpub, hcount⟩ := hl
  have hnext : x.Submits s.doneRing.taken.length (s.reqRing.published ++ [sentinelRequest]) := by
    rw [hpub]
    exact ⟨List.prefix_rfl, fun _ => hcount⟩
  refine Discipline.ok_bind _ hs (submitRequest_ok hs hnext) ?_
  rintro ok s₁ - ⟨hpub₁, htaken₁⟩
  rw [← htaken₁] at hcount
  cases ok with
  | false =>
    refine host_ret_ok (l := .stopping) ⟨?_, hcount⟩
    simpa [hpub] using hpub₁
  | true => exact host_ret_ok (l := .synchronizing) hcount

/-- **Every pass of the host** obeys the rules. -/
theorem host_ok (l : Host) (hs : Inv x s) (hl : HostKnows x l s) :
    (discipline x).Ok .host (HostKnows x) (host x l) s := by
  cases l with
  | submitting i => exact host_submitting_ok hs hl
  | counting completed =>
    rw [host]
    split_ifs with hlt
    · exact host_ret_ok (l := .popping completed) hl
    · refine host_ret_ok (l := .stopping) ⟨hl.1, ?_⟩
      rw [hl.2]
      exact not_lt.mp hlt
  | popping completed => exact host_popping_ok hs hl
  | stopping => exact host_stopping_ok hs hl
  | synchronizing => exact host_ret_ok hl

end Host

end Bench

end Scheduler

end RolloutRuntime
