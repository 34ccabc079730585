import RolloutRuntime.Fastpath.EndToEnd

/-!
# The benchmark of the hardware fast path

The benchmark pushes decode requests to `cmdq` while one worker serves them. It rings the doorbell only
after every `batch_size`-th request and after the last one. When `cmdq` is full it pops what is in `doneq`
before it tries again, and it also does so after every 256th request. When all requests are submitted it
waits until it has popped as many descriptors, prints its figures, pushes a stop descriptor and joins the
worker.

The indices of the loop and the number of descriptors popped stay below `2 ^ 32` and are natural numbers.
The times that are measured, the allocations and what is printed are left out.

## Main definitions

* `Hw.Bench.Args`, `Hw.Bench.makeDecodeDesc`: the arguments, and the requests.
* `Hw.Bench.host`, `Hw.Bench.system`: the host, and the system with the worker.
* `Hw.Bench.discipline`: the discipline of the two threads.

## Main results

* `Hw.Bench.host_ok`, `Hw.Bench.good_run`: what the host knows in every run.

## References

* `bench/bench_hw_fastpath.c` lines 18–166, `src/hw_worker_sim.c`, `include/hw_ring.h`, `include/mmio.h`.
-/

namespace RolloutRuntime

open Concurrency RingBuffer

namespace Hw

namespace Bench

/-! ### The host -/

/-- The arguments of `run_batch_benchmark`. The source divides by the size of a batch. -/
structure Args where
  batchSize : BitVec 32
  iterations : BitVec 32
  batchSize_pos : 0 < batchSize.toNat

/-- The number of requests. -/
def Args.total (x : Args) : ℕ := x.iterations.toNat

/-- A decode request. -/
def makeDecodeDesc (rolloutId : BitVec 32) : HwDesc where
  opcode := descOpDecode
  flags := 0
  rolloutId := rolloutId
  kvArenaId := 1
  prefixId := 0
  kvOffset := rolloutId.setWidth 64 <<< 12
  deltaOffset := rolloutId.setWidth 64 <<< 8
  seqLen := rolloutId &&& 7
  maxTokens := 128
  rewardModelId := 0
  reserved0 := 0
  userData := rolloutId.setWidth 64
  checksumOrCookie := (rolloutId.setWidth 64 <<< 12) ^^^ (rolloutId.setWidth 64 <<< 8)

/-- The descriptor that makes the worker return. -/
def stopDesc : HwDesc := ⟨descOpStop, 0, 0, 0, 0, 0, 0, 0, 0, 0, 0, 0, 0⟩

/-- Where the host is: about to submit request `i`, popping finished descriptors before it submits
request `i`, waiting for the last ones, about to push the stop descriptor, or joining the worker. -/
inductive Host
  | submitting (i completed : ℕ)
  | draining (i completed : ℕ)
  | waiting (completed : ℕ)
  | stopping
  | joining

/-- The doorbell gets the producer index of `cmdq`, loaded again. -/
def ringDoorbell : Prog Access Mem Unit := do
  let tail ← Prog.load (.cmd .loadProd) (·.cmdq.prod)
  Prog.exec (.storeDoorbell tail)

/-- Whether the doorbell is rung after the first `i` requests. -/
def Args.Rings (x : Args) (i : ℕ) : Prop := i % x.batchSize.toNat = 0 ∨ i = x.total

instance (x : Args) (i : ℕ) : Decidable (x.Rings i) := inferInstanceAs (Decidable (_ ∨ _))

/-- Ring the doorbell if it is due. -/
def ringIfDue (x : Args) (i : ℕ) : Prog Access Mem Unit :=
  if x.Rings i then ringDoorbell else return ()

/-- Where the host goes after the first `i` requests. -/
def afterSubmit (i completed : ℕ) : Host :=
  if i % 256 = 0 then .draining i completed else .submitting i completed

/-- A pass of the host. -/
def host (x : Args) : Host → Prog Access Mem Host
  | .submitting i completed =>
    if i < x.total then do
      if ← onCmdq (hwRingPush (makeDecodeDesc (BitVec.ofNat 32 (i + 1)))) then
        ringIfDue x (i + 1)
        return afterSubmit (i + 1) completed
      else return .draining i completed
    else return .waiting completed
  | .draining i completed => do
    match ← onDoneq hwRingPop with
    | none => return .submitting i completed
    | some _ => return .draining i (completed + 1)
  | .waiting completed =>
    if completed < x.total then do
      match ← onDoneq hwRingPop with
      | none => return .waiting completed
      | some _ => return .waiting (completed + 1)
    else return .stopping
  | .stopping => do
    if ← onCmdq (hwRingPush stopDesc) then
      ringDoorbell
      return .joining
    else return .stopping
  | .joining => return .joining

/-! ### The threads -/

/-- The two threads. Nobody stores the stop flag. -/
inductive Thread
  | host
  | worker
  deriving DecidableEq

/-- The thread as one of those of the fast path. -/
def Thread.party : Thread → Party
  | .host => .host
  | .worker => .worker

/-- What a thread keeps between its passes. -/
def Local : Thread → Type
  | .host => Host
  | .worker => WorkerSim

/-- The host and the worker. -/
def system (x : Args) : System Thread Access Mem Local (fun _ => Unit) where
  effect := Access.effect
  start
    | .host, l, _ => host x l
    | .worker, l, _ => hwWorkerSim l

/-- Zeroed rings, `z` being the zeroed descriptor, and threads that have not started. -/
def init (z : HwDesc) : Config Thread Access Mem Local :=
  .rest ⟨Ring.zeroed 32 16 z, Ring.zeroed 32 16 z, 0, 0⟩ fun
    | .host => Host.submitting 0 0
    | .worker => (⟨.top, 0, 0⟩ : WorkerSim)

/-! ### The rules -/

/-- The first `i` requests. -/
def requests (i : ℕ) : List HwDesc :=
  (List.range i).map fun k => makeDecodeDesc (BitVec.ofNat 32 (k + 1))

theorem requests_succ (i : ℕ) :
    requests (i + 1) = requests i ++ [makeDecodeDesc (BitVec.ofNat 32 (i + 1))] := by
  rw [requests, requests, List.range_succ, List.map_append]
  rfl

@[simp] theorem length_requests (i : ℕ) : (requests i).length = i := by
  rw [requests, List.length_map, List.length_range]

theorem requests_isPrefix {i j : ℕ} (h : i ≤ j) : requests i <+: requests j := by
  obtain ⟨d, rfl⟩ := Nat.exists_eq_add_of_le h
  rw [requests, requests, List.range_add, List.map_append]
  exact List.prefix_append _ _

theorem mem_requests {i : ℕ} {d : HwDesc} (h : d ∈ requests i) :
    ∃ k < i, d = makeDecodeDesc (BitVec.ofNat 32 (k + 1)) := by
  obtain ⟨k, hk, rfl⟩ := List.mem_map.mp h
  exact ⟨k, List.mem_range.mp hk, rfl⟩

/-- What may have been submitted: the requests in order, and the stop descriptor after them if as many
descriptors have been popped. -/
def Args.Submits (x : Args) (popped : ℕ) (l : List HwDesc) : Prop :=
  l <+: requests x.total ++ [stopDesc] ∧ (x.total < l.length → x.total ≤ popped)

/-- The rings are in order, nothing unexpected was submitted, and the stop flag is not set. -/
structure Inv (x : Args) (s : Mem) : Prop where
  rings : s.Inv
  submitted : x.Submits s.doneq.taken.length s.cmdq.published
  stop : s.stop = 0

/-- What a thread relies on. -/
def RelyOn (i : Thread) (s s' : Mem) : Prop := Hw.RelyOn i.party s s'

/-- What a thread may do. -/
def Permitted (x : Args) : Thread → Access → Mem → Prop
  | .host, .cmd o, s => May (x.Submits s.doneq.taken.length) .producer o s.cmdq
  | i, o, s => Hw.Permitted i.party o s

section Steps

variable {x : Args} {i j : Thread} {o : Access} {s : Mem}

theorem Permitted.party (h : Permitted x i o s) : Hw.Permitted i.party o s := by
  cases i with
  | host =>
    cases o with
    | cmd o => exact May.mono h fun _ _ => trivial
    | done | loadStop | storeStop | storeDoorbell => exact h
  | worker => exact h

theorem Permitted.inv (hs : Inv x s) (h : Permitted x i o s) : Inv x (o.effect s) := by
  refine ⟨permitted_inv hs.rings h.party, ?_, ?_⟩
  · obtain ⟨hexpected, hstop⟩ := hs.submitted
    cases i with
    | host =>
      cases o with
      | cmd o => exact May.guard h hs.submitted
      | done o =>
        have hmay : May (unguarded _) .consumer o s.doneq := h
        refine ⟨hexpected, fun hlt => (hstop hlt).trans ?_⟩
        exact hmay.rely_producer.taken_isPrefix.length_le
      | storeDoorbell v => exact hs.submitted
      | loadStop | storeStop => exact h.elim
    | worker =>
      have hrely : Hw.RelyOn .host s (o.effect s) := permitted_rely (i := .worker) (by decide) h
      rw [hrely.1.published_eq, hrely.2.1.taken_eq]
      exact hs.submitted
  · cases o with
    | cmd | done | loadStop | storeDoorbell => exact hs.stop
    | storeStop v => cases i <;> exact h.elim

theorem Permitted.rely (hij : i ≠ j) (h : Permitted x i o s) : RelyOn j s (o.effect s) := by
  refine permitted_rely (i := i.party) ?_ h.party
  cases i <;> cases j <;> first | exact absurd rfl hij | decide

end Steps

/-- The discipline of the benchmark. -/
def discipline (x : Args) : Discipline Thread Access Mem where
  effect := Access.effect
  inv := Inv x
  rely := RelyOn
  cond _ _ _ := True
  may := Permitted x
  rely_refl i s := fastpath.rely_refl i.party s
  rely_trans i _ _ _ h h' := fastpath.rely_trans i.party h h'
  inv_effect hs _ h := h.inv hs
  rely_effect hij _ _ h := h.rely hij

/-! ### The host obeys the discipline -/

section Zoom

variable {x : Args} {α : Type} {Q : α → HwRing → Prop} {p : Prog (Op 32 HwDesc) HwRing α} {s : Mem}

theorem onCmdq_ok (h : (spsc 32 16 (x.Submits s.doneq.taken.length)).Ok .producer Q p s.cmdq) :
    (discipline x).Ok .host
      (fun a s' => Q a s'.cmdq ∧ s'.doneq.taken = s.doneq.taken ∧ s'.doorbell = s.doorbell)
      (onCmdq p) s := by
  refine (discipline x).ok_zoom (i := .host) (spsc 32 16 (x.Submits s.doneq.taken.length)) .cmd Mem.cmdq
    (fun s' => s'.doneq.taken = s.doneq.taken ∧ s'.doorbell = s.doorbell) h ⟨rfl, rfl⟩ (fun _ _ => rfl)
    (fun _ hs => hs.rings.cmdq) (fun _ _ hr => hr.1) (fun _ _ _ _ => trivial) (fun o s' _ hF hm => ?_)
    (fun _ _ hF hr => ⟨hr.2.1.taken_eq.trans hF.1, hr.2.2.trans hF.2⟩) (fun _ _ hF => hF)
  change May (x.Submits s'.doneq.taken.length) .producer o s'.cmdq
  rw [hF.1]
  exact hm

theorem onDoneq_ok (h : (spsc 32 16 (unguarded _)).Ok .consumer Q p s.doneq) :
    (discipline x).Ok .host
      (fun a s' => Q a s'.doneq ∧ s'.cmdq.published = s.cmdq.published ∧ s'.doorbell = s.doorbell)
      (onDoneq p) s :=
  (discipline x).ok_zoom (i := .host) (spsc 32 16 (unguarded _)) .done Mem.doneq
    (fun s' => s'.cmdq.published = s.cmdq.published ∧ s'.doorbell = s.doorbell) h ⟨rfl, rfl⟩
    (fun _ _ => rfl) (fun _ hs => hs.rings.doneq) (fun _ _ hr => hr.2.1) (fun _ _ _ _ => trivial)
    (fun _ _ _ _ hm => hm) (fun _ _ hF hr => ⟨hr.1.published_eq.trans hF.1, hr.2.2.trans hF.2⟩)
    (fun _ _ hF => hF)

theorem hwRingPush_ok (hs : Inv x s) {d : HwDesc}
    (hd : x.Submits s.doneq.taken.length (s.cmdq.published ++ [d])) :
    (discipline x).Ok .host
      (fun ok s' => s'.cmdq.published = s.cmdq.published ++ (if ok then [d] else []) ∧
        s'.doneq.taken = s.doneq.taken ∧ s'.doorbell = s.doorbell)
      (onCmdq (hwRingPush d)) s := by
  refine Discipline.ok_mono _ (onCmdq_ok (push_ok (by decide) roomSound_hwRing hs.rings.cmdq hd)) ?_
  rintro ok s' - ⟨⟨hpub, -⟩, hrest⟩
  exact ⟨hpub, hrest⟩

end Zoom

/-- What was submitted, how many descriptors were popped, and how many requests the doorbell announces. -/
structure Progress (s : Mem) (submitted : List HwDesc) (completed announced : ℕ) : Prop where
  published : s.cmdq.published = submitted
  taken : s.doneq.taken.length = completed
  doorbell : s.doorbell = BitVec.ofNat 32 announced

/-- The number of requests the doorbell announces when `i` requests are submitted. -/
def Args.announced (x : Args) (i : ℕ) : ℕ :=
  if i = x.total then i else i / x.batchSize.toNat * x.batchSize.toNat

theorem Args.announced_total (x : Args) : x.announced x.total = x.total := if_pos rfl

/-- Where the doorbell is rung, it announces all requests submitted. -/
theorem Args.announced_of_rings {x : Args} {i : ℕ} (h : x.Rings i) : x.announced i = i := by
  rw [announced]
  split_ifs with htotal
  · rfl
  · exact Nat.div_mul_cancel (Nat.dvd_of_mod_eq_zero (h.resolve_right htotal))

/-- Where it is not, nothing new is announced. -/
theorem Args.announced_of_not_rings {x : Args} {i : ℕ} (hi : i < x.total) (h : ¬ x.Rings (i + 1)) :
    x.announced (i + 1) = x.announced i := by
  rw [Rings, not_or] at h
  rw [announced, announced, if_neg h.2, if_neg hi.ne,
    Nat.succ_div_of_not_dvd fun hdvd => h.1 (Nat.mod_eq_zero_of_dvd hdvd)]

/-- What the host knows between its passes. -/
def HostKnows (x : Args) : Host → Mem → Prop
  | .submitting i completed, s => i ≤ x.total ∧ Progress s (requests i) completed (x.announced i)
  | .draining i completed, s => i ≤ x.total ∧ Progress s (requests i) completed (x.announced i)
  | .waiting completed, s => Progress s (requests x.total) completed x.total
  | .stopping, s => ∃ completed ≥ x.total, Progress s (requests x.total) completed x.total
  | .joining, s => ∃ completed ≥ x.total,
      Progress s (requests x.total ++ [stopDesc]) completed (x.total + 1)

section Host

variable {x : Args} {s s' : Mem} {submitted : List HwDesc} {completed announced : ℕ}

theorem Progress.rely (h : Progress s submitted completed announced) (hr : RelyOn .host s s') :
    Progress s' submitted completed announced := by
  obtain ⟨hcmd, hdone, hbell⟩ := hr
  exact ⟨hcmd.published_eq.trans h.published, (congrArg _ hdone.taken_eq).trans h.taken,
    hbell.trans h.doorbell⟩

theorem HostKnows.rely {l : Host} (h : HostKnows x l s) (hr : RelyOn .host s s') :
    HostKnows x l s' := by
  cases l with
  | submitting i completed | draining i completed => exact ⟨h.1, h.2.rely hr⟩
  | waiting completed => exact Progress.rely h hr
  | stopping | joining =>
    obtain ⟨completed, hle, h⟩ := h
    exact ⟨completed, hle, h.rely hr⟩

theorem host_ret_ok {l : Host} (h : HostKnows x l s) :
    (discipline x).Ok .host (HostKnows x) (.ret l) s :=
  fun _ hr _ => h.rely hr

theorem ringDoorbell_ok (h : Progress s submitted completed announced) :
    (discipline x).Ok .host (fun _ s' => Progress s' submitted completed submitted.length)
      ringDoorbell s := by
  intro s₁ hr₁ hs₁ _
  refine ⟨trivial, fun s₂ hr₂ _ _ => ⟨trivial, fun s₃ hr₃ _ => Progress.rely ?_ hr₃⟩⟩
  have h₁ := h.rely hr₁
  obtain ⟨hpub, htaken, -⟩ := h₁.rely hr₂
  refine ⟨hpub, htaken, ?_⟩
  rw [← h₁.published]
  exact hs₁.rings.cmdq.prod_eq

theorem ringIfDue_ok {i : ℕ} (hi : i < x.total)
    (h : Progress s (requests (i + 1)) completed (x.announced i)) :
    (discipline x).Ok .host
      (fun _ s' => Progress s' (requests (i + 1)) completed (x.announced (i + 1)))
      (ringIfDue x (i + 1)) s := by
  rw [ringIfDue]
  split_ifs with hdue
  · have hring := ringDoorbell_ok (x := x) h
    rw [length_requests] at hring
    rwa [Args.announced_of_rings hdue]
  · rw [Args.announced_of_not_rings hi hdue]
    exact fun _ hr _ => h.rely hr

theorem hwRingPop_ok (h : Progress s submitted completed announced) :
    (discipline x).Ok .host
      (fun d s' => Progress s' submitted (completed + d.toList.length) announced)
      (onDoneq hwRingPop) s := by
  refine Discipline.ok_mono _ (onDoneq_ok (consume_ok (by decide) emptySound_eqEmpty)) ?_
  rintro d s' - ⟨htaken, hpub, hbell⟩
  refine ⟨hpub.trans h.published, ?_, hbell.trans h.doorbell⟩
  rw [htaken, List.length_append, h.taken]

theorem submits_request {i : ℕ} (hi : i < x.total) (h : HostKnows x (.submitting i completed) s) :
    x.Submits s.doneq.taken.length
      (s.cmdq.published ++ [makeDecodeDesc (BitVec.ofNat 32 (i + 1))]) := by
  rw [h.2.published, ← requests_succ]
  refine ⟨(requests_isPrefix hi).trans (List.prefix_append _ _), fun hmore => ?_⟩
  rw [length_requests] at hmore
  omega

/-- After all answers have been popped, so is the stop descriptor. -/
theorem submits_stop (h : HostKnows x .stopping s) :
    x.Submits s.doneq.taken.length (s.cmdq.published ++ [stopDesc]) := by
  obtain ⟨completed, hle, hprog⟩ := h
  rw [hprog.published]
  exact ⟨List.prefix_rfl, fun _ => hle.trans hprog.taken.ge⟩

theorem host_submitting_ok {i : ℕ} (hs : Inv x s) (h : HostKnows x (.submitting i completed) s) :
    (discipline x).Ok .host (HostKnows x) (host x (.submitting i completed)) s := by
  obtain ⟨hi, hprog⟩ := h
  rw [host]
  split_ifs with hlt
  · refine Discipline.ok_bind _ hs (hwRingPush_ok hs (submits_request hlt ⟨hi, hprog⟩)) ?_
    rintro ok s₁ hs₁ ⟨hpub, htaken, hbell⟩
    have hlen := (congrArg List.length htaken).trans hprog.taken
    rw [hprog.published] at hpub
    cases ok with
    | false =>
      rw [if_neg (by decide), List.append_nil] at hpub
      exact host_ret_ok ⟨hi, hpub, hlen, hbell.trans hprog.doorbell⟩
    | true =>
      have hsub : Progress s₁ (requests (i + 1)) completed (x.announced i) := by
        refine ⟨?_, hlen, hbell.trans hprog.doorbell⟩
        rw [hpub, requests_succ]
        rfl
      refine Discipline.ok_bind _ hs₁ (ringIfDue_ok hlt hsub) ?_
      rintro - s₂ - hprog₂
      refine host_ret_ok ?_
      rw [afterSubmit]
      split_ifs
      · exact ⟨hlt, hprog₂⟩
      · exact ⟨hlt, hprog₂⟩
  · obtain rfl : i = x.total := by omega
    rw [x.announced_total] at hprog
    exact host_ret_ok hprog

theorem host_stopping_ok (hs : Inv x s) (h : HostKnows x .stopping s) :
    (discipline x).Ok .host (HostKnows x) (host x .stopping) s := by
  obtain ⟨completed, hle, hprog⟩ := h
  refine Discipline.ok_bind _ hs (hwRingPush_ok hs (submits_stop ⟨completed, hle, hprog⟩)) ?_
  rintro ok s₁ hs₁ ⟨hpub, htaken, hbell⟩
  have hlen := (congrArg List.length htaken).trans hprog.taken
  rw [hprog.published] at hpub
  cases ok with
  | false =>
    rw [if_neg (by decide), List.append_nil] at hpub
    exact host_ret_ok ⟨completed, hle, hpub, hlen, hbell.trans hprog.doorbell⟩
  | true =>
    refine Discipline.ok_bind _ hs₁ (ringDoorbell_ok ⟨hpub, hlen, hbell.trans hprog.doorbell⟩) ?_
    rintro - s₂ - hprog₂
    rw [List.length_append, length_requests] at hprog₂
    exact host_ret_ok ⟨completed, hle, hprog₂⟩

/-- A pass of the host. -/
theorem host_ok (l : Host) (hs : Inv x s) (h : HostKnows x l s) :
    (discipline x).Ok .host (HostKnows x) (host x l) s := by
  cases l with
  | submitting i completed => exact host_submitting_ok hs h
  | draining i completed =>
    refine Discipline.ok_bind _ hs (hwRingPop_ok h.2) ?_
    rintro d s₁ - hprog
    cases d <;> exact host_ret_ok ⟨h.1, hprog⟩
  | waiting completed =>
    rw [host]
    split_ifs with hlt
    · refine Discipline.ok_bind _ hs (hwRingPop_ok h) ?_
      rintro d s₁ - hprog
      cases d <;> exact host_ret_ok hprog
    · exact host_ret_ok ⟨completed, not_lt.mp hlt, h⟩
  | stopping => exact host_stopping_ok hs h
  | joining => exact host_ret_ok h

end Host

/-! ### Runs -/

/-- What the threads know between their passes. -/
def Known (x : Args) : (i : Thread) → Local i → Mem → Prop
  | .host, l, s => HostKnows x l s
  | .worker, l, s => WorkerSim.Knows l s

theorem start_ok (x : Args) (i : Thread) (l : Local i) (y : Unit) (s : Mem) (hs : Inv x s)
    (hl : Known x i l s) : (discipline x).Ok i (Known x i) ((system x).start i l y) s := by
  cases i with
  | host => exact host_ok l hs hl
  | worker =>
    exact (hwWorkerSim_ok l hs.rings hl).recast (discipline x) .worker rfl (fun _ hs => hs.rings)
      (fun _ _ hr => hr) (fun _ _ _ => trivial) fun _ _ hm => hm

theorem good_init (x : Args) (z : HwDesc) : (discipline x).Good (Known x) (init z) := by
  refine Discipline.good_rest _ ⟨⟨Ring.zeroed_inv z, Ring.zeroed_inv z, List.nil_prefix⟩, ?_, rfl⟩
    fun i s' hr _ => ?_
  · exact ⟨List.nil_prefix, fun h => absurd h (Nat.not_lt_zero _)⟩
  · cases i with
    | host =>
      refine HostKnows.rely (l := .submitting 0 0) ⟨Nat.zero_le _, rfl, rfl, ?_⟩ hr
      rw [Args.announced, Nat.zero_div, Nat.zero_mul, ite_self]
      rfl
    | worker => exact WorkerSim.Knows.rely ⟨rfl, fun d hd => by simp [Ring.zeroed] at hd, rfl⟩ hr

/-- Every configuration of the benchmark obeys the discipline. -/
theorem good_run (x : Args) (z : HwDesc) (es : List ((_ : Thread) × Unit)) :
    (discipline x).Good (Known x) ((system x).run (init z) es) :=
  Discipline.sound _ rfl (start_ok x) (good_init x z) ((system x).meets_true _ es)

end Bench

end Hw

end RolloutRuntime
