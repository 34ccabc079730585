import RolloutRuntime.Concurrency.Progress
import RolloutRuntime.Fastpath.BenchmarkRuns
import RolloutRuntime.Rings.Exact

/-!
# The benchmark of the fast path comes to its end

However many requests there are, the host and the worker are never stuck. The host that finds `cmdq` full
pops what is in `doneq`, so the worker can push the answer it holds and take one more request, and then
there is room in `cmdq`. While the host waits, the worker has a request to take or an answer to push
whenever `doneq` is empty. When the host has popped the last answer `cmdq` is empty and takes the stop
descriptor, and the worker finds it.

## Main definitions

* `Hw.Bench.Reached`, `Hw.Bench.Leads`: the places that some run reaches, and that a schedule leads from one
  to another.

## Main results

* `Hw.Bench.Reached.leads_submit`, `Hw.Bench.Reached.leads_answer`: the host submits one more request, and
  pops one more answer.
* `Hw.Bench.benchmark_not_blocked`: every run can be continued until both threads have returned.

## References

* `bench/bench_hw_fastpath.c` lines 84–158, `src/hw_worker_sim.c` lines 22–59, `include/hw_ring.h`
  lines 43–69.
-/

namespace RolloutRuntime

open Concurrency RingBuffer

namespace Hw

/-! ### The ring alone -/

section Ring

variable {r : HwRing}

theorem hwRingPush_run_of_lt (hr : r.Inv) (h : held r < 2 ^ 16) (d : HwDesc) :
    ∃ r', (hwRingPush d).run Op.effect r = (true, r') ∧ r'.published = r.published ++ [d] ∧
      r'.taken = r.taken := by
  have hroom : ¬ hwFullTest r.prod r.cons 1 = true := by
    rw [hwFullTest_iff hr]
    exact h.ne
  exact ⟨_, (push_run rfl d r).trans (if_neg hroom), rfl, rfl⟩

theorem hwRingPush_run_of_full (hr : r.Inv) (h : held r = 2 ^ 16) (d : HwDesc) :
    (hwRingPush d).run Op.effect r = (false, r) :=
  (push_run rfl d r).trans (if_pos ((hwFullTest_iff hr 1).mpr h))

theorem hwRingPop_run_of_pos (hr : r.Inv) (h : 0 < held r) :
    ∃ d r', hwRingPop.run Op.effect r = (some d, r') ∧ r.published[r.taken.length]? = some d ∧
      r'.published = r.published ∧ r'.taken = r.taken ++ [d] := by
  have hne : ¬ eqEmpty r.cons r.prod = true := by
    rw [eqEmpty_iff hr]
    exact h.ne'
  have hlt : r.taken.length < r.published.length := Nat.lt_of_sub_pos h
  exact ⟨_, _, (consume_run eqEmpty r).trans (if_neg hne), hr.oldest (by decide) hlt, rfl, rfl⟩

theorem hwRingPop_run_of_zero (hr : r.Inv) (h : held r = 0) :
    hwRingPop.run Op.effect r = (none, r) :=
  (consume_run eqEmpty r).trans (if_pos ((eqEmpty_iff hr).mpr h))

end Ring

namespace Bench

/-! ### Places and calls -/

/-- The local states of the two threads. -/
def places (l : Host) (w : WorkerSim) : (i : Thread) → Local i
  | .host => l
  | .worker => w

theorem update_places_host (l l' : Host) (w : WorkerSim) :
    Function.update (places l w) .host l' = places l' w := by
  funext i
  cases i with
  | host => exact Function.update_self _ _ _
  | worker => exact Function.update_of_ne (by decide) _ _

theorem update_places_worker (l : Host) (w w' : WorkerSim) :
    Function.update (places l w) .worker w' = places l w' := by
  funext i
  cases i with
  | host => exact Function.update_of_ne (by decide) _ _
  | worker => exact Function.update_self _ _ _

/-- Some run comes to rest there. -/
def Reached (x : Args) (z : HwDesc) (l : Host) (w : WorkerSim) (s : Mem) : Prop :=
  (system x).Arrives (init z) (places l w) s

/-- From one place the threads can go to another. -/
def Leads (x : Args) (l : Host) (w : WorkerSim) (s : Mem) (l' : Host) (w' : WorkerSim) (s' : Mem) : Prop :=
  (system x).Leads (places l w) s (places l' w') s'

section Places

variable {x : Args} {z : HwDesc} {l l₁ : Host} {w w₁ : WorkerSim} {s s₁ : Mem}

theorem Reached.leads (h : Reached x z l w s) (h' : Leads x l w s l₁ w₁ s₁) : Reached x z l₁ w₁ s₁ :=
  System.Arrives.leads h h'

theorem leads_host (h : (host x l).run Access.effect s = (l₁, s₁)) : Leads x l w s l₁ w s₁ := by
  have hcall := System.leads_call (S := system x) (l := places l w) (i := .host) () h
  rwa [update_places_host] at hcall

theorem leads_worker (h : (hwWorkerSim w).run Access.effect s = (w₁, s₁)) : Leads x l w s l w₁ s₁ := by
  have hcall := System.leads_call (S := system x) (l := places l w) (i := .worker) () h
  rwa [update_places_worker] at hcall

/-- What the threads know where they rest. -/
theorem Reached.known (h : Reached x z l w s) :
    Inv x s ∧ HostKnows x l s ∧ w.Knows s ∧ WorkerCounts w s () := by
  obtain ⟨es, hes⟩ := h
  have hgood := good_run x z es
  have hcounts := fun hworker => workerCounts_run x z es (l := w) hworker
  rw [hes] at hgood hcounts
  exact ⟨hgood.1, hgood.rest (i := .host) rfl, hgood.rest (i := .worker) rfl, hcounts rfl⟩

end Places

/-! ### Passes of the host -/

section Host

variable {x : Args} {z : HwDesc} {w : WorkerSim} {s : Mem} {i c : ℕ}

theorem draining_run_of_pos (hs : Inv x s) (h : 0 < held s.doneq) :
    ∃ s', (host x (.draining i c)).run Access.effect s = (.draining i (c + 1), s') ∧
      s'.cmdq = s.cmdq ∧ held s'.doneq = held s.doneq - 1 := by
  obtain ⟨d, r', hrun, -, hpub, htaken⟩ := hwRingPop_run_of_pos hs.rings.doneq h
  refine ⟨{ s with doneq := r' }, ?_, rfl, ?_⟩
  · rw [host, Prog.run_bind, onDoneq_run, hrun]
    rfl
  · rw [held, hpub, htaken, List.length_append]
    exact Nat.sub_add_eq _ _ _

theorem draining_run_of_zero (hs : Inv x s) (h : held s.doneq = 0) :
    (host x (.draining i c)).run Access.effect s = (.submitting i c, s) := by
  rw [host, Prog.run_bind, onDoneq_run, hwRingPop_run_of_zero hs.rings.doneq h]
  rfl

/-- **The host drains `doneq`.** -/
theorem Reached.leads_drained (h : Reached x z (.draining i c) w s) :
    ∃ c' s', Leads x (.draining i c) w s (.submitting i c') w s' ∧ s'.cmdq = s.cmdq ∧
      held s'.doneq = 0 := by
  obtain ⟨m, hm⟩ : ∃ m, held s.doneq = m := ⟨_, rfl⟩
  induction m generalizing c s with
  | zero => exact ⟨c, s, leads_host (draining_run_of_zero h.known.1 hm), rfl, hm⟩
  | succ m ih =>
    obtain ⟨s₁, hrun, hcmd, hheld⟩ := draining_run_of_pos (i := i) (c := c) h.known.1 (by omega)
    obtain ⟨c', s', hleads, hcmd', hzero⟩ := ih (h.leads (leads_host hrun)) (by omega)
    exact ⟨c', s', (leads_host hrun).trans hleads, hcmd'.trans hcmd, hzero⟩

theorem submitting_run_of_lt (hs : Inv x s) (hi : i < x.total) (h : held s.cmdq < 2 ^ 16) :
    ∃ s', (host x (.submitting i c)).run Access.effect s = (afterSubmit (i + 1) c, s') := by
  obtain ⟨r', hrun, -, -⟩ := hwRingPush_run_of_lt hs.rings.cmdq h (makeDecodeDesc (BitVec.ofNat 32 (i + 1)))
  rw [host, if_pos hi, Prog.run_bind, onCmdq_run, hrun]
  refine ⟨((ringIfDue x (i + 1)).run Access.effect { s with cmdq := r' }).2, ?_⟩
  exact Prog.run_bind _ (ringIfDue x (i + 1)) (fun _ => .ret (afterSubmit (i + 1) c)) _

theorem submitting_run_of_full (hs : Inv x s) (hi : i < x.total) (h : held s.cmdq = 2 ^ 16) :
    (host x (.submitting i c)).run Access.effect s = (.draining i c, s) := by
  rw [host, if_pos hi, Prog.run_bind, onCmdq_run, hwRingPush_run_of_full hs.rings.cmdq h]
  rfl

end Host

/-! ### Passes of the worker -/

section Worker

variable {x : Args} {z : HwDesc} {l : Host} {s : Mem} {t k : BitVec 64}

theorem leads_push (hs : Inv x s) {d : HwDesc} (h : held s.doneq < 2 ^ 16) :
    ∃ s', Leads x l ⟨.pushing d, t, k⟩ s l ⟨.top, t, k + 1⟩ s' ∧ s'.cmdq = s.cmdq ∧
      s'.doneq.published = s.doneq.published ++ [d] ∧ s'.doneq.taken = s.doneq.taken := by
  obtain ⟨r', hrun, hpub, htaken⟩ := hwRingPush_run_of_lt hs.rings.doneq h d
  refine ⟨{ s with doneq := r' }, leads_worker ?_, rfl, hpub, htaken⟩
  rw [hwWorkerSim, Prog.run_bind, onDoneq_run, hrun]
  rfl

theorem leads_take (hs : Inv x s) (h : 0 < held s.cmdq)
    (hreq : ∀ d, s.cmdq.published[s.cmdq.taken.length]? = some d → d.opcode = descOpDecode) :
    ∃ d t' s', Leads x l ⟨.top, t, k⟩ s l ⟨.pushing d, t', k⟩ s' ∧ held s'.cmdq = held s.cmdq - 1 ∧
      s'.doneq = s.doneq := by
  obtain ⟨d, r', hrun, hd, hpub, htaken⟩ := hwRingPop_run_of_pos hs.rings.cmdq h
  refine ⟨_, _, { s with cmdq := r' }, leads_worker (worker_pop_run t k hs.stop hrun (hreq d hd)), ?_, rfl⟩
  rw [held, hpub, htaken, List.length_append]
  exact Nat.sub_add_eq _ _ _

theorem leads_return (hs : Inv x s) (h : 0 < held s.cmdq)
    (hstop : ∀ d, s.cmdq.published[s.cmdq.taken.length]? = some d → d.opcode = descOpStop) :
    ∃ s', Leads x l ⟨.top, t, k⟩ s l ⟨.returned, t, k⟩ s' := by
  obtain ⟨d, r', hrun, hd, -, -⟩ := hwRingPop_run_of_pos hs.rings.cmdq h
  refine ⟨{ s with cmdq := r' }, leads_worker ?_⟩
  rw [hwWorkerSim, Prog.load_bind, Prog.run_act]
  rw [if_neg (not_not.mpr hs.stop), Prog.run_bind, Access.effect, onCmdq_run, hrun]
  simp only [hstop d hd, if_true]
  rfl

end Worker

/-! ### Progress -/

theorem held_le {r : HwRing} (hr : r.Inv) : held r ≤ 2 ^ 16 := by
  have hbound := Contents.bound hr
  rw [held]
  omega

section Progress

variable {x : Args} {z : HwDesc} {l : Host} {w : WorkerSim} {s : Mem} {i c : ℕ}

/-- As long as only requests have been submitted the worker has not returned. -/
theorem Reached.ne_returned (h : Reached x z l w s) (hsub : s.cmdq.published = requests i) :
    w.phase ≠ .returned := by
  intro hret
  obtain ⟨hs, -, -, hcounts⟩ := h.known
  obtain ⟨d, hd, hstop⟩ := hcounts.2 hret
  refine noStop_requests i d ?_ hstop
  rw [← hsub]
  exact hs.rings.cmdq.taken_le.subset hd

theorem opcode_of_requests (hsub : s.cmdq.published = requests i) (d : HwDesc)
    (hd : s.cmdq.published[s.cmdq.taken.length]? = some d) : d.opcode = descOpDecode := by
  rw [hsub] at hd
  obtain ⟨k, -, rfl⟩ := mem_requests (List.mem_of_getElem? hd)
  rfl

/-- The worker comes to the top of its loop if there is room for the answer it holds. -/
theorem Reached.leads_top (h : Reached x z l w s) (hw : w.phase ≠ .returned)
    (hroom : held s.doneq < 2 ^ 16) :
    ∃ t k s', Leads x l w s l ⟨.top, t, k⟩ s' ∧ s'.cmdq = s.cmdq := by
  obtain ⟨phase, t, k⟩ := w
  cases phase with
  | top => exact ⟨t, k, s, .refl, rfl⟩
  | pushing d =>
    obtain ⟨s', hleads, hcmd, -, -⟩ := leads_push (l := l) (t := t) (k := k) (d := d) h.known.1 hroom
    exact ⟨t, k + 1, s', hleads, hcmd⟩
  | returned => exact absurd rfl hw

/-- The worker makes room in `cmdq` if `doneq` is empty. -/
theorem Reached.leads_room (h : Reached x z (.submitting i c) w s) (hempty : held s.doneq = 0) :
    ∃ w' s', Leads x (.submitting i c) w s (.submitting i c) w' s' ∧ held s'.cmdq < 2 ^ 16 := by
  obtain ⟨hs, ⟨-, hprog⟩, -⟩ := h.known
  by_cases hroom : held s.cmdq < 2 ^ 16
  · exact ⟨w, s, .refl, hroom⟩
  · obtain ⟨t, k, s₁, hleads₁, hcmd₁⟩ := h.leads_top (h.ne_returned hprog.published) (by omega)
    obtain ⟨hs₁, ⟨-, hprog₁⟩, -⟩ := (h.leads hleads₁).known
    have hle := held_le hs₁.rings.cmdq
    rw [← hcmd₁] at hroom
    obtain ⟨d, t', s₂, hleads₂, hheld, -⟩ := leads_take (l := .submitting i c) (t := t) (k := k) hs₁
      (by omega) (opcode_of_requests hprog₁.published)
    exact ⟨_, s₂, hleads₁.trans hleads₂, by omega⟩

/-- **The host submits one more request.** -/
theorem Reached.leads_submit (h : Reached x z (.submitting i c) w s) (hi : i < x.total) :
    ∃ c' w' s', Leads x (.submitting i c) w s (afterSubmit (i + 1) c') w' s' := by
  obtain ⟨hs, -⟩ := h.known
  by_cases hfull : held s.cmdq < 2 ^ 16
  · obtain ⟨s', hrun⟩ := submitting_run_of_lt (c := c) hs hi hfull
    exact ⟨c, w, s', leads_host hrun⟩
  · have hle := held_le hs.rings.cmdq
    have hdrain := leads_host (w := w) (submitting_run_of_full (c := c) hs hi (by omega))
    obtain ⟨c₁, s₁, hleads₁, -, hempty⟩ := (h.leads hdrain).leads_drained
    have hback := hdrain.trans hleads₁
    obtain ⟨w₂, s₂, hleads₂, hroom⟩ := (h.leads hback).leads_room hempty
    have hagain := hback.trans hleads₂
    obtain ⟨s', hrun⟩ := submitting_run_of_lt (c := c₁) (h.leads hagain).known.1 hi hroom
    exact ⟨c₁, w₂, s', hagain.trans (leads_host hrun)⟩

/-- The host submits all requests. -/
theorem Reached.leads_waiting (h : Reached x z (.submitting i c) w s) :
    ∃ c' w' s', Leads x (.submitting i c) w s (.waiting c') w' s' := by
  obtain ⟨-, ⟨hi, -⟩, -⟩ := h.known
  obtain ⟨m, hm⟩ := Nat.exists_eq_add_of_le hi
  induction m generalizing i c w s with
  | zero =>
    refine ⟨c, w, s, leads_host ?_⟩
    rw [host, if_neg (by omega)]
    rfl
  | succ m ih =>
    obtain ⟨c₁, w₁, s₁, hleads₁⟩ := h.leads_submit (by omega)
    obtain ⟨c₂, s₂, hleads₂⟩ : ∃ c₂ s₂, Leads x (.submitting i c) w s (.submitting (i + 1) c₂) w₁ s₂ := by
      rw [afterSubmit] at hleads₁
      split_ifs at hleads₁
      · obtain ⟨c₂, s₂, hdrained, -⟩ := (h.leads hleads₁).leads_drained
        exact ⟨c₂, s₂, hleads₁.trans hdrained⟩
      · exact ⟨c₁, s₁, hleads₁⟩
    obtain ⟨c', w', s', hleads⟩ := ih (h.leads hleads₂) (by omega) (by omega)
    exact ⟨c', w', s', hleads₂.trans hleads⟩

/-- **The worker pushes an answer** while the host waits for one. -/
theorem Reached.leads_answer (h : Reached x z (.waiting c) w s) (hc : c < x.total)
    (hempty : held s.doneq = 0) :
    ∃ w' s', Leads x (.waiting c) w s (.waiting c) w' s' ∧ 0 < held s'.doneq := by
  have hpush {d : HwDesc} {t k : BitVec 64} {s : Mem} (hs : Inv x s) (hempty : held s.doneq = 0) :
      ∃ w' s', Leads x (.waiting c) ⟨.pushing d, t, k⟩ s (.waiting c) w' s' ∧ 0 < held s'.doneq := by
    obtain ⟨s', hleads, -, hpub, htaken⟩ := leads_push (l := .waiting c) (t := t) (k := k) (d := d) hs
      (by omega)
    refine ⟨_, s', hleads, ?_⟩
    have hle := hs.rings.doneq.taken_le.length_le
    rw [held, hpub, htaken, List.length_append, List.length_singleton]
    omega
  obtain ⟨hs, hprog, hknows, -⟩ := h.known
  obtain ⟨phase, t, k⟩ := w
  cases phase with
  | pushing d => exact hpush hs hempty
  | returned => exact absurd rfl (h.ne_returned hprog.published)
  | top =>
    -- the worker has not taken all requests, since it has not answered all of them
    have hpos : 0 < held s.cmdq := by
      by_contra hzero
      have hall : s.cmdq.taken = s.cmdq.published := by
        refine hs.rings.cmdq.taken_le.eq_of_length_le ?_
        rw [held] at hzero
        omega
      have hpub : s.doneq.published.length = x.total := by
        rw [hknows.2.2, hall, hprog.published, answers_requests, List.length_map, List.length_range]
      rw [held, hpub, hprog.taken] at hempty
      omega
    obtain ⟨d, t', s₁, hleads₁, -, hdone⟩ := leads_take (l := .waiting c) (t := t) (k := k) hs hpos
      (opcode_of_requests hprog.published)
    obtain ⟨w', s', hleads, hheld⟩ := hpush (h.leads hleads₁).known.1 (hdone ▸ hempty)
    exact ⟨w', s', hleads₁.trans hleads, hheld⟩

/-- **The host ends its wait.** -/
theorem Reached.leads_stopping (h : Reached x z (.waiting c) w s) :
    ∃ w' s', Leads x (.waiting c) w s .stopping w' s' := by
  obtain ⟨m, hm⟩ : ∃ m, x.total - c = m := ⟨_, rfl⟩
  induction m generalizing c w s with
  | zero =>
    refine ⟨w, s, leads_host ?_⟩
    rw [host, if_neg (by omega)]
    rfl
  | succ m ih =>
    -- an answer can be popped, now or after the worker has pushed one
    obtain ⟨w₁, s₁, hleads₁, hheld⟩ : ∃ w₁ s₁, Leads x (.waiting c) w s (.waiting c) w₁ s₁ ∧
        0 < held s₁.doneq := by
      by_cases hheld : 0 < held s.doneq
      · exact ⟨w, s, .refl, hheld⟩
      · exact h.leads_answer (by omega) (by omega)
    obtain ⟨d, r', hrun, -⟩ := hwRingPop_run_of_pos (h.leads hleads₁).known.1.rings.doneq hheld
    have hpop : (host x (.waiting c)).run Access.effect s₁ = (.waiting (c + 1), { s₁ with doneq := r' }) := by
      rw [host, if_pos (by omega), Prog.run_bind, onDoneq_run, hrun]
      rfl
    have hleads₂ := hleads₁.trans (leads_host hpop)
    obtain ⟨w', s', hleads⟩ := ih (h.leads hleads₂) (by omega)
    exact ⟨w', s', hleads₂.trans hleads⟩

/-- The host pushes the stop descriptor. -/
theorem Reached.leads_joining (h : Reached x z .stopping w s) :
    ∃ s', Leads x .stopping w s .joining w s' := by
  obtain ⟨hs, ⟨c, hc, hprog⟩, -⟩ := h.known
  have hempty : held s.cmdq = 0 := by
    rw [held, hprog.published]
    rcases taken_of_popped hs (hc.trans hprog.taken.ge) with htaken | htaken
    · rw [htaken, Nat.sub_self]
    · rw [htaken, List.length_append]
      omega
  obtain ⟨r', hrun, -, -⟩ := hwRingPush_run_of_lt hs.rings.cmdq (by omega) stopDesc
  refine ⟨(ringDoorbell.run Access.effect { s with cmdq := r' }).2, leads_host ?_⟩
  rw [host, Prog.run_bind, onCmdq_run, hrun]
  exact Prog.run_bind _ ringDoorbell (fun _ => .ret Host.joining) _

/-- The worker returns. -/
theorem Reached.leads_returned (h : Reached x z .joining w s) :
    ∃ w' s', Leads x .joining w s .joining w' s' ∧ w'.phase = .returned := by
  obtain ⟨hs, ⟨c, hc, hprog⟩, hknows, -⟩ := h.known
  have hall : x.total ≤ s.doneq.taken.length := hc.trans hprog.taken.ge
  have hle := hs.rings.doneq.taken_le.length_le
  obtain ⟨phase, t, k⟩ := w
  cases phase with
  | returned => exact ⟨_, s, .refl, rfl⟩
  | pushing d =>
    -- there is no answer left to push
    exfalso
    have hlen := congrArg List.length hknows.2.2
    have hans := (answers_isPrefix (hs.rings.cmdq.taken_le.trans hs.submitted.1)).length_le
    rw [answers_stop, answers_requests, List.length_map, List.length_range] at hans
    rw [List.length_append, List.length_singleton] at hlen
    omega
  | top =>
    have htaken : s.cmdq.taken = requests x.total := by
      refine (taken_of_popped hs hall).resolve_right fun hstop => ?_
      refine hknows.2.1 stopDesc ?_ rfl
      rw [hstop]
      exact List.mem_append_right _ (List.mem_singleton_self _)
    have hpos : 0 < held s.cmdq := by
      rw [held, hprog.published, htaken, List.length_append, length_requests, Nat.add_sub_cancel_left]
      exact one_pos
    obtain ⟨s', hleads⟩ := leads_return (l := .joining) (t := t) (k := k) hs hpos fun d hd => by
      rw [hprog.published, htaken, List.getElem?_concat_length] at hd
      obtain rfl := Option.some.inj hd
      rfl
    exact ⟨_, s', hleads, rfl⟩

end Progress

/-! ### Result -/

instance : Fintype Thread := ⟨{.host, .worker}, fun i => by cases i <;> decide⟩

/-- Every run can be continued until both threads rest. -/
theorem exists_reached (x : Args) (c : Config Thread Access Mem Local) :
    ∃ l w s, (system x).Arrives c (places l w) s := by
  obtain ⟨l, s, h⟩ := System.exists_arrives (S := system x) (fun _ => ()) c
  refine ⟨l .host, l .worker, s, ?_⟩
  have hplaces : places (l .host) (l .worker) = l := by
    funext i
    cases i <;> rfl
  rwa [hplaces]

/-- From every place the host comes to join the worker. -/
theorem Reached.leads_end {x : Args} {z : HwDesc} {l : Host} {w : WorkerSim} {s : Mem}
    (h : Reached x z l w s) : ∃ w' s', Leads x l w s .joining w' s' := by
  have hstop {w : WorkerSim} {s : Mem} (h : Reached x z .stopping w s) :
      ∃ w' s', Leads x .stopping w s .joining w' s' := by
    obtain ⟨s', hleads⟩ := h.leads_joining
    exact ⟨w, s', hleads⟩
  have hwait {c : ℕ} {w : WorkerSim} {s : Mem} (h : Reached x z (.waiting c) w s) :
      ∃ w' s', Leads x (.waiting c) w s .joining w' s' := by
    obtain ⟨w₁, s₁, hleads₁⟩ := h.leads_stopping
    obtain ⟨w', s', hleads⟩ := hstop (h.leads hleads₁)
    exact ⟨w', s', hleads₁.trans hleads⟩
  have hsubmit {i c : ℕ} {w : WorkerSim} {s : Mem} (h : Reached x z (.submitting i c) w s) :
      ∃ w' s', Leads x (.submitting i c) w s .joining w' s' := by
    obtain ⟨c₁, w₁, s₁, hleads₁⟩ := h.leads_waiting
    obtain ⟨w', s', hleads⟩ := hwait (h.leads hleads₁)
    exact ⟨w', s', hleads₁.trans hleads⟩
  cases l with
  | submitting i c => exact hsubmit h
  | draining i c =>
    obtain ⟨c₁, s₁, hleads₁, -⟩ := h.leads_drained
    obtain ⟨w', s', hleads⟩ := hsubmit (h.leads hleads₁)
    exact ⟨w', s', hleads₁.trans hleads⟩
  | waiting c => exact hwait h
  | stopping => exact hstop h
  | joining => exact ⟨w, s, .refl⟩

/-- **The benchmark is never blocked.** For every number of requests and every size of a batch, every run of
the benchmark, whatever the order of its steps, can be continued until the host joins the worker and the
worker has returned. -/
theorem benchmark_not_blocked (x : Args) (z : HwDesc) (es : List ((_ : Thread) × Unit)) :
    ∃ es', ((system x).run (init z) (es ++ es')).threads .host = .ret Host.joining ∧
      ∃ w : WorkerSim, ((system x).run (init z) (es ++ es')).threads .worker = .ret w ∧
        w.phase = .returned := by
  obtain ⟨l, w, s, es₁, hes₁⟩ := exists_reached x ((system x).run (init z) es)
  rw [← (system x).run_append] at hes₁
  have h : Reached x z l w s := ⟨es ++ es₁, hes₁⟩
  obtain ⟨w₁, s₁, hleads₁⟩ := h.leads_end
  obtain ⟨w₂, s₂, hleads₂, hret⟩ := (h.leads hleads₁).leads_returned
  obtain ⟨es₂, hes₂⟩ := hleads₁.trans hleads₂
  refine ⟨es₁ ++ es₂, ?_⟩
  rw [← List.append_assoc, (system x).run_append, hes₁, hes₂]
  exact ⟨rfl, w₂, rfl, hret⟩

end Bench

end Hw

end RolloutRuntime
