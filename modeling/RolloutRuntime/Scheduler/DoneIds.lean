import RolloutRuntime.Scheduler.Slots

/-!
# Request ids in notifications

A request and its notification both carry a 64-bit id, but the slot of the device that a rollout lives in
between keeps only the low 32 bits of it. So a notification names its request exactly if the id of the
request is below `2 ^ 32`, and two rollouts with ids that differ only in the high half report the same id.

The record of the iterations is true wherever the worker rests in its loop, and after it has returned.

## Main definitions

* `Scheduler.ReportedBy`: the notification of a request in the record of the iterations.
* `Scheduler.NamesRequests`: every notification carries the id of its request.

## Main results

* `Scheduler.rolloutWorker_begun`: the record of the iterations at any place of the loop.
* `Scheduler.ReportedBy.requestId_eq_iff`: when a notification carries the id of its request.
* `Scheduler.done_names_request_iff`: when all notifications of a run do.

## References

* `cu/gpu_scheduler.cu` lines 37–75, `include/request.h` lines 15–35 and 67–77.
-/

namespace RolloutRuntime

open Concurrency RingBuffer

namespace Scheduler

/-! ### The record wherever the worker rests -/

/-- The record of successive iterations of which the last may be under way: it has pushed some of its
notifications only. -/
def Begun (log : List Iteration) : Prop :=
  ∃ log' st, Passes log' st ∧ List.Forall₂ (fun it it' : Iteration =>
    it.state = it'.state ∧ it.request = it'.request ∧ it.reports <+: it'.reports) log log'

section Begun

variable {log : List Iteration} {st : GpuRolloutState}

theorem Passes.begun (h : Passes log st) : Begun log :=
  ⟨log, st, h, List.forall₂_same.mpr fun _ _ => ⟨rfl, rfl, List.prefix_rfl⟩⟩

theorem Passes.begun_snoc (h : Passes log st) (x : Option RolloutRequest) {ds : List RolloutDone}
    (hds : ds <+: (pass st x).2) : Begun (log ++ [⟨st, x, ds⟩]) := by
  refine ⟨_, _, h.snoc x, List.rel_append ?_ (.cons ⟨rfl, rfl, hds⟩ .nil)⟩
  exact List.forall₂_same.mpr fun _ _ => ⟨rfl, rfl, List.prefix_rfl⟩

theorem UnderWay.begun {rest : GpuRolloutState × List RolloutDone} (h : UnderWay log rest) :
    Begun log := by
  obtain ⟨log', it, rfl, hpasses, -, hds⟩ := h
  exact hpasses.begun_snoc it.request ⟨rest.2, hds.symm⟩

end Begun

/-- What the record says of a worker that has returned; at the other places of the loop it is `Follows`. -/
def FollowsToEnd : Phase → Mem → List Iteration → Prop
  | .returned, s, log => Recorded s log ∧ Begun log
  | l, s, log => Follows l s log

theorem followsToEnd_of_ne {l : Phase} {s : Mem} {log : List Iteration} (hl : l ≠ .returned)
    (h : Follows l s log) : FollowsToEnd l s log := by
  cases l with
  | returned => exact absurd rfl hl
  | top | scanning | pushing => exact h

theorem FollowsToEnd.begun {l : Phase} {s : Mem} {log : List Iteration} (h : FollowsToEnd l s log) :
    Recorded s log ∧ Begun log := by
  cases l with
  | top => exact ⟨h.1, h.2.begun⟩
  | scanning => exact ⟨h.1, h.2.begun⟩
  | pushing => exact ⟨h.1, h.2.begun⟩
  | returned => exact h

theorem FollowsToEnd.follows {l : Phase} {s : Mem} {log : List Iteration} (h : FollowsToEnd l s log) :
    Follows l s log := by
  cases l with
  | top | scanning | pushing => exact h
  | returned => trivial

theorem FollowsToEnd.rely {l : Phase} {s s' : Mem} {log : List Iteration} (h : FollowsToEnd l s log)
    (hr : RelyOn .worker s s') : FollowsToEnd l s' log := by
  cases l with
  | top => exact Follows.rely (l := .top) h hr
  | scanning i => exact Follows.rely (l := .scanning i) h hr
  | pushing i d => exact Follows.rely (l := .pushing i d) h hr
  | returned => exact ⟨h.1.rely hr, h.2⟩

/-- The worker returns from the top of its loop only. -/
theorem scanning_returns (i : ℕ) : (rolloutWorker (.scanning i)).Returns (· ≠ .returned) := by
  rw [rolloutWorker]
  by_cases hi : i < 4 * 64
  · rw [dif_pos hi]
    refine .act fun s => .act fun s' => ?_
    beta_reduce
    split
    · exact .ret Phase.noConfusion
    · exact .ret Phase.noConfusion
  · rw [dif_neg hi]
    exact .ret Phase.noConfusion

theorem pushing_returns (i : Slot) (d : RolloutDone) :
    (rolloutWorker (.pushing i d)).Returns (· ≠ .returned) := by
  rw [rolloutWorker]
  refine Prog.returns_bind fun ok => ?_
  cases ok with
  | false => exact .ret Phase.noConfusion
  | true => exact Prog.returns_bind fun _ => Prog.returns_bind fun _ => .ret Phase.noConfusion

section Worker

variable {s : Mem} {log : List Iteration}

theorem ret_seesToEnd {l : Phase} (h : FollowsToEnd l s log) :
    rules.Sees .worker watch FollowsToEnd (.ret l) s log :=
  .ret fun _ hr _ => h.rely hr

theorem rolloutWorker_top_seesToEnd (hs : s.Inv) (h : Follows .top s log) :
    rules.Sees .worker watch FollowsToEnd (rolloutWorker .top) s log := by
  refine Discipline.sees_bind hs poll_rules_ok (poll_sees log) ?_
  rintro x s₁ - hs₁ ⟨htaken, hstate, hpub⟩ rfl
  rcases x with _ | req
  · exact ret_seesToEnd (l := .scanning 0) (follows_admission h htaken hpub hstate)
  · dsimp only
    by_cases hreq : req.requestId = sentinel
    · rw [if_pos hreq]
      obtain ⟨⟨htaken₀, hpub₀⟩, hpasses⟩ := h
      have hrec : Recorded s₁ (log ++ [⟨s.state, some req, []⟩]) := by
        refine ⟨?_, ?_⟩
        · rw [htaken, htaken₀, List.filterMap_append]
          rfl
        · rw [hpub, hpub₀, List.flatMap_append]
          simp
      exact ret_seesToEnd (l := .returned) ⟨hrec, hpasses.begun_snoc (some req) (List.nil_prefix)⟩
    · rw [if_neg hreq]
      refine Discipline.sees_bind hs₁ (updateState_ok (admitRequest · req)) (updateState_sees _ _) ?_
      rintro - s₂ - - - ⟨⟨hstate₂, htaken₂, hpub₂⟩, rfl⟩
      rw [hstate] at hstate₂
      exact ret_seesToEnd (l := .scanning 0)
        (follows_admission h (htaken₂.trans htaken) (hpub₂.trans hpub) hstate₂)

/-- **Every call of the worker** keeps its record true, the one that returns too. -/
theorem rolloutWorker_seesToEnd (l : Phase) (hs : s.Inv) (h : FollowsToEnd l s log) :
    rules.Sees .worker watch FollowsToEnd (rolloutWorker l) s log := by
  cases l with
  | top => exact rolloutWorker_top_seesToEnd hs h
  | scanning i =>
    exact (rolloutWorker_sees (.scanning i) hs h.follows).mono (scanning_returns i)
      fun _ _ _ hne hl => followsToEnd_of_ne hne hl
  | pushing i d =>
    exact (rolloutWorker_sees (.pushing i d) hs h.follows).mono (pushing_returns i d)
      fun _ _ _ hne hl => followsToEnd_of_ne hne hl
  | returned => exact ret_seesToEnd (l := .returned) h

end Worker

/-- **The record wherever the worker rests.** In every run the requests taken and the notifications pushed
are those of the record, which is that of successive iterations. -/
theorem rolloutWorker_begun (z : RolloutRequest) (z' : RolloutDone) (es : List ((i : Thread) × Call i))
    {l : Phase} (hrest : (system.run (init z z') es).threads .worker = .ret l) :
    Recorded (system.run (init z z') es).mem (system.observe .worker watch (init z z') [] es) ∧
      Begun (system.observe .worker watch (init z z') [] es) := by
  have hgood : rules.Good (fun _ _ _ => True) (init z z') :=
    ⟨⟨Ring.zeroed_inv z, Ring.zeroed_inv z'⟩, fun i _ _ _ => trivial⟩
  have hmeets := system.meets_true (init z z') es
  have hrun := rules.sound rfl start_permitted hgood hmeets
  have hsees : rules.Sees .worker watch FollowsToEnd ((system.run (init z z') es).threads .worker)
      (system.run (init z z') es).mem (system.observe .worker watch (init z z') [] es) := by
    refine Discipline.sees_sound rfl start_permitted ?_ hgood ?_ hmeets
    · exact fun l _ s log hs _ h => rolloutWorker_seesToEnd l hs h
    · exact ret_seesToEnd (l := .top) ⟨⟨rfl, rfl⟩, .nil⟩
  rw [hrest] at hsees
  exact (hsees.post hrun.1).begun

/-! ### Notifications and their requests -/

/-- In the record `log`, iteration `j` pushed the notification `d` of slot `i` for the request `req`, which
iteration `k` had admitted to that slot. -/
structure ReportedBy (log : List Iteration) (j : ℕ) (d : RolloutDone) (k : ℕ) (i : Slot)
    (req : RolloutRequest) : Prop where
  since : Since log k i req
  finished : j = k + req.maxTokens.toNat
  pushed : ∃ it, log[j]? = some it ∧ d ∈ it.reports
  slot : d.rolloutId = BitVec.ofNat 32 i

/-- Every notification in the record carries the id of its request, so rollouts that run at the same time
for requests with different ids report different ids. -/
structure NamesRequests (log : List Iteration) : Prop where
  named : ∀ j d k i req, ReportedBy log j d k i req → d.requestId = req.requestId
  distinct : ∀ j d k i req j' d' k' i' req', ReportedBy log j d k i req →
    ReportedBy log j' d' k' i' req' → k ≤ j' → k' ≤ j → req.requestId ≠ req'.requestId →
    d.requestId ≠ d'.requestId

section Reported

variable {log : List Iteration} {j k : ℕ} {d : RolloutDone} {i : Slot} {req : RolloutRequest}

theorem Begun.exists_iteration {log' : List Iteration} {it : Iteration}
    (h : List.Forall₂ (fun it it' : Iteration =>
      it.state = it'.state ∧ it.request = it'.request ∧ it.reports <+: it'.reports) log log')
    (hj : log[j]? = some it) :
    ∃ it', log'[j]? = some it' ∧ it.state = it'.state ∧ it.request = it'.request ∧
      it.reports <+: it'.reports := by
  obtain ⟨hlt, rfl⟩ := List.getElem?_eq_some_iff.mp hj
  have hlt' : j < log'.length := h.length_eq ▸ hlt
  exact ⟨log'[j], List.getElem?_eq_getElem hlt', h.get hlt hlt'⟩

/-- A notification in the record is that of a request admitted before. -/
theorem Begun.exists_reportedBy (h : Begun log) {it : Iteration} (hj : log[j]? = some it)
    (hd : d ∈ it.reports) : ∃ k i req, ReportedBy log j d k i req := by
  obtain ⟨log', st, hpasses, hrel⟩ := h
  obtain ⟨it', hj', -, -, hreports⟩ := exists_iteration hrel hj
  obtain ⟨k, i, req, ⟨itk', hk', hreq, hslot⟩, hjk, rfl⟩ := hpasses.exists_since hj' (hreports.subset hd)
  have hlt : k < log.length := by
    rw [hrel.length_eq]
    exact (List.getElem?_eq_some_iff.mp hk').1
  obtain ⟨itk'', hk'', hstate, hrequest, -⟩ := exists_iteration hrel (List.getElem?_eq_getElem hlt)
  obtain rfl : itk'' = itk' := Option.some.inj (hk''.symm.trans hk')
  refine ⟨k, i, req, ⟨log[k], List.getElem?_eq_getElem hlt, ?_, ?_⟩, hjk, ⟨it, hj, hd⟩, rfl⟩
  · rw [hrequest, hreq]
  · rw [hstate, hslot]

/-- The notification of a request is made from what its slot keeps of it. -/
theorem ReportedBy.eq_completed (h : Begun log) (hrep : ReportedBy log j d k i req) :
    d = completed i req := by
  obtain ⟨log', st, hpasses, hrel⟩ := h
  obtain ⟨⟨itk, hk, hreq, hslot⟩, hjk, ⟨it, hj, hd⟩, hid⟩ := hrep
  obtain ⟨it', hj', -, -, hreports⟩ := Begun.exists_iteration hrel hj
  obtain ⟨itk', hk', hstate, hrequest, -⟩ := Begun.exists_iteration hrel hk
  have hsince : Since log' k i req := by
    refine ⟨itk', hk', ?_, ?_⟩
    · rw [← hrequest, hreq]
    · rw [← hstate, hslot]
  have honly := hpasses.reports_since hsince hj' (by omega) hjk.le
  rw [if_pos hjk] at honly
  have hmem : d ∈ reportsOf i it'.reports := List.mem_filter.mpr ⟨hreports.subset hd, by simpa using hid⟩
  rw [honly] at hmem
  exact List.mem_singleton.mp hmem

/-- The low half of an id is the id exactly if the high half is zero. -/
theorem completed_requestId_eq_iff (i : Slot) (req : RolloutRequest) :
    (completed i req).requestId = req.requestId ↔ req.requestId.toNat < 2 ^ 32 := by
  have hlow : (completed i req).requestId.toNat = req.requestId.toNat % 2 ^ 32 := by
    have hmask : (0xFFFFFFFF : BitVec 64).toNat = 2 ^ 32 - 1 := by decide
    change (((req.requestId &&& 0xFFFFFFFF).setWidth 32).setWidth 64).toNat = _
    rw [BitVec.toNat_setWidth, BitVec.toNat_setWidth, BitVec.toNat_and, hmask,
      Nat.and_two_pow_sub_one_eq_mod, Nat.mod_mod, Nat.mod_eq_of_lt]
    exact (Nat.mod_lt _ (by decide)).trans (by decide)
  rw [← BitVec.toNat_inj, hlow]
  constructor
  · intro h
    rw [← h]
    exact Nat.mod_lt _ (by decide)
  · exact Nat.mod_eq_of_lt

/-- **When a notification carries the id of its request.** -/
theorem ReportedBy.requestId_eq_iff (h : Begun log) (hrep : ReportedBy log j d k i req) :
    d.requestId = req.requestId ↔ req.requestId.toNat < 2 ^ 32 := by
  rw [hrep.eq_completed h]
  exact completed_requestId_eq_iff i req

end Reported

/-- **When notifications name their requests.** In every run from zeroed rings and a zeroed device, whatever
the host submits and whenever it pops, and wherever the worker rests: the notifications pushed are those of
the record, each is that of a request admitted to its slot, and all of them carry the 64-bit ids of their
requests exactly if every request reported has an id below `2 ^ 32`. -/
theorem done_names_request_iff (z : RolloutRequest) (z' : RolloutDone) (es : List ((i : Thread) × Call i))
    (l : Phase) (hrest : (system.run (init z z') es).threads .worker = .ret l) :
    let log := system.observe .worker watch (init z z') [] es
    (system.run (init z z') es).mem.doneRing.published = log.flatMap Iteration.reports ∧
      (∀ (j : ℕ) (it : Iteration) (d : RolloutDone), log[j]? = some it → d ∈ it.reports →
        ∃ k i req, ReportedBy log j d k i req) ∧
      (NamesRequests log ↔ ∀ j d k i req, ReportedBy log j d k i req → req.requestId.toNat < 2 ^ 32) := by
  intro log
  obtain ⟨hrec, hbegun⟩ := rolloutWorker_begun z z' es hrest
  refine ⟨hrec.2, fun j it d hj hd => hbegun.exists_reportedBy hj hd, ?_, ?_⟩
  · intro h j d k i req hrep
    exact (hrep.requestId_eq_iff hbegun).mp (h.named j d k i req hrep)
  · intro h
    have hnamed : ∀ j d k i req, ReportedBy log j d k i req → d.requestId = req.requestId :=
      fun j d k i req hrep => (hrep.requestId_eq_iff hbegun).mpr (h j d k i req hrep)
    refine ⟨hnamed, fun j d k i req j' d' k' i' req' hrep hrep' _ _ hne => ?_⟩
    rw [hnamed j d k i req hrep, hnamed j' d' k' i' req' hrep']
    exact hne

/-- The request with id 1 names its notification, while the one with id 2 is running. -/
theorem done_names_request_twoRequests :
    (system.run (init default default) twoRequests).threads .worker = .ret Phase.top ∧
      (system.run (init default default) twoRequests).mem.doneRing.published.map (·.requestId) = [1] ∧
      let log := system.observe .worker watch (init default default) [] twoRequests
      (NamesRequests log ↔ ∀ j d k i req, ReportedBy log j d k i req → req.requestId.toNat < 2 ^ 32) := by
  have htop : (system.run (init default default) twoRequests).threads .worker = .ret Phase.top := by
    decide +kernel
  exact ⟨htop, by decide +kernel, (done_names_request_iff default default twoRequests .top htop).2.2⟩

/-- A request for one token, and one for none whose id differs from it in the high half only. -/
def lowIdRequest : RolloutRequest := ⟨1, 1, 4, 0, 50, 0, 42⟩

def highIdRequest : RolloutRequest := ⟨0x100000001, 0, 4, 0, 50, 0, 42⟩

/-- The schedule of the two: they are admitted in successive iterations and finish in the second. -/
def twoRollouts : List ((i : Thread) × Call i) :=
  List.replicate 6 ⟨.submitter, lowIdRequest⟩ ++ List.replicate 6 ⟨.submitter, highIdRequest⟩ ++
    List.replicate 1568 ⟨.worker, ()⟩

/-- The two rollouts run at the same time and report the same id. -/
theorem done_same_id :
    let log := system.observe .worker watch (init default default) [] twoRollouts
    (system.run (init default default) twoRollouts).threads .worker = .ret Phase.top ∧
      log.map (fun it => (it.request.map (·.requestId), it.reports.map fun d => (d.requestId, d.rolloutId))) =
        [(some 1, []), (some 0x100000001, [(1, 0), (1, 1)])] ∧
      ¬ NamesRequests log := by
  intro log
  have hview : log.map (fun it => (it.request, (findFreeSlot it.state).map Prod.fst, it.reports)) =
      [(some lowIdRequest, some 0, []),
        (some highIdRequest, some 1, [completed 0 lowIdRequest, completed 1 highIdRequest])] := by
    decide +kernel
  have hids : log.map (fun it =>
      (it.request.map (·.requestId), it.reports.map fun d => (d.requestId, d.rolloutId))) =
        [(some 1, []), (some 0x100000001, [(1, 0), (1, 1)])] := by
    have hmap := congrArg (List.map fun x : Option RolloutRequest × Option Slot × List RolloutDone =>
      (x.1.map (·.requestId), x.2.2.map fun d => (d.requestId, d.rolloutId))) hview
    rw [List.map_map] at hmap
    exact hmap.trans (by decide)
  have hsecond := congrArg (·[1]?) hview
  simp only [List.getElem?_map] at hsecond
  obtain ⟨it, hit, heq⟩ := Option.map_eq_some_iff.mp hsecond
  obtain ⟨hreq, heq⟩ := Prod.mk.inj heq
  obtain ⟨hslot, hreports⟩ := Prod.mk.inj heq
  have hrep : ReportedBy log 1 (completed 1 highIdRequest) 1 1 highIdRequest :=
    ⟨⟨it, hit, hreq, hslot⟩, rfl, ⟨it, hit, by rw [hreports]; simp⟩, rfl⟩
  refine ⟨by decide +kernel, hids, fun h => ?_⟩
  exact absurd (h.named _ _ _ _ _ hrep) (by decide)

end Scheduler

end RolloutRuntime
