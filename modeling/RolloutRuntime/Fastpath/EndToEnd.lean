import RolloutRuntime.Fastpath.Worker
import RolloutRuntime.RingBuffer.Alone

/-!
# The hardware fast path from end to end

The host is the producer of `cmdq` and the consumer of `doneq`; the worker is the consumer of `cmdq`
and the producer of `doneq`, so both rings have one producer and one consumer. What ties them together
is that the worker publishes to `doneq` only the answers to what it took from `cmdq`, in order, and
holds at most one answer that it has not published yet.

The counter of completions has 64 bits. It equals the number of pushes modulo `2 ^ 64`, and a long
enough run tells the two apart.

## Main definitions

* `Hw.answers`: the finished descriptors the host is to see for the descriptors it submitted.
* `Hw.fastpath`: the discipline of the three threads.

## Main results

* `Hw.fastpath_good`: every configuration of the fast path obeys the discipline.
* `Hw.fastpath_delivers`: the host pops an initial segment of the answers, and the worker counts them.
* `Hw.fastpath_completions_wrap`: a run after which the counter is not the number of pushes.

## References

* `src/hw_worker_sim.c` lines 22–59, `include/hw_ring.h` lines 43–69, `src/infer_submit.c` lines 3–37.
-/

namespace RolloutRuntime

open Concurrency RingBuffer

namespace Hw

/-! ### Answers -/

/-- What the host is to see for the descriptors `ds`: those before the first stop descriptor that ask
for decoding, each decoded. -/
def answers (ds : List HwDesc) : List HwDesc :=
  ((ds.takeWhile (·.opcode ≠ descOpStop)).filter (·.opcode = descOpDecode)).map decodeStep

/-- None of the descriptors is a stop descriptor. -/
def NoStop (ds : List HwDesc) : Prop := ∀ d ∈ ds, d.opcode ≠ descOpStop

theorem answers_isPrefix {ds ds' : List HwDesc} (h : ds <+: ds') : answers ds <+: answers ds' := by
  obtain ⟨t, rfl⟩ := h
  refine List.IsPrefix.map _ (List.IsPrefix.filter _ ?_)
  rw [List.takeWhile_append]
  split_ifs with hall
  · rw [(List.takeWhile_prefix _).eq_of_length hall]
    exact List.prefix_append _ _
  · exact List.prefix_rfl

theorem answers_of_noStop {ds : List HwDesc} (h : NoStop ds) :
    answers ds = (ds.filter (·.opcode = descOpDecode)).map decodeStep := by
  have hall : ds.takeWhile (·.opcode ≠ descOpStop) = ds := by
    have happ : (ds ++ []).takeWhile (·.opcode ≠ descOpStop) =
        ds ++ [].takeWhile (·.opcode ≠ descOpStop) :=
      List.takeWhile_append_of_pos (by simpa [NoStop] using h)
    simpa using happ
  rw [answers, hall]

theorem NoStop.snoc {ds : List HwDesc} (h : NoStop ds) {d : HwDesc} (hd : d.opcode ≠ descOpStop) :
    NoStop (ds ++ [d]) := by
  intro e he
  rcases List.mem_append.mp he with he | he
  · exact h e he
  · rwa [List.mem_singleton.mp he]

theorem answers_snoc {ds : List HwDesc} (h : NoStop ds) {d : HwDesc} (hd : d.opcode ≠ descOpStop) :
    answers (ds ++ [d]) =
      answers ds ++ if d.opcode = descOpDecode then [decodeStep d] else [] := by
  rw [answers_of_noStop (h.snoc hd), answers_of_noStop h]
  by_cases hdec : d.opcode = descOpDecode <;> simp [hdec]

/-! ### The discipline -/

/-- Both rings are in order, and what was published to `doneq` answers what was taken from `cmdq`. -/
structure Mem.Inv (s : Mem) : Prop where
  cmdq : s.cmdq.Inv
  doneq : s.doneq.Inv
  answers : s.doneq.published <+: answers s.cmdq.taken

/-- What a thread relies on. -/
def RelyOn : Party → Mem → Mem → Prop
  | .host, s, s' => Rely .producer s.cmdq s'.cmdq ∧ Rely .consumer s.doneq s'.doneq ∧
      s'.doorbell = s.doorbell
  | .worker, s, s' => Rely .consumer s.cmdq s'.cmdq ∧ Rely .producer s.doneq s'.doneq
  | .stopper, _, _ => True

/-- What a thread may do. The worker may publish to `doneq` only answers to what it took. -/
def Permitted : Party → Access → Mem → Prop
  | .host, .cmd o, s => May (unguarded _) .producer o s.cmdq
  | .host, .done o, s => May (unguarded _) .consumer o s.doneq
  | .host, .storeDoorbell _, _ => True
  | .worker, .cmd o, s => May (unguarded _) .consumer o s.cmdq
  | .worker, .done o, s => May (· <+: answers s.cmdq.taken) .producer o s.doneq
  | .worker, .loadStop, _ => True
  | .stopper, .storeStop _, _ => True
  | _, _, _ => False

theorem permitted_inv {i : Party} {o : Access} {s : Mem} (hs : s.Inv) (h : Permitted i o s) :
    (o.effect s).Inv := by
  obtain ⟨hc, hd, ha⟩ := hs
  cases i with
  | host =>
    cases o with
    | cmd o =>
      have hmay : May (unguarded _) .producer o s.cmdq := h
      refine ⟨hmay.inv hc, hd, ?_⟩
      have htaken : (o.effect s.cmdq).taken = s.cmdq.taken := hmay.rely_consumer.taken_eq
      simpa only [Access.effect, htaken] using ha
    | done o =>
      have hmay : May (unguarded _) .consumer o s.doneq := h
      refine ⟨hc, hmay.inv hd, ?_⟩
      have hpub : (o.effect s.doneq).published = s.doneq.published := hmay.rely_producer.published_eq
      simpa only [Access.effect, hpub] using ha
    | storeDoorbell v => exact ⟨hc, hd, ha⟩
    | loadStop | storeStop => exact h.elim
  | worker =>
    cases o with
    | cmd o =>
      have hmay : May (unguarded _) .consumer o s.cmdq := h
      exact ⟨hmay.inv hc, hd, ha.trans (answers_isPrefix hmay.rely_producer.taken_isPrefix)⟩
    | done o =>
      have hmay : May (· <+: answers s.cmdq.taken) .producer o s.doneq := h
      exact ⟨hc, hmay.inv hd, hmay.guard ha⟩
    | loadStop => exact ⟨hc, hd, ha⟩
    | storeStop | storeDoorbell => exact h.elim
  | stopper =>
    cases o with
    | storeStop v => exact ⟨hc, hd, ha⟩
    | cmd | done | loadStop | storeDoorbell => exact h.elim

/-- A permitted access of one thread is what the others rely on. -/
theorem permitted_rely {i j : Party} {o : Access} {s : Mem} (hij : i ≠ j) (h : Permitted i o s) :
    RelyOn j s (o.effect s) := by
  have refl := fun i (r : HwRing) => Rely.refl i r
  cases i with
  | host =>
    cases j with
    | host => exact absurd rfl hij
    | stopper => trivial
    | worker =>
      cases o with
      | cmd o => exact ⟨May.rely_consumer (G := unguarded _) h, refl _ _⟩
      | done o => exact ⟨refl _ _, May.rely_producer (G := unguarded _) h⟩
      | storeDoorbell v => exact ⟨refl _ _, refl _ _⟩
      | loadStop | storeStop => exact h.elim
  | worker =>
    cases j with
    | worker => exact absurd rfl hij
    | stopper => trivial
    | host =>
      cases o with
      | cmd o => exact ⟨May.rely_producer (G := unguarded _) h, refl _ _, rfl⟩
      | done o => exact ⟨refl _ _, May.rely_consumer (G := (· <+: answers s.cmdq.taken)) h, rfl⟩
      | loadStop => exact ⟨refl _ _, refl _ _, rfl⟩
      | storeStop | storeDoorbell => exact h.elim
  | stopper =>
    cases o with
    | storeStop v =>
      cases j with
      | stopper => trivial
      | host => exact ⟨refl _ _, refl _ _, rfl⟩
      | worker => exact ⟨refl _ _, refl _ _⟩
    | cmd | done | loadStop | storeDoorbell => exact h.elim

/-- The discipline of the host, the worker and the stop flag. -/
def fastpath : Discipline Party Access Mem where
  effect := Access.effect
  inv := Mem.Inv
  rely := RelyOn
  cond _ _ _ := True
  may := Permitted
  rely_refl i s := by
    cases i with
    | host => exact ⟨.refl _ _, .refl _ _, rfl⟩
    | worker => exact ⟨.refl _ _, .refl _ _⟩
    | stopper => trivial
  rely_trans i s s' s'' h h' := by
    cases i with
    | host => exact ⟨h.1.trans h'.1, h.2.1.trans h'.2.1, h'.2.2.trans h.2.2⟩
    | worker => exact ⟨h.1.trans h'.1, h.2.trans h'.2⟩
    | stopper => trivial
  inv_effect hs _ h := permitted_inv hs h
  rely_effect hij _ _ h := permitted_rely hij h

/-! ### The threads obey the discipline -/

section Zoom

variable {α : Type} {Q : α → HwRing → Prop} {p : Prog (Op 32 HwDesc) HwRing α} {s : Mem}

theorem host_onCmdq_ok (h : (spsc 32 16 (unguarded _)).Ok .producer Q p s.cmdq) :
    fastpath.Ok .host (fun a s' => Q a s'.cmdq ∧ s'.doneq.taken = s.doneq.taken) (onCmdq p) s :=
  fastpath.ok_zoom (i := .host) (spsc 32 16 (unguarded _)) .cmd Mem.cmdq
    (fun s' => s'.doneq.taken = s.doneq.taken) h rfl (fun _ _ => rfl) (fun _ hs => hs.cmdq)
    (fun _ _ hr => hr.1) (fun _ _ _ _ => trivial) (fun _ _ _ _ hm => hm)
    (fun _ _ hF hr => hr.2.1.taken_eq.trans hF) (fun _ _ hF => hF)

theorem host_onDoneq_ok (h : (spsc 32 16 (unguarded _)).Ok .consumer Q p s.doneq) :
    fastpath.Ok .host (fun a s' => Q a s'.doneq ∧ s'.cmdq.published = s.cmdq.published)
      (onDoneq p) s :=
  fastpath.ok_zoom (i := .host) (spsc 32 16 (unguarded _)) .done Mem.doneq
    (fun s' => s'.cmdq.published = s.cmdq.published) h rfl (fun _ _ => rfl)
    (fun _ hs => hs.doneq) (fun _ _ hr => hr.2.1) (fun _ _ _ _ => trivial) (fun _ _ _ _ hm => hm)
    (fun _ _ hF hr => hr.1.published_eq.trans hF) (fun _ _ hF => hF)

theorem worker_onCmdq_ok (h : (spsc 32 16 (unguarded _)).Ok .consumer Q p s.cmdq) :
    fastpath.Ok .worker (fun a s' => Q a s'.cmdq ∧ s'.doneq.published = s.doneq.published)
      (onCmdq p) s :=
  fastpath.ok_zoom (i := .worker) (spsc 32 16 (unguarded _)) .cmd Mem.cmdq
    (fun s' => s'.doneq.published = s.doneq.published) h rfl (fun _ _ => rfl)
    (fun _ hs => hs.cmdq) (fun _ _ hr => hr.1) (fun _ _ _ _ => trivial) (fun _ _ _ _ hm => hm)
    (fun _ _ hF hr => hr.2.published_eq.trans hF) (fun _ _ hF => hF)

/-- A program of the producer end of `doneq`, run by the worker, which takes nothing meanwhile. -/
theorem worker_onDoneq_ok
    (h : (spsc 32 16 (· <+: answers s.cmdq.taken)).Ok .producer Q p s.doneq) :
    fastpath.Ok .worker (fun a s' => Q a s'.doneq ∧ s'.cmdq.taken = s.cmdq.taken) (onDoneq p) s := by
  refine fastpath.ok_zoom (i := .worker) (spsc 32 16 (· <+: answers s.cmdq.taken)) .done Mem.doneq
    (fun s' => s'.cmdq.taken = s.cmdq.taken) h rfl (fun _ _ => rfl) (fun _ hs => hs.doneq)
    (fun _ _ hr => hr.2) (fun _ _ _ _ => trivial) (fun o s' _ hF hm => ?_)
    (fun _ _ hF hr => hr.1.taken_eq.trans hF) (fun _ _ hF => hF)
  change May (· <+: answers s'.cmdq.taken) .producer o s'.doneq
  rw [hF]
  exact hm

end Zoom

/-- What the host knows between its calls: its log is the history of the rings. -/
def HostLog.Knows (l : HostLog) (s : Mem) : Prop :=
  s.cmdq.published = l.accepted ∧ s.doneq.taken = l.popped

/-- What the worker knows between its calls. At the top of its loop it has answered all it took; while
it pushes, one answer is missing. -/
def WorkerSim.Knows (l : WorkerSim) (s : Mem) : Prop :=
  l.completions = BitVec.ofNat 64 s.doneq.published.length ∧
    match l.phase with
    | .top => NoStop s.cmdq.taken ∧ s.doneq.published = answers s.cmdq.taken
    | .pushing d => NoStop s.cmdq.taken ∧ s.doneq.published ++ [d] = answers s.cmdq.taken
    | .returned => True

/-- What a thread knows between its calls. -/
def Knows : (i : Party) → Local i → Mem → Prop
  | .host, l, s => HostLog.Knows l s
  | .worker, l, s => WorkerSim.Knows l s
  | .stopper, _, _ => True

theorem HostLog.Knows.rely {l : HostLog} {s s' : Mem} (h : l.Knows s) (hr : RelyOn .host s s') :
    l.Knows s' :=
  ⟨hr.1.published_eq.trans h.1, hr.2.1.taken_eq.trans h.2⟩

theorem WorkerSim.Knows.rely {l : WorkerSim} {s s' : Mem} (h : l.Knows s)
    (hr : RelyOn .worker s s') : l.Knows s' := by
  have htaken : s'.cmdq.taken = s.cmdq.taken := hr.1.taken_eq
  have hpub : s'.doneq.published = s.doneq.published := hr.2.published_eq
  unfold WorkerSim.Knows at h ⊢
  rwa [htaken, hpub]

/-- A submission publishes its descriptor to `cmdq` or nothing. -/
theorem inferSubmitDecode_ok (ctx : Option InferHwCtx) (a : DecodeArgs) {s : Mem} (hs : s.Inv) :
    fastpath.Ok .host
      (fun x s' => s'.cmdq.published = s.cmdq.published ++ x.toList ∧
        s'.doneq.taken = s.doneq.taken)
      (inferSubmitDecode ctx a) s := by
  have hnone : fastpath.Ok .host
      (fun x s' => s'.cmdq.published = s.cmdq.published ++ Option.toList x ∧
        s'.doneq.taken = s.doneq.taken) (.ret (none : Option HwDesc)) s :=
    fun s' hr _ => ⟨by simpa using hr.1.published_eq, hr.2.1.taken_eq⟩
  cases ctx with
  | none => exact hnone
  | some ctx =>
    simp only [inferSubmitDecode]
    split_ifs
    · exact hnone
    · refine Discipline.ok_bind _ hs
        (host_onCmdq_ok (push_ok (by decide) roomSound_hwRing hs.cmdq trivial)) ?_
      rintro x s₁ - ⟨⟨hp, -⟩, ht⟩
      cases x with
      | false => exact fun s₂ hr _ => ⟨hr.1.published_eq.trans (by simpa using hp), hr.2.1.taken_eq.trans ht⟩
      | true =>
        intro s₂ h₂ _ _
        refine ⟨trivial, fun s₃ h₃ _ _ => ⟨trivial, fun s₄ h₄ _ => ⟨?_, ?_⟩⟩⟩
        · exact h₄.1.published_eq.trans (h₃.1.published_eq.trans (h₂.1.published_eq.trans hp))
        · exact h₄.2.1.taken_eq.trans (h₃.2.1.taken_eq.trans (h₂.2.1.taken_eq.trans ht))

theorem host_ok (l : HostLog) (x : HostCall) {s : Mem} (hs : s.Inv) (hl : l.Knows s) :
    fastpath.Ok .host HostLog.Knows (host l x) s := by
  obtain ⟨hacc, hpop⟩ := hl
  cases x with
  | submit ctx a =>
    refine Discipline.ok_bind _ hs (inferSubmitDecode_ok ctx a hs) ?_
    rintro x s₁ - ⟨hp, ht⟩ s₂ hr -
    exact HostLog.Knows.rely ⟨by rw [hp, hacc], ht.trans hpop⟩ hr
  | push d =>
    refine Discipline.ok_bind _ hs
      (host_onCmdq_ok (push_ok (by decide) roomSound_hwRing hs.cmdq trivial)) ?_
    rintro x s₁ - ⟨⟨hp, -⟩, ht⟩ s₂ hr -
    exact HostLog.Knows.rely ⟨by rw [hp, hacc], ht.trans hpop⟩ hr
  | pop =>
    refine Discipline.ok_bind _ hs (host_onDoneq_ok (consume_ok (by decide) emptySound_eqEmpty)) ?_
    rintro x s₁ - ⟨ht, hp⟩ s₂ hr -
    exact HostLog.Knows.rely ⟨hp.trans hacc, by rw [ht, hpop]⟩ hr

theorem worker_ret_ok {l : WorkerSim} {s : Mem} (h : l.Knows s) :
    fastpath.Ok .worker WorkerSim.Knows (.ret l) s :=
  fun _ hr _ => h.rely hr

theorem hwWorkerSim_pushing_ok (d : HwDesc) (decodedTokens completions : BitVec 64) {s : Mem}
    (hs : s.Inv) (hl : WorkerSim.Knows ⟨.pushing d, decodedTokens, completions⟩ s) :
    fastpath.Ok .worker WorkerSim.Knows (hwWorkerSim ⟨.pushing d, decodedTokens, completions⟩) s := by
  obtain ⟨hcount, hno, hpend⟩ := hl
  refine Discipline.ok_bind _ hs (worker_onDoneq_ok
    (push_ok (by decide) roomSound_hwRing hs.doneq (hpend ▸ List.prefix_rfl))) ?_
  rintro x s₁ - ⟨⟨hp, -⟩, ht⟩
  cases x with
  | false =>
    have hp' : s₁.doneq.published = s.doneq.published := by simpa using hp
    refine worker_ret_ok ⟨?_, ?_, ?_⟩
    · rw [hp']
      exact hcount
    · rwa [ht]
    · rwa [hp', ht]
  | true =>
    refine worker_ret_ok ⟨?_, ?_, ?_⟩
    · rw [hp, if_pos rfl, List.length_append, List.length_singleton, BitVec.ofNat_add, ← hcount]
      rfl
    · rwa [ht]
    · rw [hp, ht]
      exact hpend

theorem hwWorkerSim_top_ok (decodedTokens completions : BitVec 64) {s : Mem}
    (hl : WorkerSim.Knows ⟨.top, decodedTokens, completions⟩ s) :
    fastpath.Ok .worker WorkerSim.Knows (hwWorkerSim ⟨.top, decodedTokens, completions⟩) s := by
  intro s₁ hr₁ hs₁ _
  refine ⟨trivial, ?_⟩
  obtain ⟨hcount, hno, hpub⟩ := hl.rely hr₁
  change fastpath.Ok .worker WorkerSim.Knows (if s₁.stop ≠ 0 then _ else _) s₁
  by_cases hstop : s₁.stop ≠ 0
  · rw [if_pos hstop]
    exact worker_ret_ok ⟨hcount, trivial⟩
  · rw [if_neg hstop]
    refine Discipline.ok_bind _ hs₁
      (worker_onCmdq_ok (consume_ok (by decide) emptySound_eqEmpty)) ?_
    rintro x s₂ - ⟨ht, hp⟩
    have hcount₂ : completions = BitVec.ofNat 64 s₂.doneq.published.length := by rwa [hp]
    cases x with
    | none =>
      have ht' : s₂.cmdq.taken = s₁.cmdq.taken := by simpa using ht
      refine worker_ret_ok ⟨hcount₂, ?_, ?_⟩
      · rwa [ht']
      · rw [hp, ht', hpub]
    | some d =>
      have ht' : s₂.cmdq.taken = s₁.cmdq.taken ++ [d] := ht
      dsimp only
      by_cases hopstop : d.opcode = descOpStop
      · rw [if_pos hopstop]
        exact worker_ret_ok ⟨hcount₂, trivial⟩
      · rw [if_neg hopstop]
        have hno₂ : NoStop s₂.cmdq.taken := by
          rw [ht']
          exact hno.snoc hopstop
        have hans := answers_snoc hno hopstop
        by_cases hdec : d.opcode ≠ descOpDecode
        · rw [if_neg hdec, List.append_nil] at hans
          rw [if_pos hdec]
          refine worker_ret_ok ⟨hcount₂, hno₂, ?_⟩
          rw [hp, ht', hans, hpub]
        · rw [if_pos (not_not.mp hdec)] at hans
          rw [if_neg hdec]
          refine worker_ret_ok ⟨hcount₂, hno₂, ?_⟩
          rw [hp, ht', hans, hpub, decodeLoop_fst]

theorem hwWorkerSim_ok (l : WorkerSim) {s : Mem} (hs : s.Inv) (hl : l.Knows s) :
    fastpath.Ok .worker WorkerSim.Knows (hwWorkerSim l) s := by
  obtain ⟨phase, decodedTokens, completions⟩ := l
  cases phase with
  | returned => exact worker_ret_ok hl
  | pushing d => exact hwWorkerSim_pushing_ok d decodedTokens completions hs hl
  | top => exact hwWorkerSim_top_ok decodedTokens completions hl

/-- Every configuration of the fast path obeys the discipline. -/
theorem fastpath_good (z : HwDesc) (stop doorbell : BitVec 32) (es : List ((i : Party) × Call i)) :
    fastpath.Good Knows (system.run (init z stop doorbell) es) := by
  refine Discipline.sound _ rfl (fun i l x s hs hl => ?_) ?_ (system.meets_true _ _)
  · cases i with
    | host => exact host_ok l x hs hl
    | worker => exact hwWorkerSim_ok l hs hl
    | stopper => exact fun _ _ _ _ => ⟨trivial, fun _ _ _ => trivial⟩
  · refine Discipline.good_rest _
      ⟨Ring.zeroed_inv z, Ring.zeroed_inv z, List.nil_prefix⟩ fun i s' hr _ => ?_
    cases i with
    | host => exact HostLog.Knows.rely ⟨rfl, rfl⟩ hr
    | worker => exact WorkerSim.Knows.rely ⟨rfl, fun d hd => by simp [Ring.zeroed] at hd, rfl⟩ hr
    | stopper => trivial

/-- **The fast path from end to end.** In every configuration of every schedule, whatever is stored to
the stop flag: the descriptors popped from `doneq` are, in order, an initial segment of the answers to
those `cmdq` accepted. Whenever the host is at rest these are the descriptors of its log. Whenever the
worker is at the top of its loop, it has pushed the answers to all it popped, one for each decode
request, and its 64-bit counter of completions is their number modulo `2 ^ 64`. -/
theorem fastpath_delivers (z : HwDesc) (stop doorbell : BitVec 32)
    (es : List ((i : Party) × Call i)) :
    let c := system.run (init z stop doorbell) es
    c.mem.doneq.taken <+: answers c.mem.cmdq.published ∧
    (∀ l : HostLog, c.threads .host = .ret l →
      l.accepted = c.mem.cmdq.published ∧ l.popped = c.mem.doneq.taken) ∧
    ∀ l : WorkerSim, c.threads .worker = .ret l → l.phase = .top →
      c.mem.doneq.published = answers c.mem.cmdq.taken ∧
      c.mem.doneq.published.length = c.mem.cmdq.taken.countP (·.opcode = descOpDecode) ∧
      l.completions = BitVec.ofNat 64 c.mem.doneq.published.length := by
  have hgood := fastpath_good z stop doorbell es
  have hinv : (system.run (init z stop doorbell) es).mem.Inv := hgood.1
  refine ⟨?_, fun l hl => ?_, fun l hl htop => ?_⟩
  · exact hinv.doneq.taken_le.trans (hinv.answers.trans (answers_isPrefix hinv.cmdq.taken_le))
  · have hknows : l.Knows _ := hgood.rest hl
    exact ⟨hknows.1.symm, hknows.2.symm⟩
  · have hknows : l.Knows _ := hgood.rest hl
    obtain ⟨hcount, hrest⟩ := hknows
    rw [htop] at hrest
    obtain ⟨hno, hpub⟩ := hrest
    refine ⟨hpub, ?_, hcount⟩
    rw [hpub, answers_of_noStop hno, List.length_map, List.countP_eq_length_filter]

/-! ### A run that wraps the counter -/

theorem onCmdq_run {α : Type} (p : Prog (Op 32 HwDesc) HwRing α) (s : Mem) :
    (onCmdq p).run Access.effect s =
      ((p.run Op.effect s.cmdq).1, { s with cmdq := (p.run Op.effect s.cmdq).2 }) :=
  Prog.run_zoom _ _ Op.effect Access.effect (fun r s => { s with cmdq := r })
    (fun _ _ => rfl) (fun _ _ => rfl) (fun _ _ _ => rfl) (fun _ => rfl) p s

theorem onDoneq_run {α : Type} (p : Prog (Op 32 HwDesc) HwRing α) (s : Mem) :
    (onDoneq p).run Access.effect s =
      ((p.run Op.effect s.doneq).1, { s with doneq := (p.run Op.effect s.doneq).2 }) :=
  Prog.run_zoom _ _ Op.effect Access.effect (fun r s => { s with doneq := r })
    (fun _ _ => rfl) (fun _ _ => rfl) (fun _ _ _ => rfl) (fun _ => rfl) p s

/-- The ring holds exactly the descriptor `d`. -/
def HoldsOne (r : HwRing) (d : HwDesc) : Prop :=
  r.prod = r.cons + 1 ∧ r.slots (mask 16 r.cons) = d

theorem hwRingPush_run {r : HwRing} (h : r.prod = r.cons) (d : HwDesc) :
    ∃ r', (hwRingPush d).run Op.effect r = (true, r') ∧ HoldsOne r' d ∧
      r'.published.length = r.published.length + 1 := by
  have hroom : hwFullTest r.prod r.cons 1 = false := by
    simp only [hwFullTest, h, BitVec.sub_self]
    decide
  refine ⟨_, push_run_of_room hroom, ⟨?_, ?_⟩, ?_⟩
  · simp only [h]
  · simp only [h, Function.update_self]
  · simp only [List.length_append, List.length_singleton]

theorem hwRingPop_run {r : HwRing} {d : HwDesc} (h : HoldsOne r d) :
    ∃ r', hwRingPop.run Op.effect r = (some d, r') ∧ r'.prod = r'.cons ∧
      r'.published = r.published := by
  obtain ⟨hprod, hslot⟩ := h
  have hne : ¬ eqEmpty r.cons r.prod = true := by
    simp only [eqEmpty, hprod, beq_iff_eq]
    bv_omega
  refine ⟨{ r with cons := r.cons + 1, taken := r.taken ++ [d] }, ?_, hprod, rfl⟩
  rw [hwRingPop, consume_run, if_neg hne, hslot]

/-- The host and the worker are at rest with the given local states, on the memory `s`. -/
def AtRest (c : Config Party Access Mem Local) (l : HostLog) (l' : WorkerSim) (s : Mem) : Prop :=
  c.threads .host = .ret l ∧ c.threads .worker = .ret l' ∧ c.mem = s

section Calls

variable {c : Config Party Access Mem Local} {l l₁ : HostLog} {l' l₁' : WorkerSim} {s s₁ : Mem}

theorem AtRest.host_call (h : AtRest c l l' s) {x : HostCall}
    (hrun : (host l x).run Access.effect s = (l₁, s₁)) :
    ∃ es, AtRest (system.run c es) l₁ l' s₁ := by
  obtain ⟨hh, hw, rfl⟩ := h
  obtain ⟨es, hmem, hhost, hother⟩ := system.exists_schedule_of_run (i := .host) x hh hrun
  exact ⟨es, hhost, (hother .worker (by decide)).trans hw, hmem⟩

theorem AtRest.worker_call (h : AtRest c l l' s)
    (hrun : (hwWorkerSim l').run Access.effect s = (l₁', s₁)) :
    ∃ es, AtRest (system.run c es) l l₁' s₁ := by
  obtain ⟨hh, hw, rfl⟩ := h
  obtain ⟨es, hmem, hworker, hother⟩ := system.exists_schedule_of_run (i := .worker) () hw hrun
  exact ⟨es, (hother .host (by decide)).trans hh, hworker, hmem⟩

end Calls

theorem host_push_run (l : HostLog) (d : HwDesc) {s : Mem} (h : s.cmdq.prod = s.cmdq.cons) :
    ∃ l' r, (host l (.push d)).run Access.effect s = (l', { s with cmdq := r }) ∧ HoldsOne r d := by
  obtain ⟨r, hrun, hone, -⟩ := hwRingPush_run h d
  refine ⟨⟨l.accepted ++ [d], l.popped⟩, r, ?_, hone⟩
  rw [host, Prog.run_bind, onCmdq_run, hrun]
  rfl

theorem worker_pop_run (t k : BitVec 64) {s : Mem} {d : HwDesc} {r : HwRing} (hstop : s.stop = 0)
    (hpop : hwRingPop.run Op.effect s.cmdq = (some d, r)) (hd : d.opcode = descOpDecode) :
    (hwWorkerSim ⟨.top, t, k⟩).run Access.effect s =
      (⟨.pushing (decodeLoop d t).1, (decodeLoop d t).2, k⟩, { s with cmdq := r }) := by
  have hne : descOpDecode ≠ descOpStop := by decide
  rw [hwWorkerSim, Prog.load_bind, Prog.run_act]
  rw [if_neg (not_not.mpr hstop), Prog.run_bind, Access.effect, onCmdq_run, hpop]
  simp only [hd, hne, ne_eq, not_true, if_false]
  rfl

theorem worker_push_run (d : HwDesc) (t k : BitVec 64) {s : Mem} (h : s.doneq.prod = s.doneq.cons) :
    ∃ r, (hwWorkerSim ⟨.pushing d, t, k⟩).run Access.effect s =
      (⟨.top, t, k + 1⟩, { s with doneq := r }) ∧ HoldsOne r d ∧
        r.published.length = s.doneq.published.length + 1 := by
  obtain ⟨r, hrun, hone, hlen⟩ := hwRingPush_run h d
  refine ⟨r, ?_, hone, hlen⟩
  rw [hwWorkerSim, Prog.run_bind, onDoneq_run, hrun]
  rfl

theorem host_pop_run (l : HostLog) {s : Mem} {d : HwDesc} (h : HoldsOne s.doneq d) :
    ∃ l' r, (host l .pop).run Access.effect s = (l', { s with doneq := r }) ∧ r.prod = r.cons ∧
      r.published = s.doneq.published := by
  obtain ⟨r, hrun, hempty, hpub⟩ := hwRingPop_run h
  refine ⟨⟨l.accepted, l.popped ++ [d]⟩, r, ?_, hempty, hpub⟩
  rw [host, Prog.run_bind, onDoneq_run, hrun]
  rfl

/-- Both rings are empty, the worker may go on, and `n` descriptors have gone through `doneq`. -/
def Quiescent (n : ℕ) (s : Mem) : Prop :=
  s.stop = 0 ∧ s.cmdq.prod = s.cmdq.cons ∧ s.doneq.prod = s.doneq.cons ∧
    s.doneq.published.length = n

/-- One more decode request goes through: the host pushes it, the worker pops and decodes it, the
worker pushes it, the host pops it. -/
theorem quiescent_succ {n : ℕ} {c : Config Party Access Mem Local} {l : HostLog} {t k : BitVec 64}
    {s : Mem} (hc : AtRest c l ⟨.top, t, k⟩ s) (h : Quiescent n s) :
    ∃ es l' t' k' s', AtRest (system.run c es) l' ⟨.top, t', k'⟩ s' ∧ Quiescent (n + 1) s' := by
  obtain ⟨hstop, hcmd, hdone, hn⟩ := h
  obtain ⟨l₁, r₁, hrun₁, hone₁⟩ :=
    host_push_run l ⟨descOpDecode, 0, 0, 0, 0, 0, 0, 0, 0, 0, 0, 0, 0⟩ hcmd
  obtain ⟨es₁, h₁⟩ := hc.host_call hrun₁
  obtain ⟨r₂, hpop₂, hempty₂, -⟩ := hwRingPop_run hone₁
  obtain ⟨es₂, h₂⟩ := h₁.worker_call (worker_pop_run t k (s := { s with cmdq := r₁ }) hstop hpop₂ rfl)
  obtain ⟨r₃, hrun₃, hone₃, hlen₃⟩ := worker_push_run _ _ k (s := { s with cmdq := r₂ }) hdone
  obtain ⟨es₃, h₃⟩ := h₂.worker_call hrun₃
  obtain ⟨l₄, r₄, hrun₄, hempty₄, hpub₄⟩ :=
    host_pop_run l₁ (s := { s with cmdq := r₂, doneq := r₃ }) hone₃
  obtain ⟨es₄, h₄⟩ := h₃.host_call hrun₄
  rw [← System.run_append, ← System.run_append, ← System.run_append] at h₄
  refine ⟨_, _, _, _, _, h₄, hstop, hempty₂, hempty₄, ?_⟩
  rw [hpub₄, hlen₃, hn]

theorem exists_quiescent (n : ℕ) :
    ∃ es l t k s, AtRest (system.run (init default 0 0) es) l ⟨.top, t, k⟩ s ∧ Quiescent n s := by
  induction n with
  | zero => exact ⟨[], _, _, _, _, ⟨rfl, rfl, rfl⟩, rfl, rfl, rfl, rfl⟩
  | succ n ih =>
    obtain ⟨es, l, t, k, s, hc, hs⟩ := ih
    obtain ⟨es', h⟩ := quiescent_succ hc hs
    rw [← System.run_append] at h
    exact ⟨es ++ es', h⟩

/-- After `2 ^ 64` descriptors the counter of completions is back at zero. -/
theorem fastpath_completions_wrap :
    ¬ ∀ (es : List ((i : Party) × Call i)) (l : WorkerSim),
      (system.run (init default 0 0) es).threads .worker = .ret l → l.phase = .top →
      (system.run (init default 0 0) es).mem.doneq.published.length = l.completions.toNat := by
  intro hall
  obtain ⟨es, l, t, k, s, ⟨-, hw, rfl⟩, -, -, -, hn⟩ := exists_quiescent (2 ^ 64)
  have heq := hall es ⟨.top, t, k⟩ hw rfl
  have hlt := k.isLt
  rw [hn] at heq
  omega

end Hw

end RolloutRuntime
