import RolloutRuntime.Decode.Workers

/-!
# Exactly-once decoding

The rings have one consumer end and one producer end each, but all workers use them. A worker decides
on copies of the indices, and another worker may have moved them by the time it stores. The steps at
which this does harm are three: the store of the head of the command ring, the write of a completion
slot, and the store of the tail of the completion ring. In a run in which every such step finds the ring
as its worker left it, every descriptor is taken once and every completion reaches the host; in a run
of two workers in which one does not, a descriptor is decoded twice.

## Main definitions

* `Workers.ExactlyOnce`: no descriptor is taken twice, the completions polled and pending are those
  pushed, and those pushed are of descriptors taken.
* `Workers.InTurn`: the condition on the steps of a worker.

## Main results

* `Workers.decode_exactlyOnce`: runs all steps of which are in turn decode exactly once.
* `Workers.decoded_twice`: a run of two workers that does not.

## References

* `cu/worker.cu` lines 77–131, `include/ring.h` lines 60–69, `include/completion.h` lines 63–87.
-/

namespace RolloutRuntime

open Concurrency RingBuffer

namespace Workers

/-! ### The property and the condition -/

/-- What identifies the descriptor of a completion. -/
def key (c : Completion) : BitVec 64 × BitVec 64 := (c.seqId, c.rewardCookie)

/-- A completion of a descriptor that was taken. -/
def OfTaken (s : Mem) (c : Completion) : Prop :=
  ∃ d ∈ s.ring.taken, key c = (d.seqId, d.rewardCookie)

/-- No descriptor has been taken more often than it was committed, and the completions the host has
polled, together with those pending in the completion ring, are those of the pushes that succeeded, each
of a descriptor that was taken. -/
structure ExactlyOnce (s : Mem) : Prop where
  taken : ∀ d, s.ring.taken.count d ≤ s.ring.published.count d
  completions : ((s.compRing.taken ++
    pending 12 s.compRing.prod s.compRing.cons s.compRing.slots).map key).Perm
      (s.compRing.published.map key)
  decoded : ∀ c ∈ s.compRing.published, OfTaken s c

/-- A step of a worker that uses a copy of an index finds the ring as the copy says: the head it
advances is the current one; the slot it writes is that of the current tail, and free; and the tail it
advances is the current one, with its completion still in the slot. -/
def InTurn {N : ℕ} : Thread N → Access → Mem → Prop
  | .worker _, .ring (.storeCons v _), s => v = s.ring.cons + 1
  | .worker _, .compRing (.writeSlot i _), s =>
      i = s.compRing.prod ∧ (s.compRing.prod - s.compRing.cons).toNat < 2 ^ 12
  | .worker _, .compRing (.storeProd v cs), s =>
      v = s.compRing.prod + 1 ∧ (s.compRing.prod - s.compRing.cons).toNat < 2 ^ 12 ∧
        cs = [s.compRing.slots (mask 12 s.compRing.prod)]
  | _, _, _ => True

/-! ### The discipline -/

/-- Both rings are in order, the head of the command ring has not wrapped, and every completion pushed
is of a descriptor that was taken. -/
structure Mem.Inv (s : Mem) : Prop where
  ring : s.ring.Inv
  short : s.ring.taken.length < 2 ^ 32
  compRing : s.compRing.Inv
  decoded : ∀ c ∈ s.compRing.published, OfTaken s c

/-- What a thread relies on. The host is alone at its ends of the rings; a worker knows only that the
other threads commit and take. -/
def RelyOn {N : ℕ} : Thread N → Mem → Mem → Prop
  | .submitter, s, s' => Rely .producer s.ring s'.ring
  | .poller, s, s' => Rely .consumer s.compRing s'.compRing
  | .worker _, s, s' => s.ring.taken <+: s'.ring.taken ∧ s.ring.published <+: s'.ring.published

/-- What a thread may do. -/
def Permitted {N : ℕ} : Thread N → Access → Mem → Prop
  | .submitter, .ring o, s => May (unguarded _) .producer o s.ring
  | .poller, .compRing o, s => May (unguarded _) .consumer o s.compRing
  | .worker _, .ring (.storeCons _ d), s =>
      s.ring.published[s.ring.taken.length]? = some d ∧ s.ring.taken.length + 1 < 2 ^ 32
  | .worker _, .ring .loadProd, _ => True
  | .worker _, .ring .loadCons, _ => True
  | .worker _, .ring (.readSlot _), _ => True
  | .worker _, .compRing o, s => o.ofProducer (OfTaken s)
  | _, _, _ => False

section Steps

variable {N : ℕ} {o : Access} {s : Mem}

theorem OfTaken.mono {s' : Mem} {c : Completion} (h : OfTaken s c)
    (hle : s.ring.taken <+: s'.ring.taken) : OfTaken s' c := by
  obtain ⟨d, hd, hkey⟩ := h
  exact ⟨d, hle.subset hd, hkey⟩

/-- A step of a worker on the completion ring, in turn, is a step of a single producer. -/
theorem may_of_inTurn {i : Fin N} {o : Op 32 Completion} (hs : s.compRing.Inv)
    (hturn : InTurn (.worker i) (.compRing o) s) (ho : o.ofProducer (OfTaken s)) :
    May (unguarded _) .producer o s.compRing := by
  have hocc := Contents.occupancy hs (k := 12) (w := 32) (by decide)
  have hle := hs.length_le
  have hpos : mask 12 s.compRing.prod = pos 12 s.compRing.published.length := by
    rw [hs.prod_eq, mask_ofNat (by decide)]
  cases o with
  | loadProd | loadCons | countOverflow => trivial
  | readSlot | storeCons => exact ho.elim
  | writeSlot i c =>
    obtain ⟨rfl, hroom⟩ := hturn
    exact ⟨_, hpos, le_rfl, by omega⟩
  | storeProd v cs =>
    obtain ⟨rfl, hroom, rfl⟩ := hturn
    refine ⟨rfl, by rw [List.length_singleton]; omega, fun j hj => ?_, trivial⟩
    obtain rfl : j = 0 := by simpa using hj
    rw [hpos]
    rfl

theorem permitted_inv {i : Thread N} (hs : s.Inv) (hturn : InTurn i o s) (h : Permitted i o s) :
    (o.effect s).Inv := by
  obtain ⟨hr, hshort, hc, hdec⟩ := hs
  cases i with
  | submitter =>
    cases o with
    | compRing o => exact h.elim
    | ring o =>
      have hmay : May (unguarded _) .producer o s.ring := h
      have htaken : (o.effect s.ring).taken = s.ring.taken := hmay.rely_consumer.taken_eq
      refine ⟨hmay.inv hr, ?_, hc, fun c hmem => (hdec c hmem).mono ?_⟩
      · simpa only [Access.effect, htaken] using hshort
      · exact htaken ▸ List.prefix_rfl
  | poller =>
    cases o with
    | ring o => exact h.elim
    | compRing o =>
      have hmay : May (unguarded _) .consumer o s.compRing := h
      have hpub : (o.effect s.compRing).published = s.compRing.published :=
        hmay.rely_producer.published_eq
      refine ⟨hr, hshort, hmay.inv hc, fun c hmem => hdec c ?_⟩
      exact hpub ▸ hmem
  | worker i =>
    cases o with
    | compRing o =>
      have hprod : o.ofProducer (OfTaken s) := h
      exact ⟨hr, hshort, (may_of_inTurn hc hturn h).inv hc, hprod.published hdec⟩
    | ring o =>
      cases o with
      | loadProd | loadCons | readSlot => exact ⟨hr, hshort, hc, hdec⟩
      | writeSlot | storeProd | countOverflow => exact h.elim
      | storeCons v d =>
        obtain ⟨hd, hlt⟩ := h
        obtain rfl : v = s.ring.cons + 1 := hturn
        refine ⟨Contents.take hr hd, ?_, hc, fun c hmem => (hdec c hmem).mono ?_⟩
        · simpa [Access.effect, Op.effect] using hlt
        · exact List.prefix_append _ _

theorem permitted_rely {i j : Thread N} (hij : i ≠ j) (hs : s.Inv) (hturn : InTurn i o s)
    (h : Permitted i o s) : RelyOn j s (o.effect s) := by
  cases i with
  | submitter =>
    cases o with
    | compRing o => exact h.elim
    | ring o =>
      have hmay : May (unguarded _) .producer o s.ring := h
      cases j with
      | submitter => exact absurd rfl hij
      | poller => exact Rely.refl .consumer s.compRing
      | worker j =>
        have hrely := hmay.rely_consumer
        exact ⟨hrely.taken_eq ▸ List.prefix_rfl, hrely.published_isPrefix⟩
  | poller =>
    cases o with
    | ring o => exact h.elim
    | compRing o =>
      cases j with
      | submitter => exact Rely.refl .producer s.ring
      | poller => exact absurd rfl hij
      | worker j => exact ⟨List.prefix_rfl, List.prefix_rfl⟩
  | worker i =>
    cases o with
    | compRing o =>
      cases j with
      | submitter => exact Rely.refl .producer s.ring
      | poller => exact (may_of_inTurn hs.compRing hturn h).rely_consumer
      | worker j => exact ⟨List.prefix_rfl, List.prefix_rfl⟩
    | ring o =>
      cases o with
      | writeSlot | storeProd | countOverflow => exact h.elim
      | loadProd | loadCons | readSlot =>
        cases j with
        | submitter => exact Rely.refl .producer s.ring
        | poller => exact Rely.refl .consumer s.compRing
        | worker j => exact ⟨List.prefix_rfl, List.prefix_rfl⟩
      | storeCons v d =>
        cases j with
        | submitter => exact ⟨rfl, rfl, rfl, rfl, List.prefix_append _ _⟩
        | poller => exact Rely.refl .consumer s.compRing
        | worker j => exact ⟨List.prefix_append _ _, List.prefix_rfl⟩

end Steps

/-- The discipline of the host and `N` workers, in runs all steps of which are in turn. -/
def inTurn (N : ℕ) : Discipline (Thread N) Access Mem where
  effect := Access.effect
  inv := Mem.Inv
  rely := RelyOn
  cond := InTurn
  may := Permitted
  rely_refl i s := by
    cases i with
    | submitter => exact Rely.refl .producer s.ring
    | poller => exact Rely.refl .consumer s.compRing
    | worker i => exact ⟨List.prefix_rfl, List.prefix_rfl⟩
  rely_trans i s s' s'' h h' := by
    cases i with
    | submitter => exact Rely.trans (i := .producer) h h'
    | poller => exact Rely.trans (i := .consumer) h h'
    | worker i => exact ⟨h.1.trans h'.1, h.2.trans h'.2⟩
  inv_effect hs hturn h := permitted_inv hs hturn h
  rely_effect hij hs hturn h := permitted_rely hij hs hturn h

/-! ### The threads obey the discipline -/

section Threads

variable {N : ℕ} {s : Mem}

theorem hostSubmit_ok (ds : DescriptorBatch) (hs : s.Inv) :
    (inTurn N).Ok .submitter (fun _ _ => True) (hostSubmit ds) s := by
  have hsubmit := commandQueue_lawful.give_ok ds hs.ring
  have hzoom := (inTurn N).ok_component (i := .submitter) (spsc 32 12 (unguarded _)) .ring Mem.ring
    hsubmit (fun _ _ => rfl) (fun _ hs => hs.ring) (fun _ _ hr => hr) (fun _ _ _ => trivial)
    (fun _ _ _ hm => hm)
  exact (inTurn N).ok_bind hs hzoom fun _ _ _ _ _ _ _ => trivial

/-- The list the host remembers is the history of the completion ring. -/
theorem hostPoll_ok (l : List Completion) (hs : s.Inv) (hl : s.compRing.taken = l) :
    (inTurn N).Ok .poller (fun l s => s.compRing.taken = l) (hostPoll l) s := by
  have hpoll : (spsc 32 12 (unguarded _)).Ok .consumer _ compRingPoll s.compRing :=
    consume_ok (by decide) emptySound_orderedEmpty
  have hzoom := (inTurn N).ok_component (i := .poller) (spsc 32 12 (unguarded _)) .compRing
    Mem.compRing hpoll (fun _ _ => rfl) (fun _ hs => hs.compRing) (fun _ _ hr => hr)
    (fun _ _ _ => trivial) (fun _ _ _ hm => hm)
  refine (inTurn N).ok_bind hs hzoom ?_
  rintro x s₁ - ht s₂ hr -
  have htaken : s₂.compRing.taken = s₁.compRing.taken := hr.2.1
  rw [htaken, ht, hl]

/-- **A poll of a worker.** If the head is still the one the worker loaded when it stores, then no
other worker has taken anything in between, and what it copied is the oldest descriptor. -/
theorem worker_ringConsume_ok (i : Fin N) :
    (inTurn N).Ok (.worker i) (fun x s => ∀ d ∈ x, d ∈ s.ring.taken) (onRing ringConsume) s := by
  intro s₁ _ i₁ _
  refine ⟨trivial, fun s₂ h₂ i₂ _ => ⟨trivial, ?_⟩⟩
  change (inTurn N).Ok (.worker i) _
    (Prog.zoom _ _ (if orderedEmpty s₁.ring.cons s₂.ring.prod then _ else _)) _
  by_cases hempty : orderedEmpty s₁.ring.cons s₂.ring.prod = true
  · rw [if_pos hempty]
    exact fun _ _ _ _ hd => absurd hd (Option.not_mem_none _)
  · rw [if_neg hempty]
    have hcons : s₁.ring.cons.toNat = s₁.ring.taken.length := by
      rw [i₁.ring.cons_eq, BitVec.toNat_ofNat, Nat.mod_eq_of_lt i₁.short]
    have hlt : s₁.ring.cons.toNat < s₂.ring.prod.toNat := by
      simpa [orderedEmpty, BitVec.lt_def] using hempty
    have hprod : s₂.ring.prod.toNat ≤ s₂.ring.published.length := by
      rw [i₂.ring.prod_eq, BitVec.toNat_ofNat]
      exact Nat.mod_le _ _
    have hword := s₂.ring.prod.isLt
    intro s₃ h₃ i₃ _
    refine ⟨trivial, fun s₄ h₄ i₄ hturn => ⟨?_, fun s₅ h₅ _ d hd => ?_⟩⟩
    swap
    · obtain rfl := Option.some.inj hd
      exact h₅.1.subset (List.mem_append_right _ (List.mem_singleton_self _))
    -- the head was not moved between the load and the store
    have hhead : s₁.ring.cons = s₄.ring.cons := by
      have hstore : s₁.ring.cons + 1 = s₄.ring.cons + 1 := hturn
      exact (BitVec.add_left_inj 1).mp hstore
    have hcons₄ : s₄.ring.cons.toNat = s₄.ring.taken.length := by
      rw [i₄.ring.cons_eq, BitVec.toNat_ofNat, Nat.mod_eq_of_lt i₄.short]
    have hle₂ : s₁.ring.taken.length ≤ s₂.ring.taken.length := h₂.1.length_le
    have hle₃ : s₂.ring.taken.length ≤ s₃.ring.taken.length := h₃.1.length_le
    have hle₄ : s₃.ring.taken.length ≤ s₄.ring.taken.length := h₄.1.length_le
    have hpub₃ : s₂.ring.published.length ≤ s₃.ring.published.length := h₃.2.length_le
    rw [← hhead] at hcons₄
    have hold := i₃.ring.oldest (by decide) (by omega)
    have hcons₃ : s₃.ring.cons = s₁.ring.cons := by
      rw [i₃.ring.cons_eq, i₁.ring.cons_eq, show s₃.ring.taken.length = s₁.ring.taken.length by omega]
    rw [hcons₃, show s₃.ring.taken.length = s₄.ring.taken.length by omega] at hold
    obtain ⟨t, ht⟩ := h₄.2
    refine ⟨?_, by omega⟩
    have hpub₄ : s₃.ring.published ++ t = s₄.ring.published := ht
    rw [← hpub₄, List.getElem?_append_left (by omega)]
    exact hold

/-- What a worker knows between its calls: the completion it is to push is of a descriptor that was
taken. -/
def Worker.Knows (l : Worker) (s : Mem) : Prop := ∀ c, l = .pushing c → OfTaken s c

/-- **A call of a worker.** -/
theorem decodeWorker_ok (i : Fin N) (l : Worker) (x : DecodeStepResult) (hs : s.Inv)
    (hl : l.Knows s) : (inTurn N).Ok (.worker i) Worker.Knows (decodeWorker l x) s := by
  cases l with
  | returned => exact fun _ _ _ _ hc => Worker.noConfusion hc
  | polling =>
    refine (inTurn N).ok_bind hs (worker_ringConsume_ok i) ?_
    rintro y s₁ - hy
    cases y with
    | none => exact fun _ _ _ _ hc => Worker.noConfusion hc
    | some d =>
      dsimp only
      split_ifs
      · exact fun _ _ _ _ hc => Worker.noConfusion hc
      · rintro s₂ hr - c hc
        obtain rfl := Worker.pushing.inj hc
        exact ⟨d, hr.1.subset (hy d rfl), rfl⟩
  | pushing c =>
    have hpush := (inTurn N).ok_of_uses (i := .worker i) (F := fun s => OfTaken s c)
      (A := fun o => ∃ o', o = .compRing o' ∧ o'.ofProducer (· = c))
      (p := onCompRing (compRingPush c)) ?_ (fun _ _ hF hr => hF.mono hr.1) ?_ ?_ (hl c rfl)
    · refine (inTurn N).ok_bind hs hpush ?_
      rintro y s₁ - hF
      cases y with
      | true => exact fun _ _ _ _ hc => Worker.noConfusion hc
      | false =>
        rintro s₂ hr - c' hc
        obtain rfl := Worker.pushing.inj hc
        exact hF.mono hr.1
    · rintro o s ⟨o', rfl, ho⟩ hF
      exact ho.mono fun a ha => ha ▸ hF
    · rintro o s ⟨o', rfl, -⟩ hF
      exact hF
    · exact Prog.uses_zoom (Prog.uses_mono (push_uses _ c) fun o ho => ⟨o, rfl, ho⟩)

end Threads

/-- What a thread knows between its calls. -/
def Knows {N : ℕ} : (i : Thread N) → Local i → Mem → Prop
  | .submitter, _, _ => True
  | .poller, l, s => s.compRing.taken = l
  | .worker _, l, s => Worker.Knows l s

theorem inTurn_good (N : ℕ) (z : Descriptor) (z' : Completion)
    (es : List ((i : Thread N) × Call i)) (hes : (system N).Meets InTurn (init N z z') es) :
    (inTurn N).Good Knows ((system N).run (init N z z') es) := by
  refine Discipline.sound _ rfl (fun i l x s hs hl => ?_) ?_ hes
  · cases i with
    | submitter => exact hostSubmit_ok x hs
    | poller => exact hostPoll_ok l hs hl
    | worker i => exact decodeWorker_ok i l x hs hl
  · refine Discipline.good_rest _ ⟨Ring.zeroed_inv z, Nat.two_pow_pos 32, Ring.zeroed_inv z',
      fun c hc => absurd hc List.not_mem_nil⟩ fun i s' hr _ => ?_
    cases i with
    | submitter => trivial
    | poller => exact hr.2.1
    | worker i => exact fun c hc => Worker.noConfusion hc

/-- **Exactly-once decoding.** For every number of workers: in every configuration of every run all
steps of which are in turn, no descriptor has been taken twice, the `n`-th one taken being the `n`-th
one committed, and the completions polled and pending are those pushed, each of a descriptor taken; and
the completions the host remembers are those polled. -/
theorem decode_exactlyOnce (N : ℕ) (z : Descriptor) (z' : Completion)
    (es : List ((i : Thread N) × Call i)) (hes : (system N).Meets InTurn (init N z z') es) :
    let c := (system N).run (init N z z') es
    ExactlyOnce c.mem ∧ c.mem.ring.taken <+: c.mem.ring.published ∧
      ∀ l : List Completion, c.threads .poller = .ret l → c.mem.compRing.taken = l := by
  have hgood := inTurn_good N z z' es hes
  have hinv : ((system N).run (init N z z') es).mem.Inv := hgood.1
  refine ⟨⟨fun d => ?_, ?_, hinv.decoded⟩, hinv.ring.taken_le, fun l hl => hgood.rest hl⟩
  · exact hinv.ring.taken_le.sublist.count_le d
  · rw [hinv.compRing.taken_append_pending (by decide)]

/-! ### Two runs -/

/-- `n` steps of one thread. -/
def steps {N : ℕ} (i : Thread N) (x : Call i) (n : ℕ) : List ((i : Thread N) × Call i) :=
  List.replicate n ⟨i, x⟩

/-- A batch of one descriptor. -/
def oneDescriptor : DescriptorBatch := ⟨[⟨7, 0, 0, 0, 0, 0, 7, 1, 0⟩], by decide⟩

/-- The host commits one descriptor; the first of two workers takes it and pushes its completion; the
host polls it. -/
def inTurnRun : List ((i : Thread 2) × Call i) :=
  steps .submitter oneDescriptor 6 ++ steps (.worker 0) ⟨0, 0⟩ 10 ++ steps .poller () 5

/-- The host commits one descriptor; both workers load the indices and copy the slot; then both store
the head. -/
def raceRun : List ((i : Thread 2) × Call i) :=
  steps .submitter oneDescriptor 6 ++ steps (.worker 0) ⟨0, 0⟩ 4 ++ steps (.worker 1) ⟨0, 0⟩ 4 ++
    steps (.worker 0) ⟨0, 0⟩ 1 ++ steps (.worker 1) ⟨0, 0⟩ 1

instance {N : ℕ} (i : Thread N) (o : Access) (s : Mem) : Decidable (InTurn i o s) := by
  unfold InTurn
  split <;> infer_instance

/-- A run of two workers in turn: one descriptor is committed, taken, completed and polled. -/
theorem decode_exactlyOnce_inTurnRun :
    (system 2).Meets InTurn (init 2 default default) inTurnRun ∧
      ExactlyOnce ((system 2).run (init 2 default default) inTurnRun).mem ∧
      ((system 2).run (init 2 default default) inTurnRun).mem.compRing.taken.map key = [(7, 7)] := by
  have hmeets : (system 2).Meets InTurn (init 2 default default) inTurnRun := by decide
  exact ⟨hmeets, (decode_exactlyOnce 2 default default inTurnRun hmeets).1, by decide⟩

/-- Two workers decode one descriptor. -/
theorem decoded_twice :
    ¬ ExactlyOnce ((system 2).run (init 2 default default) raceRun).mem := by
  intro h
  have htaken := h.taken ⟨7, 0, 0, 0, 0, 0, 7, 1, 0⟩
  exact absurd htaken (by decide)

end Workers

end RolloutRuntime
