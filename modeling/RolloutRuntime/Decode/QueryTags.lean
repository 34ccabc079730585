import RolloutRuntime.Decode.Dispatch

/-!
# Queued steps and their queries

A descriptor names the query it is to be decoded with only by its step number, and the slot of that
number is written again by every later step that is congruent to it and by every later trajectory. The
host writes the slot before it asks the command ring for room, so nothing holds it back while the
earlier descriptor is still queued.

In a run in which no slot is prepared while another step queued in the ring uses it, every descriptor
finds its own query when it is consumed. Two trajectories of one step, dispatched one after the other,
are a run in which the first descriptor does not.

## Main definitions

* `Dispatch.ReadsOwnQuery`: the descriptor being consumed finds its own tag in the query buffer.
* `Dispatch.KeepsQueued`: the condition on the steps of the host.

## Main results

* `Dispatch.fillBatch_ok`: a window of descriptors is tagged when it is submitted.
* `Dispatch.dispatch_readsOwnQuery`: in runs all steps of which meet the condition, every descriptor
  consumed reads its own query.
* `Dispatch.dispatch_reads_other_query`: a run in which one does not.

## References

* `src/main.c` lines 121–162, `src/decode_batch.c` lines 20–42, `cu/worker.cu` lines 25–43.
-/

namespace RolloutRuntime

open Concurrency RingBuffer

namespace Dispatch

/-! ### The property and the condition -/

/-- The tag of the query a descriptor is meant for. -/
def tag (d : Descriptor) : Tag := ⟨d.seqId, d.outputTokenOffset⟩

/-- The slot the descriptor will read holds its own tag. -/
def Tagged (q : Fin (2 ^ 12) → Option Tag) (d : Descriptor) : Prop :=
  q (ioSlot d.outputTokenOffset) = some (tag d)

/-- If the consumer is about to consume a descriptor, the descriptor is tagged. -/
def ReadsOwnQuery (c : Config Thread Access Mem Local) : Prop :=
  ∀ v d, c.next .consumer = some (.ring (.storeCons v d)) → Tagged c.mem.qBuffer d

/-- The descriptors committed and not yet consumed. -/
def Mem.queued (s : Mem) : List Descriptor := s.ring.published.drop s.ring.taken.length

/-- A slot is prepared for `t` only if no descriptor queued in the ring uses it for another tag. -/
def KeepsQueued : Thread → Access → Mem → Prop
  | .dispatcher, .prepareSlot i t, s =>
      ∀ d ∈ s.queued, ioSlot d.outputTokenOffset = i → tag d = t
  | _, _, _ => True

instance (i : Thread) (o : Access) (s : Mem) : Decidable (KeepsQueued i o s) := by
  unfold KeepsQueued
  split <;> infer_instance

/-! ### The discipline -/

/-- The ring is in order, and every queued descriptor is tagged. -/
structure Mem.Inv (s : Mem) : Prop where
  ring : s.ring.Inv
  tagged : ∀ d ∈ s.queued, Tagged s.qBuffer d

/-- What a thread relies on. The dispatching host alone prepares queries. -/
def RelyOn : Thread → Mem → Mem → Prop
  | .dispatcher, s, s' => Rely .producer s.ring s'.ring ∧ s'.qBuffer = s.qBuffer
  | .consumer, s, s' => Rely .consumer s.ring s'.ring

/-- The descriptors from position `n` on are tagged. -/
def TaggedFrom (n : ℕ) (q : Fin (2 ^ 12) → Option Tag) (l : List Descriptor) : Prop :=
  ∀ d ∈ l.drop n, Tagged q d

/-- What a thread may do: the host commits tagged descriptors only. -/
def Permitted : Thread → Access → Mem → Prop
  | .dispatcher, .ring o, s =>
      May (TaggedFrom s.ring.published.length s.qBuffer) .producer o s.ring
  | .dispatcher, .prepareSlot _ _, _ => True
  | .consumer, .ring o, s => May (unguarded _) .consumer o s.ring
  | .consumer, .prepareSlot _ _, _ => False

theorem TaggedFrom.mono {m n : ℕ} {q : Fin (2 ^ 12) → Option Tag} {l : List Descriptor}
    (h : TaggedFrom m q l) (hmn : m ≤ n) : TaggedFrom n q l :=
  fun d hd => h d (List.drop_subset_drop_left l hmn hd)

theorem taggedFrom_append {n : ℕ} {q : Fin (2 ^ 12) → Option Tag} {l l' : List Descriptor}
    (h : TaggedFrom n q l) (hn : n ≤ l.length) (h' : TaggedFrom l.length q (l ++ l')) :
    TaggedFrom n q (l ++ l') := by
  intro d hd
  rw [List.drop_append_of_le_length hn, List.mem_append] at hd
  rcases hd with hd | hd
  · exact h d hd
  · exact h' d (by rwa [List.drop_left])

section Steps

variable {i : Thread} {o : Access} {s : Mem}

theorem permitted_inv (hs : s.Inv) (hc : KeepsQueued i o s) (h : Permitted i o s) :
    (o.effect s).Inv := by
  obtain ⟨hr, ht⟩ := hs
  cases i with
  | dispatcher =>
    cases o with
    | ring o =>
      have hmay : May (TaggedFrom s.ring.published.length s.qBuffer) .producer o s.ring := h
      refine ⟨hmay.inv hr, ?_⟩
      obtain ⟨-, htaken, l, hl⟩ := hmay.rely_consumer
      have hnew := hmay.guard (fun d hd => by simp at hd)
      change TaggedFrom (o.effect s.ring).taken.length s.qBuffer (o.effect s.ring).published
      rw [htaken, ← hl]
      rw [← hl] at hnew
      exact taggedFrom_append ht hr.length_le hnew
    | prepareSlot j t =>
      refine ⟨hr, fun d hd => ?_⟩
      by_cases hj : ioSlot d.outputTokenOffset = j
      · rw [Tagged, hc d hd hj, Access.effect, hj]
        exact Function.update_self _ _ _
      · rw [Tagged, Access.effect]
        exact (Function.update_of_ne hj _ _).trans (ht d hd)
  | consumer =>
    cases o with
    | ring o =>
      have hmay : May (unguarded _) .consumer o s.ring := h
      refine ⟨hmay.inv hr, ?_⟩
      obtain ⟨-, -, -, hpub, htaken⟩ := hmay.rely_producer
      change TaggedFrom (o.effect s.ring).taken.length s.qBuffer (o.effect s.ring).published
      rw [hpub]
      exact TaggedFrom.mono ht htaken.length_le
    | prepareSlot => exact h.elim

theorem permitted_rely {j : Thread} (hij : i ≠ j) (h : Permitted i o s) :
    RelyOn j s (o.effect s) := by
  cases i with
  | dispatcher =>
    cases j with
    | dispatcher => exact absurd rfl hij
    | consumer =>
      cases o with
      | ring o => exact May.rely_consumer h
      | prepareSlot => exact Rely.refl .consumer s.ring
  | consumer =>
    cases j with
    | dispatcher =>
      cases o with
      | ring o => exact ⟨May.rely_producer h, rfl⟩
      | prepareSlot => exact h.elim
    | consumer => exact absurd rfl hij

end Steps

/-- The discipline of the dispatching host and the consumer. -/
def discipline : Discipline Thread Access Mem where
  effect := Access.effect
  inv := Mem.Inv
  rely := RelyOn
  cond := KeepsQueued
  may := Permitted
  rely_refl i s := by
    cases i with
    | dispatcher => exact ⟨Rely.refl .producer s.ring, rfl⟩
    | consumer => exact Rely.refl .consumer s.ring
  rely_trans i _ _ _ h h' := by
    cases i with
    | dispatcher => exact ⟨h.1.trans h'.1, h'.2.trans h.2⟩
    | consumer => exact Rely.trans (i := .consumer) h h'
  inv_effect := permitted_inv
  rely_effect hij _ _ h := permitted_rely hij h

/-! ### The programs obey the discipline -/

/-- The descriptors of a window are tagged, and belong to the steps right before `i`. -/
def Window (q : Fin (2 ^ 12) → Option Tag) (i : ℕ) (l : List Descriptor) : Prop :=
  ∀ d ∈ l, Tagged q d ∧
    ∃ j, j < i ∧ i ≤ j + l.length ∧ d.outputTokenOffset = BitVec.ofNat 32 j

/-- Preparing the next step keeps the window: its steps are fewer than the slots, so none of them uses
the slot of the next one. -/
theorem Window.prepare {q : Fin (2 ^ 12) → Option Tag} {i : ℕ} {l : List Descriptor}
    (h : Window q i l) (hl : l.length < 2 ^ 12) (seqId : BitVec 64) (kvBlocks : BitVec 32) :
    Window (Function.update q (ioSlot (BitVec.ofNat 32 i)) (some ⟨seqId, BitVec.ofNat 32 i⟩)) (i + 1)
      (l ++ [stepDescriptor seqId kvBlocks i]) := by
  intro d hd
  rw [List.length_append, List.length_singleton]
  rcases List.mem_append.mp hd with hd | hd
  · obtain ⟨ht, j, hji, hij, hj⟩ := h d hd
    refine ⟨?_, j, by omega, by omega, hj⟩
    have hne : ioSlot d.outputTokenOffset ≠ ioSlot (BitVec.ofNat 32 i) := by
      rw [hj, ioSlot, ioSlot, mask_ofNat (by decide), mask_ofNat (by decide)]
      exact pos_ne_pos hji (by omega)
    exact (Function.update_of_ne hne _ _).trans ht
  · obtain rfl := List.mem_singleton.mp hd
    exact ⟨Function.update_self _ _ _, i, by omega, by omega, rfl⟩

/-- **Filling a window.** The window returned is tagged. -/
theorem fillBatch_ok (seqId : BitVec 64) (kvBlocks : BitVec 32) (i rest : ℕ)
    (b : DecodeDispatchBatch) {s : Mem} (hb : Window s.qBuffer i b.descs) :
    discipline.Ok .dispatcher (fun x s' => ∀ d ∈ x.2.descs, Tagged s'.qBuffer d)
      (fillBatch seqId kvBlocks i rest b) s := by
  -- a finished window stays tagged: nobody else writes the query buffer
  have hdone : ∀ n : ℕ, discipline.Ok .dispatcher
      (fun x s' => ∀ d ∈ x.2.descs, Tagged s'.qBuffer d) (.ret (n, b)) s := by
    rintro n s' ⟨-, hq⟩ - d hd
    rw [hq]
    exact (hb d hd).1
  induction rest generalizing i b s with
  | zero => exact hdone 0
  | succ rest ih =>
    rw [fillBatch]
    by_cases hlen : b.descs.length < decodeDescriptorBatchLimit
    · rw [if_pos hlen]
      rintro s' ⟨-, hq⟩ - -
      refine ⟨trivial, ?_⟩
      have hwindow : Window s'.qBuffer i b.descs := by rwa [hq]
      have hnext := hwindow.prepare (lt_trans hlen (by decide)) seqId kvBlocks
      simp only [decodeBatchPush, ge_iff_le, Nat.not_le.mpr hlen, dif_neg, not_false_eq_true]
      refine ih (i + 1) _ hnext fun n s'' hr _ d hd => ?_
      rw [hr.2]
      exact (hnext d hd).1
    · rw [if_neg hlen]
      exact hdone (rest + 1)

theorem tagged_stamped {b : DecodeDispatchBatch} {q : Fin (2 ^ 12) → Option Tag}
    (h : ∀ d ∈ b.descs, Tagged q d) : ∀ d ∈ b.stamped, Tagged q d := by
  intro d hd
  obtain ⟨x, hx, rfl⟩ := List.mem_map.mp hd
  exact h x.1 (List.fst_mem_of_mem_zipIdx hx)

/-- **Submitting a window** that is tagged. -/
theorem onRing_submit_ok {b : DecodeDispatchBatch} {s : Mem} (hs : s.Inv)
    (hb : ∀ d ∈ b.descs, Tagged s.qBuffer d) :
    discipline.Ok .dispatcher (fun _ _ => True) (onRing (decodeBatchSubmit b)) s := by
  have hguard : TaggedFrom s.ring.published.length s.qBuffer (s.ring.published ++ b.stamped) := by
    intro d hd
    rw [List.drop_left] at hd
    exact tagged_stamped hb d hd
  refine Discipline.ok_mono _ (Discipline.ok_zoom discipline
    (spsc 32 12 (TaggedFrom s.ring.published.length s.qBuffer)) .ring Mem.ring
    (fun s' => s'.qBuffer = s.qBuffer ∧ s.ring.published.length ≤ s'.ring.published.length)
    (decodeBatchSubmit_ok b hs.ring hguard) ⟨rfl, le_rfl⟩ ?_ ?_ ?_ ?_ ?_ ?_ ?_) fun _ _ _ _ => trivial
  · exact fun _ _ => rfl
  · exact fun _ h => h.ring
  · exact fun _ _ h => h.1
  · exact fun _ _ _ _ => trivial
  · rintro o s' - ⟨hq, hle⟩ hmay
    refine hmay.mono fun l hl => ?_
    rw [hq]
    exact hl.mono hle
  · rintro s₁ s₂ ⟨hq, hle⟩ ⟨⟨-, -, -, hpub, -⟩, hq'⟩
    exact ⟨hq'.trans hq, by rwa [hpub]⟩
  · rintro o s₁ ⟨hq, hle⟩
    exact ⟨hq, hle.trans (o.published_le s₁.ring).length_le⟩

/-- **Dispatching a trajectory.** -/
theorem dispatchLoop_ok (seqId : BitVec 64) (kvBlocks : BitVec 32) (n passes rest : ℕ) {s : Mem}
    (hs : s.Inv) :
    discipline.Ok .dispatcher (fun _ _ => True) (dispatchLoop seqId kvBlocks n passes rest) s := by
  induction passes generalizing rest s with
  | zero => exact fun _ _ _ => trivial
  | succ passes ih =>
    rw [dispatchLoop]
    by_cases hrest : rest = 0
    · rw [if_pos hrest]
      exact fun _ _ _ => trivial
    · rw [if_neg hrest]
      refine Discipline.ok_bind _ hs (fillBatch_ok seqId kvBlocks _ rest decodeBatchReset
        fun d hd => by simp [decodeBatchReset] at hd) ?_
      rintro ⟨rest', b⟩ s₁ hs₁ hb
      refine Discipline.ok_bind _ hs₁ (onRing_submit_ok hs₁ hb) ?_
      rintro (_ | _) s₂ hs₂ -
      · exact fun _ _ _ => trivial
      · exact ih rest' hs₂

theorem start_ok (i : Thread) (l : Local i) (x : Call i) (s : Mem) (hs : s.Inv) :
    discipline.Ok i (fun _ _ => True) (system.start i l x) s := by
  cases i with
  | dispatcher =>
    exact Discipline.ok_bind _ hs (dispatchLoop_ok _ _ _ _ _ hs) fun _ _ _ _ _ _ _ => trivial
  | consumer =>
    have hok : (spsc 32 12 (unguarded Descriptor)).Ok .consumer
        (fun x r' => r'.taken = s.ring.taken ++ x.toList) ringConsume s.ring :=
      consume_ok (by decide) emptySound_orderedEmpty
    refine Discipline.ok_bind _ hs (Discipline.ok_component discipline _ .ring Mem.ring hok
      ?_ ?_ ?_ ?_ ?_) fun _ _ _ _ _ _ _ => trivial
    · exact fun _ _ => rfl
    · exact fun _ h => h.ring
    · exact fun _ _ h => h
    · exact fun _ _ _ => trivial
    · exact fun _ _ _ h => h

/-! ### Runs -/

/-- **Queued steps keep their queries.** In every run in which no slot is prepared while a queued
descriptor uses it for another tag, every descriptor finds its own query when it is consumed. -/
theorem dispatch_readsOwnQuery (z : Descriptor) (es : List ((i : Thread) × Call i))
    (h : system.Meets KeepsQueued (init z) es) : ReadsOwnQuery (system.run (init z) es) := by
  intro v d hd
  have hinit : Mem.Inv ⟨Ring.zeroed 32 12 z, fun _ => none⟩ :=
    ⟨Ring.zeroed_inv z, fun d hd => by simp [Mem.queued, Ring.zeroed] at hd⟩
  have hgood : discipline.Good (fun _ _ _ => True) (system.run (init z) es) :=
    discipline.sound rfl (fun i l x s hs _ => start_ok i l x s hs)
      (discipline.good_rest hinit fun _ _ _ _ => trivial) h
  obtain ⟨-, hnext⟩ : _ ∧ _ := hgood.may hd trivial
  refine hgood.1.tagged d ?_
  obtain ⟨hlt, hget⟩ := List.getElem?_eq_some_iff.mp hnext
  rw [Mem.queued, List.drop_eq_getElem_cons hlt, hget]
  exact List.mem_cons_self

/-- The schedule of a dispatch of one step, from its start to its last access. -/
def dispatchOne (seqId : BitVec 64) : List ((i : Thread) × Call i) :=
  List.replicate 7 ⟨.dispatcher, (⟨seqId, 1, 1⟩ : DispatchArgs)⟩

/-- The schedule of a consumption, up to the store of the index. -/
def consumeOne : List ((i : Thread) × Call i) := List.replicate 4 ⟨.consumer, ()⟩

/-- The descriptor a dispatch of one step commits. -/
def firstStep (seqId : BitVec 64) : Descriptor :=
  { stepDescriptor seqId 1 0 with batchSize := 1, batchIndex := 0 }

/-- A step consumed before the next trajectory is dispatched: both read their own queries. -/
theorem dispatch_readsOwnQuery_alternating :
    let es := dispatchOne 1 ++ consumeOne ++ [⟨.consumer, ()⟩] ++ dispatchOne 2 ++ consumeOne
    system.Meets KeepsQueued (init default) es ∧
      (system.run (init default) es).next .consumer = some (.ring (.storeCons 2 (firstStep 2))) ∧
      Tagged (system.run (init default) es).mem.qBuffer (firstStep 2) := by
  have hmeets : system.Meets KeepsQueued (init default)
      (dispatchOne 1 ++ consumeOne ++ [⟨.consumer, ()⟩] ++ dispatchOne 2 ++ consumeOne) := by decide
  have hnext : (system.run (init default)
      (dispatchOne 1 ++ consumeOne ++ [⟨.consumer, ()⟩] ++ dispatchOne 2 ++ consumeOne)).next
        .consumer = some (.ring (.storeCons 2 (firstStep 2))) := by rfl
  exact ⟨hmeets, hnext, dispatch_readsOwnQuery default _ hmeets 2 (firstStep 2) hnext⟩

/-- **A query overwritten.** Two trajectories of one step are dispatched before anything is consumed: the
first descriptor finds the query of the second. -/
theorem dispatch_reads_other_query :
    ¬ ReadsOwnQuery (system.run (init default) (dispatchOne 1 ++ dispatchOne 2 ++ consumeOne)) := by
  intro h
  have htag := h 1 (firstStep 1) (by rfl)
  have hother : (system.run (init default) (dispatchOne 1 ++ dispatchOne 2 ++ consumeOne)).mem.qBuffer
      (ioSlot 0) = some ⟨2, 0⟩ := by decide
  have hsame : some (⟨2, 0⟩ : Tag) = some ⟨1, 0⟩ := hother.symm.trans htag
  exact absurd hsame (by decide)

end Dispatch

end RolloutRuntime
