import Mathlib.Data.List.Forall2
import RolloutRuntime.Decode.Dispatch

/-!
# Windows and trajectories on the command ring

The device decodes the descriptors of a window together, so it relies on their framing: a window is
committed by one store of the producer index, and each of its descriptors names the size of the window
and its own place in it. Whatever state the ring is in, and however the host and the consumer
interleave, the consumer sees whole windows one after the other, across the end of the slot array and
the wrap of the indices.

A dispatch cuts a trajectory into windows of 32 steps, the last one being as long as what is left. It
commits the whole trajectory, or, if the ring is full, the windows before the one that found no room.

## Main definitions

* `IsWindow`: a list of descriptors framed as one window.
* `batchQueue`: the command ring with the submission of windows.
* `Dispatch.trajectory`: the descriptors of a trajectory as they are committed.
* `Dispatch.logSystem`: the dispatching host, which remembers its calls, and the consumer.

## Main results

* `decodeBatchSubmit_windows`: submitting windows, in every interleaving with the consumer.
* `Dispatch.dispatchLoop_commits`: what the loop of a dispatch commits.
* `Dispatch.runtimeDispatch_publishes`: what every call of a dispatch committed.

## References

* `src/decode_batch.c`, `include/ring.h` lines 38–69, `src/main.c` lines 121–162.
-/

namespace RolloutRuntime

open Concurrency RingBuffer

/-! ### Windows -/

/-- Descriptors framed as one window: each names the size of the window and its place in it. -/
def IsWindow (ds : List Descriptor) : Prop :=
  ds ≠ [] ∧ ∀ (i : ℕ) (d : Descriptor), ds[i]? = some d → d.batchSize.toNat = ds.length ∧ d.batchIndex.toNat = i

theorem DecodeDispatchBatch.getElem?_stamped (b : DecodeDispatchBatch) (i : ℕ) :
    b.stamped[i]? = b.descs[i]?.map fun d =>
      { d with batchSize := BitVec.ofNat 16 b.descs.length, batchIndex := BitVec.ofNat 16 i } := by
  rw [stamped, List.getElem?_map, List.getElem?_zipIdx, Option.map_map]
  simp only [Function.comp_def, Nat.zero_add]

theorem DecodeDispatchBatch.isWindow_stamped (b : DecodeDispatchBatch) (hb : b.descs ≠ []) :
    IsWindow b.stamped := by
  have hle : b.descs.length ≤ 32 := b.le_limit
  refine ⟨fun hnil => hb ?_, fun i d hd => ?_⟩
  · rw [← List.length_eq_zero_iff, ← b.length_stamped, hnil, List.length_nil]
  · rw [b.getElem?_stamped] at hd
    obtain ⟨e, he, rfl⟩ := Option.map_eq_some_iff.mp hd
    have hi : i < b.descs.length := (List.getElem?_eq_some_iff.mp he).1
    refine ⟨?_, ?_⟩
    · rw [b.length_stamped, BitVec.toNat_ofNat, Nat.mod_eq_of_lt (by omega)]
    · rw [BitVec.toNat_ofNat, Nat.mod_eq_of_lt (by omega)]

/-- The command ring with the submission of windows. -/
def batchQueue : Queue 12 Descriptor :=
  ⟨DecodeDispatchBatch, DecodeDispatchBatch.stamped, decodeBatchSubmit, ringConsume, false⟩

/-- The steps of a refused submission, among any steps of the consumer, change nothing. -/
theorem decodeBatchSubmit_refused {b : DecodeDispatchBatch}
    {tr : List (Op 32 Descriptor × CommandRing)} (h : Prog.Trace (decodeBatchSubmit b) tr false) :
    ∀ y ∈ tr, y.1.effect y.2 = y.2 := by
  by_cases hb : b.descs.length = 0
  · rw [decodeBatchSubmit, if_pos hb] at h
    obtain ⟨rfl, -⟩ := Prog.trace_ret.mp h
    exact fun y hy => absurd hy (by simp)
  · rw [decodeBatchSubmit, if_neg hb, submitDescriptors_eq] at h
    obtain ⟨hquiet, hcount⟩ := submit_trace_refused h
    intro y hy
    have hno := List.countP_eq_zero.mp hcount y hy
    have heffect := hquiet y hy
    rwa [Op.Quiet, if_neg hno] at heffect

/-! ### Submitting windows in any state of the ring -/

section Submit

variable (r₀ : CommandRing)

/-- Whole windows were published since the ring was `r₀`. -/
def WholeWindows (l : List Descriptor) : Prop :=
  ∃ ws : List (List Descriptor), (∀ w ∈ ws, IsWindow w) ∧ l = r₀.published ++ ws.flatten

/-- The two ends at rest on the ring `r₀`. -/
def batchQueue.atRest : Config Side (Op 32 Descriptor) CommandRing batchQueue.Local :=
  .rest r₀ fun
    | .producer => ([] : List (DecodeDispatchBatch × Bool))
    | .consumer => ([] : List (Option Descriptor))

/-- What the two ends know when they are at rest. -/
def batchQueue.KnownFrom : (i : Side) → batchQueue.Local i → CommandRing → Prop
  | .producer, l, r => r.published = r₀.published ++ batchQueue.accepted l
  | .consumer, l, r => r.taken = r₀.taken ++ (l : List (Option Descriptor)).reduceOption

variable {r₀}

theorem WholeWindows.stamped {l : List Descriptor} (h : WholeWindows r₀ l) (b : DecodeDispatchBatch) :
    WholeWindows r₀ (l ++ b.stamped) := by
  obtain ⟨ws, hws, rfl⟩ := h
  by_cases hb : b.descs = []
  · have hnil : b.stamped = [] := by
      rw [← List.length_eq_zero_iff, b.length_stamped, hb, List.length_nil]
    exact ⟨ws, hws, by rw [hnil, List.append_nil]⟩
  · refine ⟨ws ++ [b.stamped], fun w hw => ?_, ?_⟩
    · rcases List.mem_append.mp hw with hw | hw
      · exact hws w hw
      · rw [List.mem_singleton.mp hw]
        exact b.isWindow_stamped hb
    · rw [List.flatten_append, List.flatten_singleton, List.append_assoc]

theorem batchQueue_giveCall_ok (l : List (DecodeDispatchBatch × Bool)) (b : DecodeDispatchBatch)
    {r : CommandRing} (hr : (guarded 32 12 (WholeWindows r₀)).inv r)
    (hl : batchQueue.KnownFrom r₀ .producer l r) :
    (guarded 32 12 (WholeWindows r₀)).Ok .producer (batchQueue.KnownFrom r₀ .producer)
      (batchQueue.giveCall l b) r := by
  have hsubmit := decodeBatchSubmit_ok b hr.1 (hr.2.stamped b)
  refine Discipline.ok_bind _ hr (ok_guarded hsubmit) ?_
  rintro ok r₁ - hpub r₂ hrely -
  have hl' : r.published = r₀.published ++ batchQueue.accepted l := hl
  change r₂.published = r₀.published ++ batchQueue.accepted (l ++ [(b, ok)])
  rw [hrely.published_eq, hpub, hl']
  simp [Queue.accepted, batchQueue]

theorem batchQueue_takeCall_ok (l : List (Option Descriptor)) {r : CommandRing}
    (hr : (guarded 32 12 (WholeWindows r₀)).inv r) (hl : batchQueue.KnownFrom r₀ .consumer l r) :
    (guarded 32 12 (WholeWindows r₀)).Ok .consumer (batchQueue.KnownFrom r₀ .consumer)
      (batchQueue.takeCall l) r := by
  have hconsume := consume_ok (G := WholeWindows r₀) (r := r) (by decide) emptySound_orderedEmpty
  refine Discipline.ok_bind _ hr (ok_guarded hconsume) ?_
  rintro d r₁ - htaken r₂ hrely -
  have hl' : r.taken = r₀.taken ++ l.reduceOption := hl
  change r₂.taken = r₀.taken ++ (l ++ [d]).reduceOption
  rw [hrely.2.1, htaken, hl', ← List.concat_eq_append, List.reduceOption_concat, List.append_assoc]

theorem batchQueue_good (hr : r₀.Inv) (es : List ((i : Side) × batchQueue.Call i)) :
    (guarded 32 12 (WholeWindows r₀)).Good (batchQueue.KnownFrom r₀)
      (batchQueue.system.run (batchQueue.atRest r₀) es) := by
  refine Discipline.sound _ rfl (fun i l x r hinv hl => ?_) ?_ (batchQueue.system.meets_true _ _)
  · cases i with
    | producer => exact batchQueue_giveCall_ok l x hinv hl
    | consumer => exact batchQueue_takeCall_ok l hinv hl
  · refine Discipline.good_rest _ ⟨hr, [], by simp, by simp⟩ fun i r' hrely _ => ?_
    cases i with
    | producer => exact hrely.published_eq.trans (List.append_nil _).symm
    | consumer => exact hrely.2.1.trans (List.append_nil _).symm

/-- What one submission, accepted or refused, does to the published descriptors and the producer
index. -/
theorem batchQueue_submission (hr : r₀.Inv) (es es' : List ((i : Side) × batchQueue.Call i))
    {l : List (DecodeDispatchBatch × Bool)} {b : DecodeDispatchBatch} {ok : Bool}
    (hl : (batchQueue.system.run (batchQueue.atRest r₀) es).threads .producer = .ret l)
    (hl' : (batchQueue.system.run (batchQueue.system.run (batchQueue.atRest r₀) es) es').threads
      .producer = .ret (l ++ [(b, ok)])) :
    let r := (batchQueue.system.run (batchQueue.atRest r₀) es).mem
    let r' := (batchQueue.system.run (batchQueue.system.run (batchQueue.atRest r₀) es) es').mem
    r'.published = r.published ++ (if ok then b.stamped else []) ∧
      r'.prod = r.prod + if ok then BitVec.ofNat 32 b.descs.length else 0 := by
  have hgood := batchQueue_good hr es
  have hgood' := batchQueue_good hr (es ++ es')
  rw [System.run_append] at hgood'
  have hpub : _ = r₀.published ++ batchQueue.accepted l := hgood.rest hl
  have hpub' : _ = r₀.published ++ batchQueue.accepted (l ++ [(b, ok)]) := hgood'.rest hl'
  have hinv : Contents 12 _ _ _ _ _ := hgood.1.1
  have hinv' : Contents 12 _ _ _ _ _ := hgood'.1.1
  intro r r'
  have happend : r'.published = r.published ++ (if ok then b.stamped else []) := by
    rw [hpub', hpub, List.append_assoc]
    simp [Queue.accepted, batchQueue]
  refine ⟨happend, ?_⟩
  rw [hinv'.prod_eq, hinv.prod_eq, happend, List.length_append, BitVec.ofNat_add]
  cases ok with
  | true => rw [if_pos rfl, if_pos rfl, b.length_stamped]
  | false => rfl

/-- **Submitting windows.** From any state of the ring whose indices fit it, and in every interleaving
of submissions with the consumer: what is published beyond the start are whole windows, and the consumer
gets an initial segment of what was pending at the start and these windows. An accepted submission
appends the descriptors of its batch in order, each with the size of the batch and its own place, and a
refused one leaves the published descriptors and the producer index as they are; none of its steps
changes anything. -/
theorem decodeBatchSubmit_windows (prod cons : BitVec 32) (slots : Fin (2 ^ 12) → Descriptor)
    (hocc : (prod - cons).toNat ≤ 2 ^ 12) (es : List ((i : Side) × batchQueue.Call i)) :
    let r₀ := Ring.ofState prod cons slots
    let c := batchQueue.system.run (batchQueue.atRest r₀) es
    (∃ ws : List (List Descriptor), (∀ w ∈ ws, IsWindow w) ∧
      c.mem.published = r₀.published ++ ws.flatten ∧
      ∀ l : List (Option Descriptor), c.threads .consumer = .ret l →
        l.reduceOption <+: pending 12 prod cons slots ++ ws.flatten) ∧
    (∀ (es' : List ((i : Side) × batchQueue.Call i)) (l : List (DecodeDispatchBatch × Bool))
      (b : DecodeDispatchBatch) (ok : Bool),
      c.threads .producer = .ret l →
      (batchQueue.system.run c es').threads .producer = .ret (l ++ [(b, ok)]) →
      let c' := batchQueue.system.run c es'
      if ok then ∃ ds, c'.mem.published = c.mem.published ++ ds ∧
        (∀ i : ℕ, ds[i]? = b.descs[i]?.map fun d =>
          { d with batchSize := BitVec.ofNat 16 b.descs.length, batchIndex := BitVec.ofNat 16 i }) ∧
        c'.mem.prod = c.mem.prod + BitVec.ofNat 32 b.descs.length
      else c'.mem.published = c.mem.published ∧ c'.mem.prod = c.mem.prod) ∧
    ∀ (b : DecodeDispatchBatch) (tr : List (Op 32 Descriptor × CommandRing)),
      Prog.Trace (decodeBatchSubmit b) tr false → ∀ y ∈ tr, y.1.effect y.2 = y.2 := by
  intro r₀ c
  have hr : r₀.Inv := Ring.ofState_inv hocc
  have hgood := batchQueue_good hr es
  obtain ⟨hinv, ws, hws, hpub⟩ := hgood.1
  refine ⟨⟨ws, hws, hpub, fun l hl => ?_⟩, fun es' l b ok hl hl' => ?_,
    fun b tr htr => decodeBatchSubmit_refused htr⟩
  · have htaken : c.mem.taken = r₀.taken ++ l.reduceOption := hgood.rest hl
    have hstart : r₀.taken ++ pending 12 prod cons slots = r₀.published :=
      Contents.taken_append_pending hr (by decide)
    have hle := Contents.taken_le hinv
    rw [htaken, hpub, ← hstart, List.append_assoc] at hle
    exact (List.prefix_append_right_inj _).mp hle
  · obtain ⟨happend, hprod⟩ := batchQueue_submission hr es es' hl hl'
    cases ok with
    | true =>
      rw [if_pos rfl] at happend hprod
      exact ⟨b.stamped, happend, b.getElem?_stamped, hprod⟩
    | false =>
      refine ⟨happend.trans (List.append_nil _), hprod.trans ?_⟩
      exact BitVec.add_zero _

/-- A window of two descriptors. -/
def twoSteps : DecodeDispatchBatch := ⟨[default, default], by decide⟩

/-- A window is submitted across the end of the slot array. -/
theorem decodeBatchSubmit_windows_straddling :
    let r₀ : CommandRing := Ring.ofState 4095 4095 fun _ => default
    let c := batchQueue.system.run (batchQueue.atRest r₀)
      (List.replicate 7 ⟨.producer, (twoSteps : DecodeDispatchBatch)⟩)
    c.mem.prod = 4097 ∧
      ∃ ws : List (List Descriptor), (∀ w ∈ ws, IsWindow w) ∧
        c.mem.published = r₀.published ++ ws.flatten := by
  obtain ⟨⟨ws, hws, hpub, -⟩, -⟩ := decodeBatchSubmit_windows 4095 4095 (fun _ => default) (by decide)
    (List.replicate 7 ⟨.producer, (twoSteps : DecodeDispatchBatch)⟩)
  dsimp only
  exact ⟨by decide +kernel, ws, hws, hpub⟩

end Submit

namespace Dispatch

/-! ### The steps of a trajectory -/

section Trajectory

variable (seqId : BitVec 64) (kvBlocks : BitVec 32)

/-- Step `k` of a trajectory of `n` steps as it is committed. -/
def committedStep (n k : ℕ) : Descriptor :=
  { stepDescriptor seqId kvBlocks k with
    batchSize := BitVec.ofNat 16 (min 32 (n - 32 * (k / 32)))
    batchIndex := BitVec.ofNat 16 (k % 32) }

/-- The descriptors of a trajectory of `n` steps as they are committed. -/
def trajectory (n : ℕ) : List Descriptor := (List.range n).map (committedStep seqId kvBlocks n)

/-- The window that starts at step `32 * j` is the part of the trajectory that follows its first
`32 * j` steps. -/
theorem stamped_eq {b : DecodeDispatchBatch} {n j m : ℕ} (hm : m = min (n - 32 * j) 32)
    (hb : b.descs = (List.range m).map fun k => stepDescriptor seqId kvBlocks (32 * j + k)) :
    b.stamped = (List.range m).map fun k => committedStep seqId kvBlocks n (32 * j + k) := by
  have hlen : b.descs.length = m := by rw [hb, List.length_map, List.length_range]
  apply List.ext_getElem?
  intro k
  rw [b.getElem?_stamped, hlen, hb, List.getElem?_map, List.getElem?_map]
  rcases Nat.lt_or_ge k m with hk | hk
  · have hdiv : (32 * j + k) / 32 = j := by omega
    have hmod : (32 * j + k) % 32 = k := by omega
    rw [List.getElem?_range hk, Option.map_some, Option.map_some, Option.map_some, committedStep, hdiv,
      hmod, Nat.min_comm, ← hm]
  · rw [List.getElem?_eq_none (by simpa using hk)]
    rfl

theorem take_trajectory {n i : ℕ} (hi : i ≤ n) :
    (trajectory seqId kvBlocks n).take i = (List.range i).map (committedStep seqId kvBlocks n) := by
  rw [trajectory, ← List.map_take, List.take_range, Nat.min_eq_left hi]

theorem take_trajectory_append {n i m : ℕ} (him : i + m ≤ n) :
    (trajectory seqId kvBlocks n).take i ++
        (List.range m).map (fun k => committedStep seqId kvBlocks n (i + k)) =
      (trajectory seqId kvBlocks n).take (i + m) := by
  rw [take_trajectory seqId kvBlocks (by omega), take_trajectory seqId kvBlocks him, List.range_add,
    List.map_append, List.map_map]
  rfl

end Trajectory

/-! ### The discipline of the ring -/

/-- What a thread relies on. -/
def RingRely : Thread → Mem → Mem → Prop
  | .dispatcher, s, s' => Rely .producer s.ring s'.ring
  | .consumer, s, s' => Rely .consumer s.ring s'.ring

/-- What a thread may do to the ring. -/
def RingMay : Thread → Access → Mem → Prop
  | .dispatcher, .ring o, s => May (unguarded _) .producer o s.ring
  | .dispatcher, .prepareSlot _ _, _ => True
  | .consumer, .ring o, s => May (unguarded _) .consumer o s.ring
  | .consumer, .prepareSlot _ _, _ => False

/-- The host is the producer of the command ring, and may prepare queries at any time. -/
def ringDiscipline : Discipline Thread Access Mem where
  effect := Access.effect
  inv s := s.ring.Inv
  rely := RingRely
  cond _ _ _ := True
  may := RingMay
  rely_refl i s := by
    cases i with
    | dispatcher => exact Rely.refl .producer s.ring
    | consumer => exact Rely.refl .consumer s.ring
  rely_trans i _ _ _ h h' := by
    cases i with
    | dispatcher => exact Rely.trans (i := .producer) h h'
    | consumer => exact Rely.trans (i := .consumer) h h'
  inv_effect {i o s} hs _ h := by
    cases o with
    | ring o => cases i <;> exact May.inv h hs
    | prepareSlot j t => exact hs
  rely_effect {i j o s} hij _ _ h := by
    cases i with
    | dispatcher =>
      cases j with
      | dispatcher => exact absurd rfl hij
      | consumer =>
        cases o with
        | ring o => exact May.rely_consumer h
        | prepareSlot => exact Rely.refl .consumer s.ring
    | consumer =>
      cases j with
      | consumer => exact absurd rfl hij
      | dispatcher =>
        cases o with
        | ring o => exact May.rely_producer h
        | prepareSlot => exact h.elim

/-- **Filling a window.** The window gets the next steps of the trajectory, until it is full or no step
is left; nothing is published. -/
theorem fillBatch_steps (seqId : BitVec 64) (kvBlocks : BitVec 32) (i rest : ℕ)
    (b : DecodeDispatchBatch) (s : Mem) :
    ringDiscipline.Ok .dispatcher
      (fun x s' => x.1 + min rest (32 - b.descs.length) = rest ∧
        x.2.descs = b.descs ++ (List.range (min rest (32 - b.descs.length))).map
          (fun k => stepDescriptor seqId kvBlocks (i + k)) ∧
        s'.ring.published = s.ring.published)
      (fillBatch seqId kvBlocks i rest b) s := by
  induction rest generalizing i b s with
  | zero =>
    intro s' hrely _
    exact ⟨by simp, by simp, hrely.published_eq⟩
  | succ rest ih =>
    rw [fillBatch]
    by_cases hlen : b.descs.length < decodeDescriptorBatchLimit
    · rw [if_pos hlen]
      intro s' hrely _ _
      refine ⟨trivial, ?_⟩
      simp only [decodeBatchPush, ge_iff_le, Nat.not_le.mpr hlen, dif_neg, not_false_eq_true]
      have hlt : b.descs.length < 32 := hlen
      have hmin : min (rest + 1) (32 - b.descs.length) =
          min rest (32 - (b.descs ++ [stepDescriptor seqId kvBlocks i]).length) + 1 := by
        rw [List.length_append, List.length_singleton]
        omega
      refine Discipline.ok_mono _ (ih (i + 1) _ _) fun x s'' _ h => ?_
      obtain ⟨hrest, hdescs, hpub⟩ := h
      dsimp only at hrest hdescs
      rw [hmin]
      refine ⟨by omega, ?_, hpub.trans hrely.published_eq⟩
      rw [hdescs, List.append_assoc, List.range_succ_eq_map, List.map_cons, List.map_map]
      simp only [Function.comp_def, Nat.succ_eq_add_one, Nat.add_zero, List.singleton_append,
        Nat.add_right_comm, Nat.add_assoc]
    · rw [if_neg hlen]
      have hge : ¬ b.descs.length < 32 := hlen
      have hzero : min (rest + 1) (32 - b.descs.length) = 0 := by omega
      intro s' hrely _
      rw [hzero]
      exact ⟨rfl, by simp, hrely.published_eq⟩

/-- **Dispatching a trajectory.** With the steps before those left committed, which are whole windows,
the loop commits all of them, or whole windows up to the one that finds no room. -/
theorem dispatchLoop_commits (seqId : BitVec 64) (kvBlocks : BitVec 32) {n passes rest : ℕ}
    (hpasses : rest ≤ passes) (hrest : rest ≤ n) (hwhole : rest = 0 ∨ ∃ j, n - rest = 32 * j)
    (before : List Descriptor) {s : Mem} (hs : s.ring.Inv)
    (hpub : s.ring.published = before ++ (trajectory seqId kvBlocks n).take (n - rest)) :
    ringDiscipline.Ok .dispatcher
      (fun ok s' =>
        if ok then s'.ring.published = before ++ trajectory seqId kvBlocks n
        else ∃ j, 32 * j < n ∧
          s'.ring.published = before ++ (trajectory seqId kvBlocks n).take (32 * j))
      (dispatchLoop seqId kvBlocks n passes rest) s := by
  have hall : (trajectory seqId kvBlocks n).take (n - 0) = trajectory seqId kvBlocks n := by
    rw [Nat.sub_zero, List.take_of_length_le]
    rw [trajectory, List.length_map, List.length_range]
  induction passes generalizing rest s with
  | zero =>
    obtain rfl : rest = 0 := Nat.le_zero.mp hpasses
    intro s' hrely _
    rw [if_pos rfl, hrely.published_eq, hpub, hall]
  | succ passes ih =>
    rw [dispatchLoop]
    by_cases hzero : rest = 0
    · subst hzero
      intro s' hrely _
      rw [if_pos rfl, hrely.published_eq, hpub, hall]
    · rw [if_neg hzero]
      obtain ⟨j, hj⟩ := hwhole.resolve_left hzero
      refine Discipline.ok_bind _ hs (fillBatch_steps seqId kvBlocks _ rest decodeBatchReset s) ?_
      rintro ⟨rest', b⟩ s₁ hs₁ ⟨hrest', hdescs, hpub₁⟩
      have hempty : decodeBatchReset.descs = [] := rfl
      rw [hempty, List.length_nil, Nat.sub_zero] at hrest' hdescs
      rw [List.nil_append, hj] at hdescs
      have hm : min rest 32 = min (n - 32 * j) 32 := by omega
      have hstamped := stamped_eq seqId kvBlocks hm hdescs
      have hsubmit : (spsc 32 12 (unguarded Descriptor)).Ok .producer _ (decodeBatchSubmit b) s₁.ring :=
        decodeBatchSubmit_ok b hs₁ trivial
      refine Discipline.ok_bind _ hs₁ (Discipline.ok_component ringDiscipline _ .ring Mem.ring hsubmit
        (fun _ _ => rfl) (fun _ h => h) (fun _ _ h => h) (fun _ _ _ => trivial) fun _ _ _ h => h) ?_
      rintro (_ | _) s₂ hs₂ hpub₂
      · intro s₃ hrely _
        refine ⟨j, by omega, ?_⟩
        rw [hrely.published_eq, hpub₂, if_neg (by decide), List.append_nil, hpub₁, hpub, hj]
      · refine ih (by omega) (by omega) ?_ hs₂ ?_
        · by_cases hlast : rest ≤ 32
          · exact Or.inl (by omega)
          · exact Or.inr ⟨j + 1, by omega⟩
        · have hnext : n - rest' = 32 * j + min rest 32 := by omega
          rw [hpub₂, if_pos rfl, hpub₁, hpub, hj, hstamped, List.append_assoc,
            take_trajectory_append seqId kvBlocks (by omega), hnext]

/-! ### Runs -/

/-- What a thread keeps between its calls: the host its calls with the answers. -/
def LogLocal : Thread → Type
  | .dispatcher => List (DispatchArgs × Bool)
  | .consumer => List (Option Descriptor)

/-- One dispatch. -/
def logCall (l : List (DispatchArgs × Bool)) (x : DispatchArgs) :
    Prog Access Mem (List (DispatchArgs × Bool)) := do
  let ok ← runtimeDispatch x.seqId x.nSteps x.kvBlocks
  return l ++ [(x, ok)]

/-- The host, which remembers its calls, and the consumer. -/
def logSystem : System Thread Access Mem LogLocal Call where
  effect := Access.effect
  start
    | .dispatcher, l, x => logCall l x
    | .consumer, l, _ => consumeCall l

/-- A zeroed ring, and a query buffer with nothing prepared. -/
def logInit (z : Descriptor) : Config Thread Access Mem LogLocal :=
  .rest ⟨Ring.zeroed 32 12 z, fun _ => none⟩ fun
    | .dispatcher => ([] : List (DispatchArgs × Bool))
    | .consumer => ([] : List (Option Descriptor))

/-- The number of steps of a dispatch. -/
def DispatchArgs.steps (x : DispatchArgs) : ℕ := x.nSteps.toInt.toNat

/-- What a dispatch commits, with its answer. -/
def Commits (y : DispatchArgs × Bool) (ds : List Descriptor) : Prop :=
  if y.2 then ds = trajectory y.1.seqId y.1.kvBlocks y.1.steps
  else ∃ j, 32 * j < y.1.steps ∧ ds = (trajectory y.1.seqId y.1.kvBlocks y.1.steps).take (32 * j)

/-- What the threads know when they are at rest. -/
def LogKnown : (i : Thread) → LogLocal i → Mem → Prop
  | .dispatcher, l, s => ∃ dss : List (List Descriptor), s.ring.published = dss.flatten ∧
      List.Forall₂ Commits l dss
  | .consumer, l, s => s.ring.taken = (l : List (Option Descriptor)).reduceOption

theorem logCall_ok (l : List (DispatchArgs × Bool)) (x : DispatchArgs) {s : Mem} (hs : s.ring.Inv)
    (hl : LogKnown .dispatcher l s) :
    ringDiscipline.Ok .dispatcher (LogKnown .dispatcher) (logCall l x) s := by
  obtain ⟨dss, hpub, hdss⟩ := hl
  have hloop := dispatchLoop_commits x.seqId x.kvBlocks (n := x.steps) le_rfl le_rfl
    (Or.inr ⟨0, by omega⟩) dss.flatten hs (by simpa using hpub)
  refine Discipline.ok_bind _ hs hloop ?_
  rintro ok s₁ - hok s₂ hrely -
  obtain ⟨ds, hds, hcommits⟩ : ∃ ds, s₁.ring.published = dss.flatten ++ ds ∧ Commits (x, ok) ds := by
    cases ok with
    | true => exact ⟨_, hok, rfl⟩
    | false =>
      obtain ⟨j, hj, hds⟩ := hok
      exact ⟨_, hds, j, hj, rfl⟩
  refine ⟨dss ++ [ds], ?_, List.rel_append hdss (.cons hcommits .nil)⟩
  rw [hrely.published_eq, hds, List.flatten_append, List.flatten_singleton]

theorem consumeCall_ok (l : List (Option Descriptor)) {s : Mem} (hs : s.ring.Inv)
    (hl : LogKnown .consumer l s) :
    ringDiscipline.Ok .consumer (LogKnown .consumer) (consumeCall l) s := by
  have hconsume : (spsc 32 12 (unguarded Descriptor)).Ok .consumer
      (fun x r' => r'.taken = s.ring.taken ++ x.toList) ringConsume s.ring :=
    consume_ok (by decide) emptySound_orderedEmpty
  refine Discipline.ok_bind _ hs (Discipline.ok_component ringDiscipline _ .ring Mem.ring hconsume
    (fun _ _ => rfl) (fun _ h => h) (fun _ _ h => h) (fun _ _ _ => trivial) fun _ _ _ h => h) ?_
  rintro d s₁ - htaken s₂ hrely -
  have hl' : s.ring.taken = l.reduceOption := hl
  change s₂.ring.taken = (l ++ [d]).reduceOption
  rw [hrely.2.1, htaken, hl', ← List.concat_eq_append, List.reduceOption_concat]

theorem logSystem_good (z : Descriptor) (es : List ((i : Thread) × Call i)) :
    ringDiscipline.Good LogKnown (logSystem.run (logInit z) es) := by
  refine Discipline.sound _ rfl (fun i l x s hs hl => ?_) ?_ (logSystem.meets_true _ _)
  · cases i with
    | dispatcher => exact logCall_ok l x hs hl
    | consumer => exact consumeCall_ok l hs hl
  · refine Discipline.good_rest _ (Ring.zeroed_inv z) fun i s' hrely _ => ?_
    cases i with
    | dispatcher => exact ⟨[], hrely.published_eq, .nil⟩
    | consumer => exact hrely.2.1

/-- The first `m` descriptors of the trajectory a dispatch was asked for. -/
def FirstSteps (x : DispatchArgs) (m : ℕ) (ds : List Descriptor) : Prop :=
  ds.length = m ∧ ∀ (k : ℕ) (d : Descriptor), ds[k]? = some d →
    d.seqId = x.seqId ∧ d.outputTokenOffset.toNat = k ∧
      d.kvBlockOffset.toNat = k % x.kvBlocks.toNat ∧ (d.rewardCookie.setWidth 32).toNat = k ∧
      d.batchIndex.toNat = k % 32 ∧ d.batchSize.toNat = min 32 (x.steps - 32 * (k / 32))

theorem toNat_ofInt_tmod {b : BitVec 32} (hb : 1 ≤ b.toInt) (k : ℕ) :
    (BitVec.ofInt 32 ((k : ℤ).tmod b.toInt)).toNat = k % b.toNat := by
  have hpos : b.toInt = (b.toNat : ℤ) := by
    rw [BitVec.toInt_eq_toNat_cond] at hb ⊢
    have hlt := b.isLt
    split_ifs at hb ⊢ with hmsb
    · rfl
    · omega
  have hlt : k % b.toNat < 2 ^ 32 := lt_of_lt_of_le (Nat.mod_lt k (by omega)) b.isLt.le
  rw [hpos, ← Int.ofNat_tmod, BitVec.ofInt_natCast, BitVec.toNat_ofNat, Nat.mod_eq_of_lt hlt]

theorem setWidth_cookie (seqId : BitVec 64) (k : ℕ) :
    (seqId <<< 32 ||| BitVec.ofNat 64 k).setWidth 32 = BitVec.ofNat 32 k := by
  ext i
  simp

theorem firstSteps_take (x : DispatchArgs) (hb : 1 ≤ x.kvBlocks.toInt) {m : ℕ} (hm : m ≤ x.steps) :
    FirstSteps x m ((trajectory x.seqId x.kvBlocks x.steps).take m) := by
  have hsteps : x.steps < 2 ^ 31 := by
    have hlt := x.nSteps.toInt_lt
    rw [DispatchArgs.steps]
    omega
  rw [take_trajectory _ _ hm]
  refine ⟨by rw [List.length_map, List.length_range], fun k d hd => ?_⟩
  rw [List.getElem?_map] at hd
  obtain ⟨k', hk', rfl⟩ := Option.map_eq_some_iff.mp hd
  obtain ⟨hlt, rfl⟩ := List.getElem?_eq_some_iff.mp hk'
  rw [List.length_range] at hlt
  rw [List.getElem_range]
  refine ⟨rfl, ?_, toNat_ofInt_tmod hb k, ?_, ?_, ?_⟩
  · change (BitVec.ofNat 32 k).toNat = k
    rw [BitVec.toNat_ofNat, Nat.mod_eq_of_lt (by omega)]
  · change ((x.seqId <<< 32 ||| BitVec.ofNat 64 k).setWidth 32).toNat = k
    rw [setWidth_cookie, BitVec.toNat_ofNat, Nat.mod_eq_of_lt (by omega)]
  · change (BitVec.ofNat 16 (k % 32)).toNat = _
    rw [BitVec.toNat_ofNat, Nat.mod_eq_of_lt (by omega)]
  · change (BitVec.ofNat 16 (min 32 _)).toNat = _
    rw [BitVec.toNat_ofNat, Nat.mod_eq_of_lt (by omega)]

/-- **What a dispatch publishes.** In every interleaving of dispatches and a consumer: the consumer takes
an initial segment of what was published; and once the host is at rest, what was published is what its
calls committed, one after the other. A call that succeeded committed the steps of its trajectory, each
with its step number, its block, its cookie and its place in its window; one that failed committed the
steps of the windows before the one that found no room. -/
theorem runtimeDispatch_publishes (z : Descriptor) (es : List ((i : Thread) × Call i)) :
    let c := logSystem.run (logInit z) es
    c.mem.ring.taken <+: c.mem.ring.published ∧
    ∀ l : List (DispatchArgs × Bool), c.threads .dispatcher = .ret l →
      ∃ dss : List (List Descriptor), c.mem.ring.published = dss.flatten ∧
        List.Forall₂ (fun y ds => 0 ≤ y.1.nSteps.toInt → 1 ≤ y.1.kvBlocks.toInt →
          if y.2 then FirstSteps y.1 y.1.steps ds
          else ∃ j, 32 * j < y.1.steps ∧ FirstSteps y.1 (32 * j) ds) l dss := by
  intro c
  have hgood : ringDiscipline.Good LogKnown c := logSystem_good z es
  refine ⟨Contents.taken_le hgood.1, fun l hl => ?_⟩
  obtain ⟨dss, hpub, hdss⟩ : LogKnown .dispatcher l c.mem := hgood.rest hl
  refine ⟨dss, hpub, hdss.imp fun y ds hds _ hb => ?_⟩
  rcases y with ⟨x, _ | _⟩
  · obtain ⟨j, hj, rfl⟩ := hds
    exact ⟨j, hj, firstSteps_take x hb hj.le⟩
  · have hall : ds = (trajectory x.seqId x.kvBlocks x.steps).take x.steps := by
      rw [List.take_of_length_le]
      · exact hds
      · rw [trajectory, List.length_map, List.length_range]
    rw [hall]
    exact firstSteps_take x hb le_rfl

end Dispatch

end RolloutRuntime
