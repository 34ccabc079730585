import Mathlib.Algebra.BigOperators.Group.Finset.Basic
import RolloutRuntime.Pipeline.Benchmark

/-!
# The windows of the pipeline benchmark

A rollout is dispatched in windows of 32 steps, the last one being as long as what is left. The windows are
posted in order, up to the first one that is refused. The block of a step is counted from the id of the
rollout on, modulo 128, across the windows.

## Main definitions

* `SameStages`: only what a dispatch may change is different in two contexts.
* `benchDescriptor`, `firstWindows`: the descriptor of a step, and those of the first windows of a rollout.
* `RingAnswers.takes`, `takenWindows`, `triedWindows`: the windows the command ring takes.
* `PolledAt`: the completions that were polled while windows were dispatched.

## Main results

* `dispatchDecodeWindow_spec`: a window is posted as a whole, or not at all.
* `dispatchWindows_spec`: what is posted of a rollout.

## References

* `bench/bench_pipeline.cu` lines 166–211 and 291–306.
-/

namespace RolloutRuntime

open Trace

/-! ### Dispatching -/

/-- The events that a dispatch records. -/
def dispatchEvents : List TraceEvent := [.descPosted, .descCommitted, .completionPolled]

/-- Only what a dispatch may change is different in the two contexts. -/
structure SameStages (c c' : BenchContext) : Prop where
  pipeline : c'.pipeline = c.pipeline
  slab : c'.slab = c.slab
  rewardRing : c'.rewardRing = c.rewardRing
  refused : c'.refused = c.refused
  rewardHandoffs : c'.metrics.rewardHandoffs = c.metrics.rewardHandoffs
  rolloutsCompleted : c'.metrics.rolloutsCompleted = c.metrics.rolloutsCompleted
  decodeBatches : c'.metrics.decodeBatches = c.metrics.decodeBatches
  decodeRolloutsScheduled : c'.metrics.decodeRolloutsScheduled = c.metrics.decodeRolloutsScheduled
  decodeBatchPeak : c'.metrics.decodeBatchPeak = c.metrics.decodeBatchPeak
  trace : ∀ P : TracePoint → Bool, (∀ x, x.type ∈ dispatchEvents → P x = false) →
    c'.trace.filter P = c.trace.filter P

theorem SameStages.refl (c : BenchContext) : SameStages c c :=
  ⟨rfl, rfl, rfl, rfl, rfl, rfl, rfl, rfl, rfl, fun _ _ => rfl⟩

theorem SameStages.trans {c c' c'' : BenchContext} (h : SameStages c c') (h' : SameStages c' c'') :
    SameStages c c'' :=
  ⟨h'.pipeline.trans h.pipeline, h'.slab.trans h.slab, h'.rewardRing.trans h.rewardRing,
    h'.refused.trans h.refused, h'.rewardHandoffs.trans h.rewardHandoffs,
    h'.rolloutsCompleted.trans h.rolloutsCompleted, h'.decodeBatches.trans h.decodeBatches,
    h'.decodeRolloutsScheduled.trans h.decodeRolloutsScheduled,
    h'.decodeBatchPeak.trans h.decodeBatchPeak, fun P hP => (h'.trace P hP).trans (h.trace P hP)⟩

theorem filter_append_of_false {tr new : List TracePoint} {P : TracePoint → Bool}
    (h : ∀ x ∈ new, P x = false) : (tr ++ new).filter P = tr.filter P := by
  have hnil : new.filter P = [] := List.filter_eq_nil_iff.mpr fun x hx => by simp [h x hx]
  rw [List.filter_append, hnil, List.append_nil]

/-- The two events of each key, in turn. -/
def pairPoints (startEv endEv : TraceEvent) (ks : List (BitVec 32 × BitVec 32)) : List TracePoint :=
  ks.flatMap fun k => [⟨startEv, k.1, k.2⟩, ⟨endEv, k.1, k.2⟩]

/-- The events of one of two types. -/
def ofTypes (startEv endEv : TraceEvent) (x : TracePoint) : Bool := x.type = startEv ∨ x.type = endEv

/-- The rollout and the step of a descriptor. -/
def descKey (d : Descriptor) : BitVec 32 × BitVec 32 := (d.seqId.setWidth 32, d.outputTokenOffset)

/-- Every descriptor posted was recorded as posted and as committed, one descriptor after the other. -/
def DescTraced (c : BenchContext) : Prop :=
  c.trace.filter (ofTypes .descPosted .descCommitted) =
    pairPoints .descPosted .descCommitted (c.posted.map descKey)

theorem pairPoints_append (startEv endEv : TraceEvent) (ks ks' : List (BitVec 32 × BitVec 32)) :
    pairPoints startEv endEv (ks ++ ks') = pairPoints startEv endEv ks ++ pairPoints startEv endEv ks' :=
  List.flatMap_append

theorem filter_pairPoints (startEv endEv : TraceEvent) (ks : List (BitVec 32 × BitVec 32)) :
    (pairPoints startEv endEv ks).filter (ofTypes startEv endEv) = pairPoints startEv endEv ks := by
  rw [List.filter_eq_self]
  intro x hx
  obtain ⟨k, -, hk⟩ := List.mem_flatMap.mp hx
  simp only [List.mem_cons, List.not_mem_nil, or_false] at hk
  obtain rfl | rfl := hk <;> simp [ofTypes]

theorem decodeBatchPush_of_lt {b : DecodeDispatchBatch} {d : Descriptor} (h : b.descs.length < 32) :
    ∃ b', decodeBatchPush b d = some b' ∧ b'.descs = b.descs ++ [d] := by
  have hroom : ¬ b.descs.length ≥ decodeDescriptorBatchLimit := h.not_ge
  exact ⟨_, by rw [decodeBatchPush, dif_neg hroom], rfl⟩

theorem fillWindow_eq (rid stepStart kvBlockBase : BitVec 32) (n : ℕ) (b : DecodeDispatchBatch)
    (hn : b.descs.length + n ≤ 32) :
    ∃ b', fillWindow rid stepStart kvBlockBase n b = some b' ∧
      b'.descs = b.descs ++
        (List.range' b.descs.length n).map (windowDescriptor rid stepStart kvBlockBase) := by
  induction n generalizing b with
  | zero => exact ⟨b, rfl, by simp⟩
  | succ n ih =>
    obtain ⟨b₁, hpush, hdescs₁⟩ :=
      decodeBatchPush_of_lt (d := windowDescriptor rid stepStart kvBlockBase b.descs.length)
        (show b.descs.length < 32 by omega)
    have hlen : b₁.descs.length = b.descs.length + 1 := by
      rw [hdescs₁, List.length_append, List.length_singleton]
    obtain ⟨b₂, hfill, hdescs₂⟩ := ih b₁ (by omega)
    refine ⟨b₂, by rw [fillWindow, hpush, Option.bind_some, hfill], ?_⟩
    rw [hdescs₂, hlen, hdescs₁, List.range'_succ, List.map_cons, List.append_assoc,
      List.singleton_append]

/-- The descriptors of a window of `n` steps as they are committed. -/
def windowDescriptors (rid stepStart kvBlockBase : BitVec 32) (n : ℕ) : List Descriptor :=
  (List.range n).map fun i =>
    { windowDescriptor rid stepStart kvBlockBase i with
      batchSize := BitVec.ofNat 16 n
      batchIndex := BitVec.ofNat 16 i }

theorem stamped_eq {rid stepStart kvBlockBase : BitVec 32} {n : ℕ} {b : DecodeDispatchBatch}
    (hb : b.descs = (List.range' 0 n).map (windowDescriptor rid stepStart kvBlockBase)) :
    b.stamped = windowDescriptors rid stepStart kvBlockBase n := by
  have hlen : b.descs.length = n := by rw [hb, List.length_map, List.length_range']
  rw [DecodeDispatchBatch.stamped, hlen, hb, ← List.range_eq_range', windowDescriptors]
  apply List.ext_getElem?
  intro i
  simp only [List.getElem?_map, List.getElem?_zipIdx, Option.map_map]
  by_cases hi : i < n
  · simp [List.getElem?_range hi]
  · simp [hi]

theorem descKey_windowDescriptors (rid stepStart kvBlockBase : BitVec 32) {n : ℕ} {b : DecodeDispatchBatch}
    (hb : b.descs = (List.range' 0 n).map (windowDescriptor rid stepStart kvBlockBase)) :
    (b.descs.flatMap fun d => [⟨.descPosted, rid, d.outputTokenOffset⟩,
      ⟨.descCommitted, rid, d.outputTokenOffset⟩]) =
      pairPoints .descPosted .descCommitted
        ((windowDescriptors rid stepStart kvBlockBase n).map descKey) := by
  have hkey (i : ℕ) : descKey { windowDescriptor rid stepStart kvBlockBase i with
      batchSize := BitVec.ofNat 16 n, batchIndex := BitVec.ofNat 16 i } =
      (rid, (windowDescriptor rid stepStart kvBlockBase i).outputTokenOffset) := by
    simp [descKey, windowDescriptor]
  rw [hb, ← List.range_eq_range', windowDescriptors, pairPoints, List.map_map, List.flatMap_map,
    List.flatMap_map]
  exact List.flatMap_congr fun i _ => by simp only [Function.comp_apply, hkey]

/-- The completions polled by the dispatch of a window: none, unless the command ring has no room. -/
def retryPolled (a : RingAnswers) : ℕ := if a.prepared ∧ ¬ a.submitted then a.polled.length else 0

/-- The context after the completions before a second submission are polled. -/
def pollRetry (a : RingAnswers) (c : BenchContext) : BenchContext :=
  { c with
    metrics := { c.metrics with
      ringFullSpins := c.metrics.ringFullSpins + 1
      descriptorsConsumed := c.metrics.descriptorsConsumed + a.polled.length }
    trace := c.trace ++ a.polled.map (completionPoint .completionPolled) }

/-- The context after a window is posted. -/
def postWindow (rid : BitVec 32) (b : DecodeDispatchBatch) (c : BenchContext) : BenchContext :=
  { c with
    metrics := { c.metrics with descriptorsPosted := c.metrics.descriptorsPosted + b.descs.length }
    posted := c.posted ++ b.stamped
    trace := c.trace ++ b.descs.flatMap fun d =>
      [⟨.descPosted, rid, d.outputTokenOffset⟩, ⟨.descCommitted, rid, d.outputTokenOffset⟩] }

theorem pollRetry_sameStages (a : RingAnswers) (c : BenchContext) : SameStages c (pollRetry a c) := by
  refine ⟨rfl, rfl, rfl, rfl, rfl, rfl, rfl, rfl, rfl, fun P hP =>
    filter_append_of_false fun x hx => hP x ?_⟩
  obtain ⟨d, -, rfl⟩ := List.mem_map.mp hx
  simp [dispatchEvents, completionPoint]

theorem postWindow_sameStages (rid : BitVec 32) (b : DecodeDispatchBatch) (c : BenchContext) :
    SameStages c (postWindow rid b c) := by
  refine ⟨rfl, rfl, rfl, rfl, rfl, rfl, rfl, rfl, rfl, fun P hP =>
    filter_append_of_false fun x hx => hP x ?_⟩
  obtain ⟨d, -, hd⟩ := List.mem_flatMap.mp hx
  simp only [List.mem_cons, List.not_mem_nil, or_false] at hd
  obtain rfl | rfl := hd <;> simp [dispatchEvents]

theorem pollRetry_descTraced {a : RingAnswers} {c : BenchContext} (h : DescTraced c) :
    DescTraced (pollRetry a c) := by
  refine Eq.trans (filter_append_of_false fun x hx => ?_) h
  obtain ⟨d, -, rfl⟩ := List.mem_map.mp hx
  simp [ofTypes, completionPoint]

theorem postWindow_descTraced {rid stepStart kvBlockBase : BitVec 32} {n : ℕ} {b : DecodeDispatchBatch}
    (hb : b.descs = (List.range' 0 n).map (windowDescriptor rid stepStart kvBlockBase)) {c : BenchContext}
    (h : DescTraced c) : DescTraced (postWindow rid b c) := by
  rw [DescTraced] at h
  simp only [DescTraced, postWindow, descKey_windowDescriptors rid stepStart kvBlockBase hb, stamped_eq hb]
  rw [List.filter_append, h, filter_pairPoints, List.map_append, pairPoints_append]

/-- The command ring takes a window, at the first submission or at the second one. -/
def RingAnswers.takes (a : RingAnswers) : Bool := a.prepared && (a.submitted || a.resubmitted)

/-- What the dispatch of a window does: the window is posted as a whole, or not at all. -/
structure Dispatches (a : RingAnswers) (rid stepStart stepCount kvBlockBase : BitVec 32) (c : BenchContext)
    (ok : Bool) (c' : BenchContext) : Prop where
  taken : ok = a.takes
  same : SameStages c c'
  pipelineOverflow : c'.metrics.pipelineOverflow = c.metrics.pipelineOverflow
  posted : c'.posted = c.posted ++
    (if ok then windowDescriptors rid stepStart kvBlockBase stepCount.toNat else [])
  descriptorsPosted :
    c'.metrics.descriptorsPosted + c.posted.length = c.metrics.descriptorsPosted + c'.posted.length
  windows : c'.windows = c.windows + 1
  descriptorsConsumed : c'.metrics.descriptorsConsumed = c.metrics.descriptorsConsumed + retryPolled a
  traced : DescTraced c → DescTraced c'

/-- **Dispatching a window.** -/
theorem dispatchDecodeWindow_spec (a : RingAnswers) (c : BenchContext)
    (rid stepStart stepCount kvBlockBase : BitVec 32) (hpos : 0 < stepCount.toNat)
    (hcount : stepCount.toNat ≤ 32) :
    ∃ ok c', dispatchDecodeWindow a c rid stepStart stepCount kvBlockBase = (ok, c') ∧
      Dispatches a rid stepStart stepCount kvBlockBase c ok c' := by
  have hn : (if stepCount > 32 then 32 else stepCount) = stepCount := by
    rw [if_neg]
    rw [gt_iff_lt, BitVec.not_lt, BitVec.le_def]
    exact hcount
  obtain ⟨b, hfill, hdescs⟩ :=
    fillWindow_eq rid stepStart kvBlockBase stepCount.toNat decodeBatchReset (by simpa [decodeBatchReset])
  have hb : b.descs = (List.range' 0 stepCount.toNat).map (windowDescriptor rid stepStart kvBlockBase) := by
    simpa [decodeBatchReset] using hdescs
  have hlen : b.descs.length = b.stamped.length := b.length_stamped.symm
  have hne : b.descs.length ≠ 0 := by
    rw [hb, List.length_map, List.length_range']
    omega
  have hcall : dispatchDecodeWindow a c rid stepStart stepCount kvBlockBase =
      if !a.prepared then (false, { c with windows := c.windows + 1 })
      else if a.submitted then (true, postWindow rid b { c with windows := c.windows + 1 })
      else if a.resubmitted then (true, postWindow rid b (pollRetry a { c with windows := c.windows + 1 }))
      else (false, pollRetry a { c with windows := c.windows + 1 }) := by
    simp only [dispatchDecodeWindow, hn, hfill, hne, ne_eq, not_false_eq_true, true_and, postWindow,
      pollRetry]
  have hsame : SameStages c { c with windows := c.windows + 1 } :=
    ⟨rfl, rfl, rfl, rfl, rfl, rfl, rfl, rfl, rfl, fun _ _ => rfl⟩
  rw [hcall]
  by_cases hprepared : a.prepared = true
  · by_cases hsubmitted : a.submitted = true
    · rw [hprepared, if_neg (by simp), if_pos hsubmitted]
      refine ⟨true, _, rfl, ?_, hsame.trans (postWindow_sameStages rid b _), rfl, ?_, ?_, rfl, ?_,
        postWindow_descTraced hb⟩
      · rw [RingAnswers.takes, hprepared, hsubmitted, Bool.true_or, Bool.and_true]
      · simp only [postWindow, stamped_eq hb, if_pos]
      · simp only [postWindow, List.length_append, hlen]
        omega
      · rw [retryPolled, if_neg fun h => h.2 hsubmitted]
        rfl
    · have hretry : retryPolled a = a.polled.length := if_pos ⟨hprepared, hsubmitted⟩
      rw [hprepared, if_neg (by simp), if_neg hsubmitted]
      have htakes : a.takes = a.resubmitted := by
        rw [RingAnswers.takes, hprepared, Bool.eq_false_iff.mpr hsubmitted, Bool.false_or, Bool.true_and]
      split_ifs with hresubmitted
      · refine ⟨true, _, rfl, htakes.symm ▸ hresubmitted.symm,
          (hsame.trans (pollRetry_sameStages a _)).trans (postWindow_sameStages rid b _),
          rfl, ?_, ?_, rfl, by rw [hretry]; rfl, fun h => postWindow_descTraced hb (pollRetry_descTraced h)⟩
        · simp only [postWindow, pollRetry, stamped_eq hb, if_pos]
        · simp only [postWindow, pollRetry, List.length_append, hlen]
          omega
      · rw [Bool.not_eq_true] at hresubmitted
        exact ⟨false, _, rfl, htakes.symm ▸ hresubmitted.symm, hsame.trans (pollRetry_sameStages a _), rfl,
          (List.append_nil _).symm, rfl, rfl, by rw [hretry]; rfl, pollRetry_descTraced⟩
  · rw [Bool.not_eq_true] at hprepared
    rw [hprepared, Bool.not_false, if_pos rfl]
    refine ⟨false, _, rfl, ?_, hsame, rfl, (List.append_nil _).symm, rfl, rfl, ?_, fun h => h⟩
    · rw [RingAnswers.takes, hprepared, Bool.false_and]
    · simp [retryPolled, hprepared]

/-- The descriptor of step `t` of a rollout of `tokens` steps: its block and its place in its window are
those of the step. -/
def benchDescriptor (tokens : ℕ) (rid : BitVec 32) (t : ℕ) : Descriptor where
  seqId := rid.setWidth 64
  kvBlockOffset := BitVec.ofNat 32 ((rid.toNat + t) % 128)
  numKvBlocks := 1
  attentionFlags := 0
  pad := 0
  outputTokenOffset := BitVec.ofNat 32 t
  rewardCookie := rid.setWidth 64 <<< 32 ||| BitVec.ofNat 64 t
  batchSize := BitVec.ofNat 16 (min 32 (tokens - 32 * (t / 32)))
  batchIndex := BitVec.ofNat 16 (t % 32)

theorem ofNat_mod_add (x : ℕ) {w : BitVec 32} {i : ℕ} (hw : w.toNat = i) :
    (BitVec.ofNat 32 (x % 128) + w) % 128 = BitVec.ofNat 32 ((x + i) % 128) := by
  apply BitVec.eq_of_toNat_eq
  have hblocks : (128 : BitVec 32).toNat = 128 := rfl
  rw [BitVec.toNat_umod, BitVec.toNat_add, hw, hblocks, BitVec.toNat_ofNat, BitVec.toNat_ofNat]
  omega

theorem windowDescriptors_eq {tokens : ℕ} (htokens : tokens < 2 ^ 31) (rid : BitVec 32) {j n : ℕ}
    (hn : n = min 32 (tokens - 32 * j)) :
    windowDescriptors rid (BitVec.ofNat 32 (32 * j)) (BitVec.ofNat 32 ((rid.toNat + 32 * j) % 128)) n =
      (List.range' (32 * j) n).map (benchDescriptor tokens rid) := by
  rw [windowDescriptors, List.range'_eq_map_range, List.map_map]
  refine List.map_congr_left fun i hi => ?_
  have hi' : i < n := List.mem_range.mp hi
  have hdiv : (32 * j + i) / 32 = j := by omega
  have hmod : (32 * j + i) % 32 = i := by omega
  have hstep : BitVec.ofNat 32 (32 * j) + BitVec.ofNat 32 i = BitVec.ofNat 32 (32 * j + i) :=
    (BitVec.ofNat_add _ _).symm
  have hblock : (BitVec.ofNat 32 ((rid.toNat + 32 * j) % 128) + BitVec.ofNat 32 i) % 128 =
      BitVec.ofNat 32 ((rid.toNat + (32 * j + i)) % 128) := by
    rw [← Nat.add_assoc]
    refine ofNat_mod_add _ ?_
    rw [BitVec.toNat_ofNat, Nat.mod_eq_of_lt (by omega)]
  have hcookie : (BitVec.ofNat 32 (32 * j + i)).setWidth 64 = BitVec.ofNat 64 (32 * j + i) := by
    apply BitVec.eq_of_toNat_eq
    simp only [BitVec.toNat_setWidth, BitVec.toNat_ofNat]
    omega
  simp only [windowDescriptor, benchDescriptor, Function.comp_apply, hstep, hblock, hcookie, hdiv, hmod, hn]

/-- The descriptors of the first `k` windows of a rollout. -/
def firstWindows (tokens : ℕ) (rid : BitVec 32) (k : ℕ) : List Descriptor :=
  (List.range (min tokens (32 * k))).map (benchDescriptor tokens rid)

theorem firstWindows_succ (tokens : ℕ) (rid : BitVec 32) (j : ℕ) :
    firstWindows tokens rid (j + 1) = firstWindows tokens rid j ++
      (List.range' (32 * j) (min 32 (tokens - 32 * j))).map (benchDescriptor tokens rid) := by
  rw [firstWindows, firstWindows, ← List.map_append]
  congr 1
  rcases Nat.lt_or_ge tokens (32 * j) with hlt | hge
  · rw [show min 32 (tokens - 32 * j) = 0 by omega, List.range'_zero, List.append_nil]
    congr 1
    omega
  · rw [show min tokens (32 * j) = 32 * j by omega,
      show min tokens (32 * (j + 1)) = 32 * j + min 32 (tokens - 32 * j) by omega,
      List.range_add, List.range'_eq_map_range]

section Dispatch

variable (device : ℕ → RingAnswers) {tokens : BitVec 32}

/-- Of `n` windows, the first of which is window `w` of the benchmark, the number of those before the first
that the command ring does not take. -/
def takenWindows (n w : ℕ) : ℕ := ((List.range' w n).takeWhile fun i => (device i).takes).length

/-- Of `n` windows, the first of which is window `w` of the benchmark, the number of those that are
dispatched: no window is tried after one that was not taken. -/
def triedWindows (n w : ℕ) : ℕ := min (takenWindows device n w + 1) n

theorem takenWindows_succ (n w : ℕ) :
    takenWindows device (n + 1) w =
      if (device w).takes then takenWindows device n (w + 1) + 1 else 0 := by
  rw [takenWindows, List.range'_succ, List.takeWhile_cons]
  split_ifs
  · rw [List.length_cons, takenWindows]
  · rfl

theorem takenWindows_le (n w : ℕ) : takenWindows device n w ≤ n := by
  have hle : takenWindows device n w ≤ (List.range' w n).length := (List.takeWhile_prefix _).length_le
  rwa [List.length_range'] at hle

theorem takes_of_lt_takenWindows {n w i : ℕ} (hi : i < takenWindows device n w) :
    (device (w + i)).takes = true := by
  induction n generalizing w i with
  | zero => exact absurd hi (Nat.not_lt_zero i)
  | succ n ih =>
    rw [takenWindows_succ] at hi
    split_ifs at hi with htakes
    · cases i with
      | zero => exact htakes
      | succ i =>
        rw [Nat.add_left_comm, Nat.add_comm i]
        exact ih (Nat.lt_of_succ_lt_succ hi)
    · exact absurd hi (Nat.not_lt_zero i)

theorem not_takes_takenWindows {n w : ℕ} (h : takenWindows device n w < n) :
    (device (w + takenWindows device n w)).takes = false := by
  induction n generalizing w with
  | zero => exact absurd h (Nat.not_lt_zero _)
  | succ n ih =>
    rw [takenWindows_succ] at h ⊢
    split_ifs at h ⊢ with htakes
    · rw [Nat.add_left_comm, Nat.add_comm (takenWindows device n _)]
      exact ih (Nat.lt_of_succ_lt_succ h)
    · exact Bool.eq_false_iff.mpr htakes

/-- The number of windows of a rollout. -/
def windowTotal (tokens : BitVec 32) : ℕ := (tokens.toNat + 31) / 32

/-- The completions that were polled while the windows so far were dispatched. -/
def PolledAt (c : BenchContext) : Prop :=
  c.metrics.descriptorsConsumed = ∑ i ∈ Finset.range c.windows, retryPolled (device i)

/-- **Dispatching a rollout.** Its windows are posted in order, up to the first one that is refused;
a refusal is counted. -/
theorem dispatchWindows_spec (htokens : tokens.toNat < 2 ^ 31) (rid : BitVec 32) (passes j : ℕ)
    (t kvBlock : BitVec 32) (c : BenchContext) (ht : t = BitVec.ofNat 32 (32 * j))
    (hj : j ≤ windowTotal tokens)
    (hkv : 32 * j < tokens.toNat → kvBlock = BitVec.ofNat 32 ((rid.toNat + 32 * j) % 128))
    (hpasses : tokens.toNat + 32 ≤ 32 * (j + passes)) (posted : List Descriptor)
    (hposted : c.posted = posted ++ firstWindows tokens.toNat rid j) (hpolled : PolledAt device c)
    (htraced : DescTraced c) :
    ∃ c', dispatchWindows device tokens rid passes t kvBlock c = some c' ∧ SameStages c c' ∧
      c'.windows = c.windows + triedWindows device (windowTotal tokens - j) c.windows ∧
      c'.posted = posted ++
        firstWindows tokens.toNat rid (j + takenWindows device (windowTotal tokens - j) c.windows) ∧
      c'.metrics.pipelineOverflow = c.metrics.pipelineOverflow +
        (if j + takenWindows device (windowTotal tokens - j) c.windows < windowTotal tokens then 1 else 0) ∧
      c'.metrics.descriptorsPosted + c.posted.length =
        c.metrics.descriptorsPosted + c'.posted.length ∧ PolledAt device c' ∧ DescTraced c' := by
  subst ht
  induction passes generalizing j kvBlock c with
  | zero =>
    rw [windowTotal] at hj
    omega
  | succ passes ih =>
    have htoNat : (BitVec.ofNat 32 (32 * j)).toNat = 32 * j := by
      rw [windowTotal] at hj
      rw [BitVec.toNat_ofNat, Nat.mod_eq_of_lt (by omega)]
    rw [dispatchWindows]
    have hmore : 32 * j < tokens.toNat ↔ j < windowTotal tokens := by
      rw [windowTotal]
      omega
    by_cases hlt : 32 * j < tokens.toNat
    · obtain rfl := hkv hlt
      obtain ⟨n, hn⟩ := Nat.exists_eq_succ_of_ne_zero (Nat.sub_ne_zero_of_lt (hmore.mp hlt))
      have hn' : windowTotal tokens - (j + 1) = n := by omega
      rw [if_pos (by rw [BitVec.lt_def, htoNat]; exact hlt)]
      have hsub : (tokens - BitVec.ofNat 32 (32 * j)).toNat = tokens.toNat - 32 * j := by
        rw [BitVec.toNat_sub_of_le (by rw [BitVec.le_def, htoNat]; omega), htoNat]
      have hwindow : (if tokens - BitVec.ofNat 32 (32 * j) > 32 then 32
          else tokens - BitVec.ofNat 32 (32 * j)).toNat = min 32 (tokens.toNat - 32 * j) := by
        have hlimit : (32 : BitVec 32).toNat = 32 := rfl
        split_ifs with hgt
        · rw [gt_iff_lt, BitVec.lt_def, hsub] at hgt
          omega
        · rw [gt_iff_lt, BitVec.lt_def, hsub] at hgt
          omega
      generalize (if tokens - BitVec.ofNat 32 (32 * j) > 32 then 32
          else tokens - BitVec.ofNat 32 (32 * j)) = window at hwindow
      obtain ⟨ok, c₁, hcall, htaken, hsame, hover, hposted₁, hcount, hwindows, hconsumed, htraced₁⟩ :=
        dispatchDecodeWindow_spec (device c.windows) c rid (BitVec.ofNat 32 (32 * j)) window
          (BitVec.ofNat 32 ((rid.toNat + 32 * j) % 128)) (by omega) (by omega)
      have hpolled₁ : PolledAt device c₁ := by
        rw [PolledAt, hwindows, Finset.sum_range_succ, hconsumed, hpolled]
      simp only [hcall]
      cases ok with
      | false =>
        have hsame' : SameStages c₁ { c₁ with metrics := { c₁.metrics with
            pipelineOverflow := c₁.metrics.pipelineOverflow + 1 } } :=
          ⟨rfl, rfl, rfl, rfl, rfl, rfl, rfl, rfl, rfl, fun _ _ => rfl⟩
        -- nothing of this window is posted, and no window is tried after it
        have hnone : takenWindows device (windowTotal tokens - j) c.windows = 0 := by
          rw [hn, takenWindows_succ, ← htaken]
          rfl
        refine ⟨_, rfl, hsame.trans hsame', ?_, ?_, ?_, hcount, hpolled₁, htraced₁ htraced⟩
        · rw [triedWindows, hnone, hn, Nat.succ_min_succ, Nat.zero_min]
          exact hwindows
        · rw [hnone]
          refine hposted₁.trans ?_
          rw [if_neg Bool.false_ne_true, List.append_nil]
          exact hposted
        · simp only [hover, hnone, Nat.add_zero, if_pos (hmore.mp hlt)]
      | true =>
        rw [if_pos rfl, hwindow, windowDescriptors_eq htokens rid rfl, hposted, List.append_assoc,
          ← firstWindows_succ] at hposted₁
        have hnext : BitVec.ofNat 32 (32 * j) + 32 = BitVec.ofNat 32 (32 * (j + 1)) := by
          rw [Nat.mul_succ, BitVec.ofNat_add]
          rfl
        have hnext' : takenWindows device (windowTotal tokens - j) c.windows =
            takenWindows device n (c.windows + 1) + 1 := by
          rw [hn, takenWindows_succ, ← htaken]
          rfl
        have hkv' : 32 * (j + 1) < tokens.toNat →
            (BitVec.ofNat 32 ((rid.toNat + 32 * j) % 128) + window) % 128 =
              BitVec.ofNat 32 ((rid.toNat + 32 * (j + 1)) % 128) := by
          intro _
          rw [Nat.mul_succ, ← Nat.add_assoc]
          exact ofNat_mod_add _ (by omega)
        obtain ⟨c', hrun, hsame', hwindows', hposted', hover', hcount', hpolled', htraced'⟩ :=
          ih (j + 1) _ c₁ (hmore.mp hlt) hkv' (by omega) hposted₁ hpolled₁ (htraced₁ htraced)
        rw [hn', hwindows] at hwindows' hposted' hover'
        rw [hnext, hnext', ← Nat.add_assoc, Nat.add_right_comm]
        refine ⟨c', hrun, hsame.trans hsame', ?_, hposted', ?_, by omega, hpolled', htraced'⟩
        · rw [hwindows', triedWindows, triedWindows, hnext', hn, Nat.succ_min_succ]
          omega
        · rw [hover', hover]
    · have hlast : windowTotal tokens - j = 0 := Nat.sub_eq_zero_of_le (not_lt.mp (hmore.not.mp hlt))
      have hnone : takenWindows device 0 c.windows = 0 := rfl
      rw [if_neg (by rw [BitVec.lt_def, htoNat]; exact hlt), hlast, hnone, Nat.add_zero]
      refine ⟨c, rfl, .refl c, rfl, hposted, ?_, rfl, hpolled, htraced⟩
      rw [if_neg (hmore.not.mp hlt), Nat.add_zero]

end Dispatch

end RolloutRuntime
