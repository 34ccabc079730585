import RolloutRuntime.Pipeline.BenchmarkRun
import RolloutRuntime.Trace.Pairs

/-!
# The latency report of the traced benchmark

The traced benchmark records an event at each step of a rollout and prints the latencies of eight pairs of
events at its end. A pair needs the same rollout and the same sequence number in both of its events. The
allocation of a rollout is recorded with the sequence number zero, but the events at its end with the number
of its steps, so the two rows that start at an allocation never have a sample. The two rows that start at
the reward, and the row from posting to committing a descriptor, record their events one right after the
other and miss none.

One event is left out: `trace_pipeline_window` records the occupancy of the decode queue right before the
report, with the type `TRACE_PIPELINE_PUSH`, which `include/trace.h` does not declare and no row of the report
names.

## Main definitions

* `stampTrace`: the recorded events with the times of a clock.

## Main results

* `Trace.pairLatencies_of_pairPoints`: events recorded in turn are all paired.
* `Trace.pairLatencies_of_seq_ne`: events whose sequence numbers differ are never paired.
* `tracedBenchmark_report`: what the report of the traced benchmark shows.

## References

* `bench/bench_trace_pipeline.cu` lines 205–411, `src/trace.c` lines 64–160, `docs/tracing.md` lines 34–69.
-/

namespace RolloutRuntime

open RingBuffer

namespace Trace

/-! ### Pairs of events in a trace -/

/-- The arguments of `trace_push` in a call. -/
def TraceCall.point (c : TraceCall) : TracePoint := ⟨c.type, c.rolloutId, c.seq⟩

section Pairs

variable {startEv endEv : TraceEvent} {calls : List TraceCall}

/-- A list of starts and ends in turn, with timestamps in order, has a latency for each of its keys. -/
theorem filterMap_latency_of_pairPoints (hne : startEv ≠ endEv) (ks : List (BitVec 32 × BitVec 32))
    (hpoints : calls.map TraceCall.point = pairPoints startEv endEv ks)
    (hordered : calls.Pairwise fun c c' => c.tsc ≤ c'.tsc) :
    ((((calls.filter (·.type = startEv)).map TraceCall.entry).zip
      ((calls.filter (·.type = endEv)).map TraceCall.entry)).filterMap
        fun p => latency p.1 p.2).length = ks.length := by
  induction ks generalizing calls with
  | nil =>
    obtain rfl : calls = [] := List.map_eq_nil_iff.mp hpoints
    rfl
  | cons k ks ih =>
    rw [pairPoints, List.flatMap_cons, List.cons_append, List.cons_append, List.nil_append] at hpoints
    obtain ⟨s, calls, rfl, hs, hpoints⟩ := List.map_eq_cons_iff.mp hpoints
    obtain ⟨e, calls, rfl, he, hpoints⟩ := List.map_eq_cons_iff.mp hpoints
    obtain ⟨hstart, hsid, hsseq⟩ := TracePoint.mk.inj hs
    obtain ⟨hend, heid, heseq⟩ := TracePoint.mk.inj he
    have hle : s.tsc ≤ e.tsc := List.rel_of_pairwise_cons hordered List.mem_cons_self
    have hlat : latency s.entry e.entry = some (e.tsc - s.tsc) :=
      latency_eq_some.mpr ⟨⟨hsid.trans heid.symm, hsseq.trans heseq.symm, hle⟩, rfl⟩
    have hrest := ih hpoints hordered.of_cons.of_cons
    simp only [List.filter_cons, hstart, hend, decide_true, if_true, hne, hne.symm, decide_false,
      Bool.false_eq_true, if_false, List.map_cons, List.zip_cons_cons, List.filterMap_cons, hlat,
      List.length_cons]
    rw [hrest]

/-- **Events recorded in turn are all paired.** -/
theorem pairLatencies_of_pairPoints (hne : startEv ≠ endEv) {ks : List (BitVec 32 × BitVec 32)}
    (hpoints : (calls.map TraceCall.point).filter (ofTypes startEv endEv) = pairPoints startEv endEv ks)
    (hordered : calls.Pairwise fun c c' => c.tsc ≤ c'.tsc) :
    ∃ lats, pairLatencies (calls.map TraceCall.entry) startEv endEv = some lats ∧
      lats.length = ks.length := by
  refine ⟨_, pairLatencies_eq_zip, ?_⟩
  rw [filter_map_entry, filter_map_entry]
  rw [List.filter_map] at hpoints
  have hboth := filterMap_latency_of_pairPoints hne ks hpoints (hordered.sublist List.filter_sublist)
  rw [List.filter_filter, List.filter_filter] at hboth
  rw [← hboth]
  have hsame (ev : TraceEvent) (hev : ev = startEv ∨ ev = endEv) :
      calls.filter (·.type = ev) =
        calls.filter fun c => decide (c.type = ev) && (ofTypes startEv endEv ∘ TraceCall.point) c := by
    refine List.filter_congr fun c _ => ?_
    by_cases hc : c.type = ev
    · subst hc
      simp [ofTypes, TraceCall.point, hev]
    · simp [hc]
  rw [hsame startEv (.inl rfl), hsame endEv (.inr rfl)]

/-- **Events whose sequence numbers differ are never paired.** -/
theorem pairLatencies_of_seq_ne {entries : List TraceEntry} {m n : BitVec 32} (hne : m ≠ n)
    (hstart : ∀ x ∈ entries, x.type = startEv.code → x.seq = m)
    (hend : ∀ x ∈ entries, x.type = endEv.code → x.seq = n) :
    pairLatencies entries startEv endEv = some [] := by
  rw [pairLatencies_eq_zip, Option.some_inj, List.filterMap_eq_nil_iff]
  rintro ⟨s, e⟩ hmem
  obtain ⟨hs, he⟩ := List.of_mem_zip hmem
  obtain ⟨hs, hstype⟩ := List.mem_filter.mp hs
  obtain ⟨he, hetype⟩ := List.mem_filter.mp he
  rw [latency, if_neg]
  rintro ⟨-, hseq, -⟩
  rw [hstart s hs (by simpa using hstype), hend e he (by simpa using hetype)] at hseq
  exact hne hseq

theorem mem_scanned {x : TraceEntry} (h : x ∈ scanned (record calls)) : ∃ c ∈ calls, x = c.entry := by
  obtain ⟨i, hi⟩ := List.mem_ofFn.mp h
  have hlatest := record_latest calls
  have hcount := reportCount_record calls
  have hi' : (i : ℕ) < min (calls.length % 2 ^ 64) (2 ^ traceBits) := hcount ▸ i.isLt
  have hpow : 0 < 2 ^ traceBits := Nat.two_pow_pos _
  have hmod := Nat.mod_le calls.length (2 ^ 64)
  -- the last event recorded in slot `i`
  obtain ⟨j, hj, hlast, hpos⟩ : ∃ j, j < calls.length ∧ calls.length ≤ j + 2 ^ traceBits ∧
      j % 2 ^ traceBits = i := by
    refine ⟨i + 2 ^ traceBits * ((calls.length - 1 - i) / 2 ^ traceBits), ?_, ?_, ?_⟩
    · have := Nat.mul_div_le (calls.length - 1 - i) (2 ^ traceBits)
      omega
    · have := Nat.lt_mul_div_succ (calls.length - 1 - i) hpow
      rw [Nat.mul_succ] at this
      omega
    · rw [Nat.add_mul_mod_self_left, Nat.mod_eq_of_lt (by omega)]
  have hslot := hlatest j (by rwa [List.length_map]) (by rwa [List.length_map])
  have hcast : Fin.castLE (reportCount_le (record calls)) i = pos traceBits j := Fin.ext hpos.symm
  rw [hcast, hslot, List.getElem_map] at hi
  exact ⟨_, List.getElem_mem _, hi.symm⟩

end Pairs

end Trace

/-! ### The report -/

open Trace

/-- The events with the times of a clock. -/
def stampTrace (clock : ℕ → BitVec 64) (tr : List TracePoint) : List TraceCall :=
  tr.zipIdx.map fun x => ⟨clock x.2, x.1.type, x.1.rolloutId, x.1.seq⟩

theorem map_point_stampTrace (clock : ℕ → BitVec 64) (tr : List TracePoint) :
    (stampTrace clock tr).map TraceCall.point = tr := by
  rw [stampTrace, List.map_map]
  exact List.zipIdx_map_fst 0 tr

theorem stampTrace_ordered {clock : ℕ → BitVec 64} (hclock : ∀ i j, i ≤ j → clock i ≤ clock j)
    (tr : List TracePoint) : (stampTrace clock tr).Pairwise fun c c' => c.tsc ≤ c'.tsc := by
  rw [List.pairwise_iff_getElem]
  intro i j hi hj hij
  simp only [stampTrace, List.getElem_map, List.getElem_zipIdx, Nat.zero_add]
  exact hclock i j hij.le

section Report

variable {tokens : BitVec 32} {p f : ℕ} {tr : List TracePoint} {x : TracePoint}

theorem TracedAt.seq_of_started (h : TracedAt tokens p f tr) (hx : x ∈ tr) (htype : x.type = .rolloutAlloc) :
    x.seq = 0 := by
  have hmem : x ∈ tr.filter (·.type = .rolloutAlloc) := List.mem_filter.mpr ⟨hx, by simp [htype]⟩
  rw [h.started] at hmem
  obtain ⟨rid, -, rfl⟩ := List.mem_map.mp hmem
  rfl

theorem seq_of_mem_pairPoints {startEv endEv : TraceEvent} {rids : List (BitVec 32)}
    (h : tr.filter (ofTypes startEv endEv) = pairPoints startEv endEv (rids.map fun rid => (rid, tokens)))
    (hx : x ∈ tr) (htype : x.type = startEv ∨ x.type = endEv) : x.seq = tokens := by
  have hmem : x ∈ tr.filter (ofTypes startEv endEv) :=
    List.mem_filter.mpr ⟨hx, by simp only [ofTypes, decide_eq_true_eq]; exact htype⟩
  rw [h] at hmem
  obtain ⟨k, hk, hpoint⟩ := List.mem_flatMap.mp hmem
  obtain ⟨rid, -, rfl⟩ := List.mem_map.mp hk
  simp only [List.mem_cons, List.not_mem_nil, or_false] at hpoint
  obtain rfl | rfl := hpoint <;> rfl

theorem type_of_mem_waitPoints {completions : List Completion} (hx : x ∈ waitPoints completions) :
    x.type = .descConsumed ∨ x.type = .completionPolled := by
  obtain ⟨d, -, hd⟩ := List.mem_flatMap.mp hx
  simp only [List.mem_cons, List.not_mem_nil, or_false] at hd
  obtain rfl | rfl := hd
  · exact .inl rfl
  · exact .inr rfl

theorem TracedAt.wait (h : TracedAt tokens p f tr) (completions : List Completion) :
    TracedAt tokens p f (tr ++ waitPoints completions) := by
  refine h.other (fun x hx => ?_) (fun x hx => ?_) (fun x hx => ?_)
  all_goals obtain hx | hx := type_of_mem_waitPoints hx <;> simp [ofTypes, hx]

/-- The entries that the report of a recorded trace goes through. -/
def reported (clock : ℕ → BitVec 64) (tr : List TracePoint) : List TraceEntry :=
  scanned (record (stampTrace clock tr))

theorem mem_reported {clock : ℕ → BitVec 64} {e : TraceEntry} {ev : TraceEvent} (he : e ∈ reported clock tr)
    (hev : e.type = ev.code) : ∃ y ∈ tr, y.type = ev ∧ e.seq = y.seq := by
  obtain ⟨call, hcall, rfl⟩ := mem_scanned he
  have hmem : call.point ∈ tr := by
    rw [← map_point_stampTrace clock tr]
    exact List.mem_map_of_mem hcall
  exact ⟨call.point, hmem, TraceEvent.code_injective hev, rfl⟩

/-- A row that starts at an allocation has no samples. -/
theorem TracedAt.reportPair_started (h : TracedAt tokens p f tr) (hne : 0 ≠ tokens) (clock : ℕ → BitVec 64)
    {endEv : TraceEvent} (hend : ∀ y ∈ tr, y.type = endEv → y.seq = tokens) :
    reportPair (reported clock tr) .rolloutAlloc endEv = some none := by
  rw [reportPair, pairLatencies_of_seq_ne hne]
  · rfl
  · intro e he hev
    obtain ⟨y, hy, htype, hseq⟩ := mem_reported he hev
    exact hseq.trans (h.seq_of_started hy htype)
  · intro e he hev
    obtain ⟨y, hy, htype, hseq⟩ := mem_reported he hev
    exact hseq.trans (hend y hy htype)

/-- A row whose events are recorded in turn has a sample for each key. -/
theorem reported_pairLatencies {clock : ℕ → BitVec 64} (hclock : ∀ i j, i ≤ j → clock i ≤ clock j)
    (hlen : tr.length ≤ 2 ^ 20) {startEv endEv : TraceEvent} (hne : startEv ≠ endEv)
    {ks : List (BitVec 32 × BitVec 32)}
    (h : tr.filter (ofTypes startEv endEv) = pairPoints startEv endEv ks) :
    ∃ lats, pairLatencies (reported clock tr) startEv endEv = some lats ∧ lats.length = ks.length := by
  have hfits : (stampTrace clock tr).length ≤ 2 ^ traceBits := by
    rw [stampTrace, List.length_map, List.length_zipIdx]
    exact hlen
  rw [reported, scanned_of_le hfits]
  rw [← map_point_stampTrace clock tr] at h
  exact pairLatencies_of_pairPoints hne h (stampTrace_ordered hclock tr)

end Report

/-- **The report of the traced benchmark.** Whatever the device answers and whatever the wait polls, for
rollouts of at least one step: the two rows that start at an allocation have no samples. If the events fit
in the trace ring and the clock does not run backwards, the row from posting to committing has one sample
for each posted descriptor, and the two rows that start at the reward have one for each rollout. -/
theorem tracedBenchmark_report (device : ℕ → RingAnswers) (toFloat : ℚ → BitVec 32)
    (tokens nRollouts : BitVec 32) (htokens : 0 < tokens.toInt) {fuel : ℕ} (hfuel : tokens.toNat < fuel)
    {c : BenchContext} (hrun : benchmark fuel device toFloat tokens nRollouts = some c)
    (polled : ℕ → List Completion) {passes m : ℕ} {tr : List TracePoint}
    (hwait : waitForCompletions polled c.metrics.descriptorsPosted passes 0 0 c.trace = some (m, tr))
    (clock : ℕ → BitVec 64) :
    reportPair (reported clock tr) .rolloutAlloc .rewardPosted = some none ∧
      reportPair (reported clock tr) .rolloutAlloc .trajectoryDone = some none ∧
      ((∀ i j, i ≤ j → clock i ≤ clock j) → tr.length ≤ 2 ^ 20 →
        (∃ lats, pairLatencies (reported clock tr) .descPosted .descCommitted = some lats ∧
          lats.length = c.posted.length) ∧
        (∃ lats, pairLatencies (reported clock tr) .rewardPosted .rewardScored = some lats ∧
          lats.length = nRollouts.toInt.toNat) ∧
        ∃ lats, pairLatencies (reported clock tr) .rewardPosted .trajectoryDone = some lats ∧
          lats.length = nRollouts.toInt.toNat) := by
  obtain ⟨c', hrun', h, -⟩ := @benchmark_spec fuel device toFloat tokens htokens.le hfuel nRollouts
  obtain rfl := Option.some_inj.mp (hrun.symm.trans hrun')
  obtain ⟨k, -, -, rfl⟩ := waitForCompletions_eq_some polled _ hwait
  generalize (List.range' 0 k).flatMap polled = completions
  have htraced := h.traced.wait completions
  have hdesc : (c.trace ++ waitPoints completions).filter (ofTypes .descPosted .descCommitted) =
      pairPoints .descPosted .descCommitted (c.posted.map descKey) := by
    refine (filter_append_of_false fun x hx => ?_).trans h.dispatched.traced
    obtain hx | hx := type_of_mem_waitPoints hx <;> simp [ofTypes, hx]
  generalize c.trace ++ waitPoints completions = tr at htraced hdesc ⊢
  have hne : (0 : BitVec 32) ≠ tokens := by
    rintro rfl
    exact absurd htokens (by decide)
  refine ⟨htraced.reportPair_started hne clock fun y hy htype => ?_,
    htraced.reportPair_started hne clock fun y hy htype => ?_, fun hclock hlen => ⟨?_, ?_, ?_⟩⟩
  · exact seq_of_mem_pairPoints htraced.scored hy (.inl htype)
  · exact seq_of_mem_pairPoints htraced.finished hy (.inr htype)
  · simpa using reported_pairLatencies hclock hlen (by decide) hdesc
  · simpa using reported_pairLatencies hclock hlen (by decide) htraced.scored
  · simpa using reported_pairLatencies hclock hlen (by decide) htraced.finished

/-- One rollout of one step on a device that accepts everything, and a wait that polls everything at once. -/
theorem tracedBenchmark_report_one :
    ∃ (c : BenchContext) (polled : ℕ → List Completion) (m : ℕ) (tr : List TracePoint),
      benchmark 2 (fun _ => ⟨true, true, [], true⟩) (fun _ => 0) 1 1 = some c ∧
        waitForCompletions polled c.metrics.descriptorsPosted 1 0 0 c.trace = some (m, tr) ∧
        reportPair (reported (fun _ => 0) tr) .rolloutAlloc .rewardPosted = some none := by
  obtain ⟨c, hrun, -⟩ :=
    @benchmark_spec 2 (fun _ => ⟨true, true, [], true⟩) (fun _ => 0) 1 (by decide) (by decide) 1
  obtain ⟨⟨m, tr⟩, hwait⟩ := waitForCompletions_ends
    (fun _ => List.replicate c.metrics.descriptorsPosted default) c.metrics.descriptorsPosted 1 0 0 c.trace
    (by simp)
  exact ⟨c, _, m, tr, hrun, hwait,
    (tracedBenchmark_report _ _ 1 1 (by decide) (by decide) hrun _ hwait fun _ => 0).1⟩

end RolloutRuntime
