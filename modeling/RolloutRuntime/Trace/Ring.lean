import RolloutRuntime.RingBuffer.Overwriting

/-!
# The trace ring

The benchmark thread records its events in a ring of `2 ^ 20` entries that overwrites the oldest ones. The
writer counts the events in a free-running 64-bit head and masks it to a position. The report clamps the
head to the number of entries and goes through the entries from index 0 on. So the report sees the newest
events oldest first until the ring is full; after that it begins with the newest of them.

## Main definitions

* `Trace.TraceEvent`, `Trace.TraceEntry`, `Trace.TraceRing`: the types of `trace.h`.
* `Trace.tracePushTs`, `Trace.traceInit`: the writer.
* `Trace.reportCount`, `Trace.scanned`: the entries that the report goes through.

## Main results

* `Trace.record_latest`: what the ring holds after any sequence of pushes.
* `Trace.scanned_eq_newest_iff`: when the report sees the newest events in order.

## References

* `include/trace.h` lines 5–45, `src/trace.c` lines 14–37 and 119–124, `docs/tracing.md` lines 6–18.
-/

namespace RolloutRuntime

open RingBuffer

namespace Trace

/-! ### Events and entries -/

/-- `trace_event_t`. -/
inductive TraceEvent
  | rolloutAlloc
  | rolloutFree
  | descPosted
  | descCommitted
  | descConsumed
  | completionPosted
  | completionPolled
  | decodeBatch
  | rewardPosted
  | rewardScored
  | trajectoryDone
  | eventCount
  deriving DecidableEq, Repr

/-- The value of an event, as it is stored. -/
def TraceEvent.code : TraceEvent → BitVec 32
  | .rolloutAlloc => 0
  | .rolloutFree => 1
  | .descPosted => 2
  | .descCommitted => 3
  | .descConsumed => 4
  | .completionPosted => 5
  | .completionPolled => 6
  | .decodeBatch => 7
  | .rewardPosted => 8
  | .rewardScored => 9
  | .trajectoryDone => 10
  | .eventCount => 11

theorem TraceEvent.code_injective : Function.Injective TraceEvent.code := by
  intro a b h
  cases a <;> cases b <;> first | rfl | exact absurd h (by decide)

/-- `trace_entry_t`. -/
structure TraceEntry where
  tsc : BitVec 64
  type : BitVec 32
  rolloutId : BitVec 32
  seq : BitVec 32
  deriving DecidableEq, Repr

/-- The arguments of one call of `trace_push_ts`. -/
structure TraceCall where
  tsc : BitVec 64
  type : TraceEvent
  rolloutId : BitVec 32
  seq : BitVec 32
  deriving DecidableEq, Repr

/-- The entry that a call writes. -/
def TraceCall.entry (c : TraceCall) : TraceEntry := ⟨c.tsc, c.type.code, c.rolloutId, c.seq⟩

/-! ### The ring -/

/-- `TRACE_CAPACITY` is `2 ^ traceBits`. -/
def traceBits : ℕ := 20

theorem traceBits_le : traceBits ≤ 64 := by decide

/-- `TraceRing`. -/
structure TraceRing where
  entries : Fin (2 ^ traceBits) → TraceEntry
  head : BitVec 64

/-- `trace_init`. -/
def traceInit : TraceRing := ⟨fun _ => ⟨0, 0, 0, 0⟩, 0⟩

/-- `trace_push_ts`. The position is below `2 ^ 32`, so its cast to 32 bits keeps it. -/
def tracePushTs (r : TraceRing) (c : TraceCall) : TraceRing where
  entries := Function.update r.entries (mask traceBits r.head) c.entry
  head := r.head + 1

/-- The ring after a sequence of calls. -/
def record (calls : List TraceCall) : TraceRing := calls.foldl tracePushTs traceInit

/-- The number of entries that `trace_report_from` goes through. -/
def reportCount (r : TraceRing) : ℕ := if r.head.toNat > 2 ^ traceBits then 2 ^ traceBits else r.head.toNat

theorem reportCount_le (r : TraceRing) : reportCount r ≤ 2 ^ traceBits := by
  unfold reportCount
  split_ifs <;> omega

/-- The entries that `trace_report_from` passes to `report_pair`, in the order of their indices. -/
def scanned (r : TraceRing) : List TraceEntry := slots r.entries (reportCount r) (reportCount_le r)

/-- The last events that fit in the ring, oldest first. -/
def newest (calls : List TraceCall) : List TraceEntry :=
  (calls.map TraceCall.entry).drop (calls.length - 2 ^ traceBits)

/-! ### What the ring holds -/

theorem record_concat (calls : List TraceCall) (c : TraceCall) :
    record (calls ++ [c]) = tracePushTs (record calls) c := by
  rw [record, List.foldl_append]
  rfl

theorem record_head (calls : List TraceCall) : (record calls).head = BitVec.ofNat 64 calls.length := by
  induction calls using List.reverseRecOn with
  | nil => rfl
  | append_singleton calls c ih =>
    rw [record_concat, List.length_append, List.length_singleton, BitVec.ofNat_add, ← ih]
    rfl

/-- **Every sequence of pushes.** Each of the last `2 ^ 20` events is still in the ring. -/
theorem record_latest (calls : List TraceCall) :
    Latest traceBits (record calls).entries (calls.map TraceCall.entry) := by
  induction calls using List.reverseRecOn with
  | nil => exact Latest.nil _
  | append_singleton calls c ih =>
    have hpos : mask traceBits (record calls).head = pos traceBits (calls.map TraceCall.entry).length := by
      rw [record_head, mask_ofNat traceBits_le, List.length_map]
    rw [record_concat, List.map_append]
    simp only [tracePushTs, hpos]
    exact ih.push c.entry

theorem reportCount_record (calls : List TraceCall) :
    reportCount (record calls) = min (calls.length % 2 ^ 64) (2 ^ traceBits) := by
  rw [reportCount, record_head, BitVec.toNat_ofNat]
  split_ifs <;> omega

/-- Before the first overwriting the report sees all events, in order. -/
theorem scanned_of_le {calls : List TraceCall} (h : calls.length ≤ 2 ^ traceBits) :
    scanned (record calls) = calls.map TraceCall.entry := by
  have hlatest := record_latest calls
  have hle : (calls.map TraceCall.entry).length ≤ 2 ^ traceBits := by rwa [List.length_map]
  have hcount : reportCount (record calls) = (calls.map TraceCall.entry).length := by
    have hlt : calls.length < 2 ^ 64 := h.trans_lt (Nat.pow_lt_pow_right (by decide) (by decide))
    rw [reportCount_record, Nat.mod_eq_of_lt hlt, min_eq_left h, List.length_map]
  rw [← hlatest.slots_eq hle, scanned]
  simp only [hcount]

theorem length_newest {calls : List TraceCall} (h : 2 ^ traceBits ≤ calls.length) :
    (newest calls).length = 2 ^ traceBits := by
  rw [newest, List.length_drop, List.length_map, Nat.sub_sub_self h]

/-- Once the ring is full, and while the head says so, the report sees the newest events rotated. -/
theorem scanned_eq_newest_of_full {calls : List TraceCall} (h : 2 ^ traceBits ≤ calls.length)
    (hhead : 2 ^ traceBits ≤ calls.length % 2 ^ 64) :
    scanned (record calls) = newest calls ↔ (newest calls).rotate calls.length = newest calls := by
  have hle : 2 ^ traceBits ≤ (calls.map TraceCall.entry).length := by rwa [List.length_map]
  have hcount : reportCount (record calls) = 2 ^ traceBits := by
    rw [reportCount_record, min_eq_right hhead]
  have hiff := (record_latest calls).slots_eq_iff hle
  rw [List.length_map] at hiff
  simp only [scanned, hcount]
  exact hiff

/-- **When the report sees the newest events in order.** For every sequence of pushes: the entries that
the report goes through are the last events that fit in the ring, oldest first, exactly if the ring did
not overwrite any, or the 64-bit head is at least the ring size and the last `2 ^ 20` events are unchanged
by a rotation by the number of events. -/
theorem scanned_eq_newest_iff (calls : List TraceCall) :
    scanned (record calls) = newest calls ↔
      calls.length ≤ 2 ^ 20 ∨
        2 ^ 20 ≤ calls.length % 2 ^ 64 ∧ (newest calls).rotate calls.length = newest calls := by
  rcases Nat.lt_or_ge (2 ^ traceBits) calls.length with hlong | hshort
  · have hnot : ¬ calls.length ≤ 2 ^ 20 := Nat.not_le_of_lt hlong
    rw [or_iff_right hnot]
    rcases Nat.lt_or_ge (calls.length % 2 ^ 64) (2 ^ traceBits) with hwrap | hfull
    · -- the head has wrapped, and the report misses entries
      constructor
      · intro heq
        have hcount := congrArg List.length heq
        rw [scanned, length_slots, reportCount_record, min_eq_left hwrap.le,
          length_newest hlong.le] at hcount
        omega
      · exact fun ⟨hge, _⟩ => absurd hge (Nat.not_le_of_lt hwrap)
    · rw [and_iff_right (show 2 ^ 20 ≤ calls.length % 2 ^ 64 from hfull)]
      exact scanned_eq_newest_of_full hlong.le hfull
  · have hnewest : newest calls = calls.map TraceCall.entry := by
      rw [newest, Nat.sub_eq_zero_of_le hshort, List.drop_zero]
    exact iff_of_true (by rw [hnewest, scanned_of_le hshort]) (.inl hshort)

/-- One event more than the ring holds, with the numbers of the events as their timestamps. -/
def oneTooMany : List TraceCall :=
  (List.range (2 ^ 20 + 1)).map fun i => ⟨BitVec.ofNat 64 i, .descPosted, 0, 0⟩

theorem oneTooMany_nodup : (oneTooMany.map TraceCall.entry).Nodup := by
  rw [oneTooMany, List.map_map]
  refine List.Nodup.map_on ?_ List.nodup_range
  intro i hi j hj hij
  rw [List.mem_range] at hi hj
  have htsc : BitVec.ofNat 64 i = BitVec.ofNat 64 j := congrArg TraceEntry.tsc hij
  have hnat := congrArg BitVec.toNat htsc
  rwa [BitVec.toNat_ofNat, BitVec.toNat_ofNat, Nat.mod_eq_of_lt (by omega),
    Nat.mod_eq_of_lt (by omega)] at hnat

/-- With one event too many the report does not see the newest events in order: it begins with the very
last one. -/
theorem scanned_oneTooMany : scanned (record oneTooMany) ≠ newest oneTooMany := by
  have hlen : oneTooMany.length = 2 ^ 20 + 1 := by rw [oneTooMany, List.length_map, List.length_range]
  have hfull : 2 ^ traceBits ≤ oneTooMany.length := by
    rw [hlen]
    exact Nat.le_succ _
  have hhead : 2 ^ traceBits ≤ oneTooMany.length % 2 ^ 64 := by
    rw [hlen]
    decide
  have hnodup : (newest oneTooMany).Nodup := oneTooMany_nodup.sublist (List.drop_sublist _ _)
  rw [Ne, scanned_eq_newest_of_full hfull hhead, hnodup.rotate_eq_self_iff, length_newest hfull, hlen]
  intro h
  rcases h with hmod | hnil
  · exact absurd hmod (by decide)
  · have hnone := congrArg List.length hnil
    rw [length_newest hfull] at hnone
    exact absurd hnone (by decide)

end Trace

end RolloutRuntime
