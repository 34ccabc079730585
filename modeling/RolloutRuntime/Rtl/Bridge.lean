import RolloutRuntime.Rtl.DescriptorEngine
import Mathlib.Data.Fin.VecNotation

/-!
# The bridge between the host and the descriptor engine

The bridge drives the clock and the inputs of the descriptor engine from calls of the host. A submission
waits at most 16 cycles for room and then offers its descriptor for one cycle; a poll looks at the
completion offered and makes a clock edge of its own only if the host is ready for completions. A
completion leaves the completion ring at every clock edge that finds it offered and the host ready,
whichever call makes the edge.

The state has two records beside the members of the source: the completions pushed into the completion
ring and those that left it, both extended by `tick` alone and read by no call. The entry of the ring a
poll looks at is then known by its number: the number of completions that left before.

## Main definitions

* `Rtl.packDesc`, `Rtl.extractBits`: the words of a descriptor and the fields of a completion.
* `Rtl.Bridge`, `Rtl.Bridge.exec`: the state of the bridge and one call of the host.
* `Rtl.Event`, `Rtl.Bridge.events`: what one call did to the completion ring.
* `Rtl.Event.taken`, `Rtl.Event.dropped`: the entries that left the ring in a poll that returned them, and
  in other calls.

## Main results

* `Rtl.Bridge.exec_accounts`: what one call does to the completion ring.
* `Rtl.Bridge.waitForCompletion_spec`: a host that waits for completions loses none.
* `Rtl.bridge_accounts`: every completion that left the ring was returned by one poll made with the host
  ready, or left in a call that is no poll, and not both.

## References

* `verilator/rtl_bridge.cpp`, `verilator/rtl_bridge.h`, `verilator/sim_main.cpp` lines 19–33,
  `rtl/completion_ring.sv` lines 30–49.
-/

namespace RolloutRuntime

open RingBuffer

namespace Rtl

/-! ### Words and fields -/

/-- `bit_mask`. -/
def bitMask (width : ℕ) : BitVec 64 := if width ≥ 64 then BitVec.allOnes 64 else (1#64 <<< width) - 1#64

/-- `extract_bits` of a bus of at most 64 bits. -/
def extractBits (value : BitVec 64) (lsb width : ℕ) : BitVec 64 :=
  let sliced := value >>> lsb
  if width < 64 then sliced &&& bitMask width else sliced

/-- A completion on its bus: the first field sits in the high bits. -/
def Comp.packed (c : Comp) : BitVec 64 :=
  (c.rolloutId ++ c.status ++ c.finalSeqLen ++ c.rewardId).setWidth 64

/-- The fields of a completion as `poll_completion` reads them from the bus. -/
def Comp.ofBus (hostComp : BitVec 64) : Comp where
  rewardId := (extractBits hostComp 0 16).setWidth 16
  finalSeqLen := (extractBits hostComp 16 16).setWidth 16
  status := (extractBits hostComp 32 8).setWidth 8
  rolloutId := (extractBits hostComp 40 16).setWidth 16

/-- The six words of `host_desc`. -/
abbrev DescWords := Fin 6 → BitVec 32

/-- `pack_desc`. -/
def packDesc (opcode flags : BitVec 8) (rolloutId kvArenaId prefixId : BitVec 16)
    (kvOffset deltaOffset : BitVec 32) (seqLen maxTokens rewardModelId reserved : BitVec 16) :
    DescWords :=
  ![reserved.setWidth 32 ||| rewardModelId.setWidth 32 <<< 16,
    maxTokens.setWidth 32 ||| seqLen.setWidth 32 <<< 16,
    deltaOffset,
    kvOffset,
    prefixId.setWidth 32 ||| kvArenaId.setWidth 32 <<< 16,
    rolloutId.setWidth 32 ||| flags.setWidth 32 <<< 16 ||| opcode.setWidth 32 <<< 24]

/-- The record `desc_t` that the engine sees in the six words: its last field sits in the low bits of
word 0. -/
def Desc.ofWords (words : DescWords) : Desc where
  reserved := (words 0).extractLsb' 0 16
  rewardModelId := (words 0).extractLsb' 16 16
  maxTokens := (words 1).extractLsb' 0 16
  seqLen := (words 1).extractLsb' 16 16
  deltaOffset := words 2
  kvOffset := words 3
  prefixId := (words 4).extractLsb' 0 16
  kvArenaId := (words 4).extractLsb' 16 16
  rolloutId := (words 5).extractLsb' 0 16
  flags := (words 5).extractLsb' 16 8
  opcode := (words 5).extractLsb' 24 8

theorem bitMask_toNat {width : ℕ} (h : width < 64) : (bitMask width).toNat = 2 ^ width - 1 := by
  have hlt : 2 ^ width < 2 ^ 64 := Nat.pow_lt_pow_right (by decide) h
  have hpos := Nat.two_pow_pos width
  have hshift : (1#64 <<< width).toNat = 2 ^ width := by
    rw [BitVec.toNat_shiftLeft, Nat.shiftLeft_eq, BitVec.toNat_one (by decide), Nat.one_mul,
      Nat.mod_eq_of_lt hlt]
  rw [bitMask, if_neg (by omega), BitVec.toNat_sub_of_le ?_, hshift]
  · rfl
  · rw [BitVec.le_def, hshift]
    exact hpos

theorem extractBits_setWidth (value : BitVec 64) (lsb : ℕ) {width : ℕ} (h : width < 64) :
    (extractBits value lsb width).setWidth width = value.extractLsb' lsb width := by
  apply BitVec.eq_of_toNat_eq
  rw [extractBits, if_pos h, BitVec.toNat_setWidth, BitVec.toNat_and, bitMask_toNat h,
    Nat.and_two_pow_sub_one_eq_mod, Nat.mod_mod, BitVec.toNat_ushiftRight, BitVec.extractLsb'_toNat]

/-- A field of a completion read by `extract_bits` is a slice of its bits. -/
theorem extractBits_bus (v : BitVec 56) (lsb width : ℕ) (h : width < 64) (hle : lsb + width ≤ 56) :
    (extractBits (v.setWidth 64) lsb width).setWidth width = v.extractLsb' lsb width := by
  rw [extractBits_setWidth _ _ h]
  exact BitVec.extractLsb'_setWidth_of_le (by omega)

/-- A completion is read from the bus as it was put there. -/
theorem Comp.ofBus_packed (c : Comp) : Comp.ofBus c.packed = c := by
  have hfield := extractBits_bus (c.rolloutId ++ c.status ++ c.finalSeqLen ++ c.rewardId)
  have hrew : (extractBits c.packed 0 16).setWidth 16 = c.rewardId := by
    rw [Comp.packed, hfield 0 16 (by decide) (by decide), BitVec.extractLsb'_append_eq_right]
  have hlen : (extractBits c.packed 16 16).setWidth 16 = c.finalSeqLen := by
    rw [Comp.packed, hfield 16 16 (by decide) (by decide),
      BitVec.extractLsb'_append_eq_of_le (by decide), BitVec.extractLsb'_append_eq_right]
  have hstatus : (extractBits c.packed 32 8).setWidth 8 = c.status := by
    rw [Comp.packed, hfield 32 8 (by decide) (by decide),
      BitVec.extractLsb'_append_eq_of_le (by decide),
      BitVec.extractLsb'_append_eq_of_le (by decide), BitVec.extractLsb'_append_eq_right]
  have hid : (extractBits c.packed 40 16).setWidth 16 = c.rolloutId := by
    rw [Comp.packed, hfield 40 16 (by decide) (by decide),
      BitVec.extractLsb'_append_eq_of_le (by decide),
      BitVec.extractLsb'_append_eq_of_le (by decide), BitVec.extractLsb'_append_eq_left]
  rw [Comp.ofBus, hrew, hlen, hstatus, hid]

theorem halves_eq_append (lo hi : BitVec 16) :
    lo.setWidth 32 ||| hi.setWidth 32 <<< 16 = hi ++ lo := by
  rw [BitVec.or_comm, ← BitVec.setWidth_eq (hi ++ lo),
    BitVec.setWidth_append_eq_shiftLeft_setWidth_or]

/-- The engine sees the descriptor that was packed. -/
theorem Desc.ofWords_packDesc (d : Desc) :
    Desc.ofWords (packDesc d.opcode d.flags d.rolloutId d.kvArenaId d.prefixId d.kvOffset
      d.deltaOffset d.seqLen d.maxTokens d.rewardModelId d.reserved) = d := by
  have hlow (lo hi : BitVec 16) :
      (lo.setWidth 32 ||| hi.setWidth 32 <<< 16).extractLsb' 0 16 = lo := by
    rw [halves_eq_append, BitVec.extractLsb'_append_eq_right]
  have hhigh (lo hi : BitVec 16) :
      (lo.setWidth 32 ||| hi.setWidth 32 <<< 16).extractLsb' 16 16 = hi := by
    rw [halves_eq_append, BitVec.extractLsb'_append_eq_left]
  have htop : d.rolloutId.setWidth 32 ||| d.flags.setWidth 32 <<< 16 |||
      d.opcode.setWidth 32 <<< 24 = d.opcode ++ d.flags ++ d.rolloutId := by
    rw [BitVec.or_comm, BitVec.or_comm (d.rolloutId.setWidth 32), ← BitVec.or_assoc,
      ← BitVec.setWidth_eq (d.opcode ++ d.flags ++ d.rolloutId),
      BitVec.setWidth_append_append_eq_shiftLeft_setWidth_or]
  have hid : (d.opcode ++ d.flags ++ d.rolloutId).extractLsb' 0 16 = d.rolloutId :=
    BitVec.extractLsb'_append_eq_right
  have hflags : (d.opcode ++ d.flags ++ d.rolloutId).extractLsb' 16 8 = d.flags := by
    rw [BitVec.extractLsb'_append_eq_of_le (by decide), BitVec.extractLsb'_append_eq_right]
  have hopcode : (d.opcode ++ d.flags ++ d.rolloutId).extractLsb' 24 8 = d.opcode := by
    rw [BitVec.extractLsb'_append_eq_of_le (by decide), BitVec.extractLsb'_append_eq_left]
  simp [Desc.ofWords, packDesc, hlow, hhigh, htop, hid, hflags, hopcode]

/-! ### The bridge -/

/-- The state of the bridge: the registers of the engine, the inputs it is driven with, and the number of
cycles made. -/
structure Bridge (w : ℕ) where
  top : Engine w
  hostDesc : DescWords
  hostDescValid : Bool
  hostCompReady : Bool
  doorbellPulse : Bool
  cycles : BitVec 64
  /-- The completions pushed into the completion ring so far. -/
  pushed : List Comp
  /-- The completions that left the completion ring so far. -/
  left : List Comp

/-- The calls of the host. A poll is made with a place for the completion or without. -/
inductive BridgeCall
  | submitDecode (rolloutId seqLen maxTokens rewardModelId kvArenaId prefixId : BitVec 16)
      (kvOffset deltaOffset : BitVec 32)
  | submitStop (rolloutId : BitVec 16)
  | tick
  | setCompletionReady (ready : Bool)
  | pollCompletion (out : Bool)

/-- What a call returns: nothing, whether a submission was accepted, or whether a poll found a completion,
and which. -/
inductive BridgeReply
  | done
  | submitted (accepted : Bool)
  | polled (found : Option Comp)
  deriving DecidableEq

namespace Bridge

variable {w : ℕ}

/-- The inputs of the engine at the next clock edge. -/
def input (b : Bridge w) : Input :=
  ⟨Desc.ofWords b.hostDesc, b.hostDescValid, b.hostCompReady, b.doorbellPulse⟩

/-- `tick`: one clock edge. -/
def tick (b : Bridge w) : Bridge w :=
  { b with
    top := b.top.step b.input
    cycles := b.cycles + 1
    pushed := b.pushed ++ b.top.completionRing.pushed b.top.worker.outComp b.top.worker.outValid
    left := b.left ++ b.top.completionRing.popped b.hostCompReady }

/-- A new bridge after `reset(n + 1)`: the registers are reset at the first of its clock edges, and the
last one is made with the reset released. -/
def reset (descMem : Fin (2 ^ w) → Desc) (compMem : Fin (2 ^ w) → Comp) (n : ℕ) : Bridge w :=
  tick ⟨.reset descMem compMem, fun _ => 0, false, false, false, BitVec.ofNat 64 (n + 1), [], []⟩

/-- The loop in front of a submission: at most `n` clock edges until there is room. -/
def waitReady : ℕ → Bridge w → Bridge w
  | 0, b => b
  | n + 1, b => if b.top.hostDescReady then b else waitReady n b.tick

/-- The part of a submission after its descriptor was packed. -/
def submit (b : Bridge w) : Bridge w × Bool :=
  let b := waitReady 16 b
  if !b.top.hostDescReady then (b, false)
  else
    let b := tick { b with hostDescValid := true, doorbellPulse := true }
    ({ b with hostDescValid := false, doorbellPulse := false }, true)

/-- `submit_decode`. -/
def submitDecode (b : Bridge w) (rolloutId seqLen maxTokens rewardModelId kvArenaId prefixId : BitVec 16)
    (kvOffset deltaOffset : BitVec 32) : Bridge w × Bool :=
  if seqLen.toNat > 0xFFFF || maxTokens.toNat > 0xFFFF then (b, false)
  else if kvOffset.toNat > 0xFFFFFFFF || deltaOffset.toNat > 0xFFFFFFFF then (b, false)
  else submit { b with
    hostDesc := packDesc descOpDecode 0 rolloutId kvArenaId prefixId kvOffset deltaOffset seqLen maxTokens
      rewardModelId 0 }

/-- `submit_stop`. -/
def submitStop (b : Bridge w) (rolloutId : BitVec 16) : Bridge w × Bool :=
  let b := { b with hostDesc := packDesc descOpStop 0 rolloutId 0 0 0 0 0 0 0 0 }
  if rolloutId.toNat > 0xFFFF then (b, false) else submit b

/-- `set_completion_ready`. -/
def setCompletionReady (b : Bridge w) (ready : Bool) : Bridge w := { b with hostCompReady := ready }

/-- `poll_completion`. -/
def pollCompletion (b : Bridge w) (out : Bool) : Bridge w × Option Comp :=
  if !b.top.hostCompValid || !out then (b, none)
  else
    let found := Comp.ofBus b.top.hostComp.packed
    (if b.hostCompReady then b.tick else b, some found)

/-- The loop of `wait_for_completion`. -/
def waitLoop : ℕ → Bridge w → Bridge w × Option Comp
  | 0, b => (b.setCompletionReady false, none)
  | timeoutCycles + 1, b =>
    match b.pollCompletion true with
    | (b, some comp) => (b.setCompletionReady false, some comp)
    | (b, none) => waitLoop timeoutCycles b.tick

/-- `wait_for_completion`, as the programs that drive the bridge wait. -/
def waitForCompletion (b : Bridge w) (timeoutCycles : ℕ) : Bridge w × Option Comp :=
  waitLoop timeoutCycles (b.setCompletionReady true)

/-- One call of the host. -/
def exec (b : Bridge w) : BridgeCall → Bridge w × BridgeReply
  | .submitDecode rolloutId seqLen maxTokens rewardModelId kvArenaId prefixId kvOffset deltaOffset =>
    (b.submitDecode rolloutId seqLen maxTokens rewardModelId kvArenaId prefixId kvOffset
      deltaOffset).map id .submitted
  | .submitStop rolloutId => (b.submitStop rolloutId).map id .submitted
  | .tick => (b.tick, .done)
  | .setCompletionReady ready => (b.setCompletionReady ready, .done)
  | .pollCompletion out => (b.pollCompletion out).map id .polled

/-- The bridge after a sequence of calls. -/
def run (b : Bridge w) (calls : List BridgeCall) : Bridge w :=
  calls.foldl (fun b call => (b.exec call).1) b

end Bridge

/-- What one call did to the completion ring: the completions that had left the ring before it and after
it, and whether the host was ready for completions when it was made. -/
structure Event where
  call : BridgeCall
  reply : BridgeReply
  ready : Bool
  before : ℕ
  after : ℕ

namespace Event

/-- The entry of the completion ring that a poll returned. -/
def returned (e : Event) : List ℕ :=
  match e.reply with
  | .polled (some _) => [e.before]
  | _ => []

/-- The entry that a poll made with the host ready returned. -/
def taken (e : Event) : List ℕ := if e.ready then e.returned else []

/-- The entries that left the completion ring in a call that is no poll. -/
def dropped (e : Event) : List ℕ :=
  match e.call with
  | .pollCompletion _ => []
  | _ => List.range' e.before (e.after - e.before)

end Event

/-- The event of one call. -/
def Bridge.event {w : ℕ} (b : Bridge w) (call : BridgeCall) : Event :=
  ⟨call, (b.exec call).2, b.hostCompReady, b.left.length, (b.exec call).1.left.length⟩

/-- The events of a sequence of calls. -/
def Bridge.events {w : ℕ} (b : Bridge w) : List BridgeCall → List Event
  | [] => []
  | call :: calls => b.event call :: (b.exec call).1.events calls

/-! ### Single calls -/

namespace Bridge

variable {w : ℕ} {b b' b'' : Bridge w}

/-- The records are those of the completion ring. -/
def Holds (b : Bridge w) : Prop := b.top.completionRing.Holds b.pushed b.left

/-- `b'` is reached from `b` by clock edges, with `host_comp_ready` left alone. -/
structure Advances (b b' : Bridge w) : Prop where
  holds : b.Holds → b'.Holds
  pushed_le : b.pushed <+: b'.pushed
  left_le : b.left.length ≤ b'.left.length
  /-- Nothing leaves the ring while the host is not ready. -/
  kept : b.hostCompReady = false → b'.left = b.left
  ready : b'.hostCompReady = b.hostCompReady

theorem Advances.refl (b : Bridge w) : b.Advances b := ⟨id, List.prefix_rfl, le_rfl, fun _ => rfl, rfl⟩

theorem Advances.trans (h : b.Advances b') (h' : b'.Advances b'') : b.Advances b'' where
  holds hb := h'.holds (h.holds hb)
  pushed_le := h.pushed_le.trans h'.pushed_le
  left_le := h.left_le.trans h'.left_le
  kept hready := by rw [h'.kept (by rw [h.ready, hready]), h.kept hready]
  ready := by rw [h'.ready, h.ready]

theorem tick_advances (b : Bridge w) : b.Advances b.tick where
  holds h := ClockedRing.Holds.step h _ _ _
  pushed_le := List.prefix_append _ _
  left_le := by simp [tick]
  kept hready := by simp [tick, ClockedRing.popped, hready]
  ready := rfl

theorem waitReady_advances (n : ℕ) (b : Bridge w) : b.Advances (waitReady n b) := by
  induction n generalizing b with
  | zero => exact .refl b
  | succ n ih =>
    rw [waitReady]
    split_ifs
    · exact .refl b
    · exact b.tick_advances.trans (ih b.tick)

theorem drive_advances (b : Bridge w) (words : DescWords) (valid pulse : Bool) :
    b.Advances { b with hostDesc := words, hostDescValid := valid, doorbellPulse := pulse } :=
  ⟨id, List.prefix_rfl, le_rfl, fun _ => rfl, rfl⟩

theorem submit_advances (b : Bridge w) : b.Advances b.submit.1 := by
  have hwait := waitReady_advances 16 b
  rw [submit]
  split_ifs
  · exact hwait
  · exact (hwait.trans ((drive_advances _ _ true true).trans (tick_advances _))).trans
      (drive_advances _ _ false false)

theorem submitDecode_advances (b : Bridge w)
    (rolloutId seqLen maxTokens rewardModelId kvArenaId prefixId : BitVec 16)
    (kvOffset deltaOffset : BitVec 32) :
    b.Advances (b.submitDecode rolloutId seqLen maxTokens rewardModelId kvArenaId prefixId kvOffset
      deltaOffset).1 := by
  rw [submitDecode]
  split_ifs
  · exact .refl b
  · exact .refl b
  · exact (drive_advances b _ _ _).trans (submit_advances _)

theorem submitStop_advances (b : Bridge w) (rolloutId : BitVec 16) :
    b.Advances (b.submitStop rolloutId).1 := by
  rw [submitStop]
  split_ifs
  · exact drive_advances b _ _ _
  · exact (drive_advances b _ _ _).trans (submit_advances _)

/-- The oldest entry of the completion ring is the one after those that left, and it is read as it was
pushed. -/
theorem Holds.oldest (h : b.Holds) (hvalid : b.top.hostCompValid = true) :
    b.pushed[b.left.length]? = some (Comp.ofBus b.top.hostComp.packed) := by
  rw [Comp.ofBus_packed]
  exact ClockedRing.Holds.popData h hvalid

/-- The loop makes a clock edge of its own only after a poll found the ring empty, so nothing leaves the
ring but what it returns. -/
theorem waitLoop_spec (n : ℕ) (h : b.Holds) (hready : b.hostCompReady = true) :
    (waitLoop n b).1.Holds ∧ (waitLoop n b).1.left = b.left ++ (waitLoop n b).2.toList := by
  induction n generalizing b with
  | zero =>
    rw [waitLoop]
    exact ⟨h, by simp [setCompletionReady]⟩
  | succ n ih =>
    have htick := b.tick_advances
    have hleft : b.tick.left = b.left ++ b.top.completionRing.popped true := by rw [tick, hready]
    cases hvalid : b.top.hostCompValid with
    | true =>
      have hpoll : b.pollCompletion true = (b.tick, some b.top.hostComp) := by
        simp [pollCompletion, hvalid, hready, Comp.ofBus_packed]
      have hpop : b.top.completionRing.popped true = [b.top.hostComp] := by
        have hpop : b.top.completionRing.popValid = true := hvalid
        simp [ClockedRing.popped, hpop, Engine.hostComp]
      simp only [waitLoop, hpoll]
      refine ⟨htick.holds h, ?_⟩
      simp [setCompletionReady, hleft, hpop]
    | false =>
      have hpoll : b.pollCompletion true = (b, none) := by simp [pollCompletion, hvalid]
      have hpop : b.top.completionRing.popped true = [] := by
        have hpop : b.top.completionRing.popValid = false := hvalid
        simp [ClockedRing.popped, hpop]
      rw [hpop, List.append_nil] at hleft
      have hrec := ih (htick.holds h) (htick.ready.trans hready)
      rw [hleft] at hrec
      simpa only [waitLoop, hpoll] using hrec

/-- **Waiting loses nothing.** What leaves the ring while the host waits is what the wait returns. -/
theorem waitForCompletion_spec (h : b.Holds) (timeoutCycles : ℕ) :
    (b.waitForCompletion timeoutCycles).1.Holds ∧
      (b.waitForCompletion timeoutCycles).1.left =
        b.left ++ (b.waitForCompletion timeoutCycles).2.toList :=
  waitLoop_spec (b := b.setCompletionReady true) timeoutCycles h rfl

/-- What one call does to the completion ring: a poll that returns a completion returns the oldest entry,
which leaves in the poll exactly if the host is ready, and entries that leave in another call leave while
the host is ready. -/
structure Accounts (b b' : Bridge w) (e : Event) : Prop where
  holds : b'.Holds
  pushed_le : b.pushed <+: b'.pushed
  le : e.before ≤ e.after
  polled : ∀ c, e.reply = .polled (some c) →
    b.pushed[e.before]? = some c ∧ e.after = e.before + if e.ready then 1 else 0
  split : e.taken ++ e.dropped = List.range' e.before (e.after - e.before)
  ready : e.dropped ≠ [] → e.ready = true

theorem accounts_peek (h : b.Holds) {call : BridgeCall} {reply : BridgeReply} {ready : Bool}
    (hcall : ∃ out, call = .pollCompletion out)
    (hreply : reply = .polled none ∨
      ∃ c, reply = .polled (some c) ∧ ready = false ∧ b.pushed[b.left.length]? = some c) :
    b.Accounts b ⟨call, reply, ready, b.left.length, b.left.length⟩ := by
  obtain ⟨out, rfl⟩ := hcall
  obtain rfl | ⟨c, rfl, rfl, hc⟩ := hreply
  · exact ⟨h, List.prefix_rfl, le_rfl, by simp, by simp [Event.taken, Event.returned, Event.dropped],
      by simp [Event.dropped]⟩
  · exact ⟨h, List.prefix_rfl, le_rfl, by simpa using hc,
      by simp [Event.taken, Event.dropped], by simp [Event.dropped]⟩

/-- A poll with the host ready: the entry it returns leaves at its clock edge. -/
theorem accounts_take (h : b.Holds) {out : Bool} {c : Comp} (hvalid : b.top.hostCompValid = true)
    (hready : b.hostCompReady = true) (hc : b.pushed[b.left.length]? = some c) :
    b.Accounts b.tick ⟨.pollCompletion out, .polled (some c), true, b.left.length, b.tick.left.length⟩ := by
  have hlen : b.tick.left.length = b.left.length + 1 := by
    have hpop : b.top.completionRing.popValid = true := hvalid
    simp [tick, ClockedRing.popped, hpop, hready]
  have hadv := b.tick_advances
  refine ⟨hadv.holds h, hadv.pushed_le, hadv.left_le, ?_, ?_, by simp [Event.dropped]⟩
  · intro c' hc'
    obtain rfl : c = c' := by simpa using hc'
    exact ⟨hc, by simpa using hlen⟩
  · simp [Event.taken, Event.returned, Event.dropped, hlen]

theorem accounts_of_advances (h : b.Holds) (hadv : b.Advances b') {call : BridgeCall} {reply : BridgeReply}
    (hcall : ∀ out, call ≠ .pollCompletion out) (hreply : ∀ found, reply ≠ .polled found) :
    b.Accounts b' ⟨call, reply, b.hostCompReady, b.left.length, b'.left.length⟩ := by
  have htaken : Event.taken ⟨call, reply, b.hostCompReady, b.left.length, b'.left.length⟩ = [] := by
    cases reply with
    | polled found => exact absurd rfl (hreply found)
    | _ => simp [Event.taken, Event.returned]
  have hdropped : Event.dropped ⟨call, reply, b.hostCompReady, b.left.length, b'.left.length⟩ =
      List.range' b.left.length (b'.left.length - b.left.length) := by
    cases call with
    | pollCompletion out => exact absurd rfl (hcall out)
    | _ => rfl
  refine ⟨hadv.holds h, hadv.pushed_le, hadv.left_le, fun c hc => absurd hc (hreply _), ?_, ?_⟩
  · rw [htaken, hdropped, List.nil_append]
  · intro hne
    by_contra hready
    rw [hdropped, hadv.kept (by simpa using hready)] at hne
    simp at hne

/-- **One call.** -/
theorem exec_accounts (h : b.Holds) (call : BridgeCall) :
    b.Accounts (b.exec call).1 (b.event call) := by
  cases call with
  | submitDecode =>
    exact accounts_of_advances h (submitDecode_advances b _ _ _ _ _ _ _ _) (by simp)
      (by simp [exec])
  | submitStop rolloutId =>
    exact accounts_of_advances h (submitStop_advances b rolloutId) (by simp) (by simp [exec])
  | tick => exact accounts_of_advances h (tick_advances b) (by simp) (by simp [exec])
  | setCompletionReady ready =>
    -- the input is driven at once, but no clock edge sees it in this call
    have hacc : b.Accounts b
        ⟨.setCompletionReady ready, .done, b.hostCompReady, b.left.length, b.left.length⟩ :=
      accounts_of_advances h (.refl b) (by simp) (by simp)
    exact ⟨hacc.holds, hacc.pushed_le, hacc.le, hacc.polled, hacc.split, hacc.ready⟩
  | pollCompletion out =>
    by_cases hfound : (!b.top.hostCompValid || !out) = true
    · have hpoll : b.pollCompletion out = (b, none) := by rw [pollCompletion, if_pos hfound]
      simp only [event, exec, hpoll]
      exact accounts_peek h ⟨out, rfl⟩ (.inl rfl)
    · obtain ⟨hvalid, -⟩ : b.top.hostCompValid = true ∧ out = true := by simpa using hfound
      have hpoll : b.pollCompletion out = (if b.hostCompReady then b.tick else b,
          some (Comp.ofBus b.top.hostComp.packed)) := by rw [pollCompletion, if_neg hfound]
      have hc := h.oldest hvalid
      cases hready : b.hostCompReady with
      | true =>
        simp only [event, exec, hpoll, hready]
        exact accounts_take h hvalid hready hc
      | false =>
        simp only [event, exec, hpoll, hready]
        exact accounts_peek h ⟨out, rfl⟩ (.inr ⟨_, rfl, rfl, hc⟩)

/-! ### Runs -/

theorem range'_sub_append {k l m : ℕ} (hkl : k ≤ l) (hlm : l ≤ m) :
    List.range' k (l - k) ++ List.range' l (m - l) = List.range' k (m - k) := by
  have happend := List.range'_append_1 (s := k) (m := l - k) (n := m - l)
  rwa [Nat.add_sub_cancel' hkl, show l - k + (m - l) = m - k by omega] at happend

/-- **Every sequence of calls.** The entries taken by polls and those dropped by other calls are together
the entries that left, each once. -/
theorem run_accounts (h : b.Holds) (calls : List BridgeCall) :
    (b.run calls).Holds ∧ b.pushed <+: (b.run calls).pushed ∧
      b.left.length ≤ (b.run calls).left.length ∧
      (∀ e ∈ b.events calls, ∀ c, e.reply = .polled (some c) →
        (b.run calls).pushed[e.before]? = some c ∧ e.after = e.before + if e.ready then 1 else 0) ∧
      ((b.events calls).flatMap Event.taken ++ (b.events calls).flatMap Event.dropped).Perm
        (List.range' b.left.length ((b.run calls).left.length - b.left.length)) ∧
      ∀ e ∈ b.events calls, e.dropped ≠ [] → e.ready = true := by
  induction calls generalizing b with
  | nil => exact ⟨h, List.prefix_rfl, le_rfl, by simp [events], by simp [events, run], by simp [events]⟩
  | cons call calls ih =>
    have hacc := exec_accounts h call
    obtain ⟨hholds, hpushed, hle, hpolled, hperm, hready⟩ := ih hacc.holds
    have hstep : b.run (call :: calls) = (b.exec call).1.run calls := rfl
    simp only [hstep, events, List.flatMap_cons, List.forall_mem_cons]
    have hle' : b.left.length ≤ (b.exec call).1.left.length := hacc.le
    refine ⟨hholds, hacc.pushed_le.trans hpushed, hle'.trans hle, ⟨?_, hpolled⟩, ?_, hacc.ready, hready⟩
    · intro c hc
      obtain ⟨hold, hafter⟩ := hacc.polled c hc
      obtain ⟨hlt, hval⟩ := List.getElem?_eq_some_iff.mp hold
      refine ⟨?_, hafter⟩
      rw [← hval]
      exact List.prefix_iff_getElem?.mp (hacc.pushed_le.trans hpushed) _ hlt
    · have hsplit : (b.event call).taken ++ (b.event call).dropped =
          List.range' b.left.length ((b.exec call).1.left.length - b.left.length) := hacc.split
      rw [List.append_assoc]
      refine (List.Perm.append_left _ (List.perm_append_comm_assoc _ _ _)).trans ?_
      rw [← List.append_assoc, hsplit, ← range'_sub_append hle' hle]
      exact hperm.append_left _

end Bridge

/-- **What the host gets of the completions.** For every ring size, whatever the slots held at reset, and
every sequence of calls: the completions leave the completion ring in the order of the pushes; a poll that
returns a completion returns the oldest entry, which leaves in this poll if the host is ready and stays if
it is not; every entry that left was returned by one poll made with the host ready, or left in a call that
is no poll, and not both; and entries leave in such a call only while the host is ready. -/
theorem bridge_accounts (w : ℕ) (descMem : Fin (2 ^ w) → Desc) (compMem : Fin (2 ^ w) → Comp) (n : ℕ)
    (calls : List BridgeCall) :
    let b := (Bridge.reset descMem compMem n).run calls
    let log := (Bridge.reset descMem compMem n).events calls
    b.top.completionRing.Holds b.pushed b.left ∧ b.left <+: b.pushed ∧
      (∀ e ∈ log, ∀ c, e.reply = .polled (some c) →
        b.pushed[e.before]? = some c ∧ e.after = e.before + if e.ready then 1 else 0) ∧
      (log.flatMap Event.taken ++ log.flatMap Event.dropped).Perm (List.range b.left.length) ∧
      ∀ e ∈ log, e.dropped ≠ [] → e.ready = true := by
  intro b log
  have hreset : (Bridge.reset descMem compMem n).Holds :=
    (Bridge.tick_advances _).holds (ClockedRing.reset_holds compMem)
  have hleft : (Bridge.reset descMem compMem n).left = [] := (Bridge.tick_advances _).kept rfl
  obtain ⟨hholds, -, -, hpolled, hperm, hready⟩ := Bridge.run_accounts hreset calls
  rw [hleft] at hperm
  refine ⟨hholds, hholds.taken_le, hpolled, ?_, hready⟩
  simpa [List.range_eq_range'] using hperm

/-- A poll with the host not ready returns an entry that a later poll returns again, and an entry is lost
at a clock edge of `tick` with the host ready. -/
theorem bridge_repeats_and_loses :
    let start : Bridge 4 := Bridge.reset (fun _ => default) (fun _ => default) 4
    let peek : List BridgeCall :=
      [.submitStop 7, .tick, .tick, .pollCompletion true, .pollCompletion true]
    let lose : List BridgeCall := [.submitStop 7, .tick, .tick, .setCompletionReady true, .tick]
    ((start.events peek).flatMap Event.returned = [0, 0] ∧
      ¬ ((start.events peek).flatMap Event.returned).Nodup) ∧
      (start.run lose).left = [⟨7, compStatusStopped, 0, 0⟩] ∧
      (start.events lose).flatMap Event.returned = [] := by
  decide

end Rtl

end RolloutRuntime
