import Mathlib.Data.Rat.Defs
import RolloutRuntime.RingBuffer.Spsc

/-!
# The ring buffers of the runtime

The runtime moves work between the host and the device through seven ring buffers: the command ring,
the completion ring, the request and done rings of the device scheduler, the reward ring, the rings
of rollout ids between the pipeline stages, and the descriptor rings of the hardware fast path. All
have free-running 32-bit indices and a power-of-two number of slots. Their functions are the
programs of `RolloutRuntime.RingBuffer.Spsc` at the order of loads, the tests and the sizes of the
source.

Six of the rings test for emptiness by an ordered comparison of the indices and for room by the
wrapping difference of the ring size and the occupancy; the fast path ring tests for equality and
compares the occupancy with the ring size.

Floating point parameters of a request are only copied and are kept as their bit patterns; the reward
of a finished rollout is the quotient before rounding.

## Main definitions

* `Descriptor`, `Completion`, `RolloutRequest`, `RolloutDone`, `RewardDesc`, `HwDesc`: the records.
* `ringAcquire`, `ringCommit`, `ringConsume`, `compRingPush`, `compRingPoll`, `reqRingAcquire`,
  `reqRingCommit`, `reqRingConsume`, `doneRingPush`, `doneRingPop`, `rewardPush`, `rewardPop`,
  `idRingPush`, `idRingPop`, `hwRingPush`, `hwRingPop`.

## Main results

* `roomSound_spaceTest`, `roomSound_hwRing`, `emptySound_orderedEmpty`, `emptySound_eqEmpty`.
* `spaceTest_iff`, `orderedEmpty_iff`: the tests on a ring in order.

## References

* `include/ring.h`, `include/completion.h`, `include/request.h`, `include/reward.h`, `src/reward.c`,
  `src/pipeline.c` lines 5–34, `include/hw_desc.h`, `include/hw_ring.h`.
-/

namespace RolloutRuntime

open Concurrency RingBuffer

/-! ### Records -/

/-- A decode step handed to the device (`include/descriptor.h`). -/
structure Descriptor where
  seqId : BitVec 64
  kvBlockOffset : BitVec 32
  numKvBlocks : BitVec 16
  attentionFlags : BitVec 8
  pad : BitVec 8
  outputTokenOffset : BitVec 32
  rewardCookie : BitVec 64
  batchSize : BitVec 16
  batchIndex : BitVec 16
  deriving DecidableEq, Repr, Inhabited

/-- A finished decode step handed back to the host (`include/completion.h`). -/
structure Completion where
  seqId : BitVec 64
  tokenId : BitVec 32
  kvBlockOffset : BitVec 32
  rewardCookie : BitVec 64
  cyclesTaken : BitVec 64
  deriving DecidableEq, Repr, Inhabited

/-- A rollout requested from the device scheduler (`include/request.h`). -/
structure RolloutRequest where
  requestId : BitVec 64
  maxTokens : BitVec 32
  kvBlocks : BitVec 32
  temperature : BitVec 32
  topK : BitVec 16
  topP : BitVec 32
  rngSeed : BitVec 64
  deriving DecidableEq, Repr, Inhabited

/-- The notification of a finished rollout (`include/request.h`). -/
structure RolloutDone where
  requestId : BitVec 64
  rolloutId : BitVec 32
  tokensGenerated : BitVec 32
  reward : ℚ
  status : BitVec 32
  deriving DecidableEq, Inhabited

/-- A span of tokens to be scored (`include/reward.h`). -/
structure RewardDesc where
  rolloutId : BitVec 32
  tokenStart : BitVec 32
  tokenCount : BitVec 32
  rewardModelId : BitVec 32
  reward : BitVec 32
  flags : BitVec 32
  deriving DecidableEq, Repr, Inhabited

/-- A descriptor of the hardware fast path (`include/hw_desc.h`). -/
structure HwDesc where
  opcode : BitVec 16
  flags : BitVec 16
  rolloutId : BitVec 32
  kvArenaId : BitVec 32
  prefixId : BitVec 32
  kvOffset : BitVec 64
  deltaOffset : BitVec 64
  seqLen : BitVec 32
  maxTokens : BitVec 32
  rewardModelId : BitVec 32
  reserved0 : BitVec 32
  userData : BitVec 64
  checksumOrCookie : BitVec 64
  deriving DecidableEq, Repr, Inhabited

/-! ### The tests -/

/-- No room for `n` elements in a ring of `2 ^ k` slots: `SIZE - (prod - cons) < n`. -/
def spaceTest (k : ℕ) (prod cons n : BitVec 32) : Bool :=
  BitVec.ofNat 32 (2 ^ k) - (prod - cons) < n

/-- The ring is reported empty: `cons >= prod`. -/
def orderedEmpty (cons prod : BitVec 32) : Bool := cons ≥ prod

/-- The ring is reported empty: `cons == prod`. -/
def eqEmpty (cons prod : BitVec 32) : Bool := cons == prod

/-- A wrapping difference that fits in the ring leaves no wrap in the free space. -/
theorem roomSound_spaceTest {k : ℕ} (hk : k < 32) (ownFirst counts : Bool) (n : BitVec 32) :
    RoomSound k ⟨ownFirst, spaceTest k, counts⟩ n := by
  intro p c hfit hroom
  have hpow := Nat.pow_lt_pow_right (a := 2) (by decide) hk
  have hsize : (BitVec.ofNat 32 (2 ^ k)).toNat = 2 ^ k := by
    rw [BitVec.toNat_ofNat, Nat.mod_eq_of_lt hpow]
  simp only [spaceTest, decide_eq_false_iff_not, BitVec.not_lt] at hroom
  have hle : n.toNat ≤ (BitVec.ofNat 32 (2 ^ k) - (p - c)).toNat := hroom
  rw [BitVec.toNat_sub_of_le (by rw [BitVec.le_def, hsize]; exact hfit), hsize] at hle
  omega

/-- The room test of a ring in order compares its contents with its size. -/
theorem spaceTest_iff {k : ℕ} {α : Type} {r : Ring 32 k α} (hk : k < 32) (hr : r.Inv) :
    spaceTest k r.prod r.cons 1 = true ↔ r.taken.length + 2 ^ k ≤ r.published.length := by
  have hpow := Nat.pow_lt_pow_right (a := 2) (by decide) hk
  have hocc : (r.prod - r.cons).toNat = r.published.length - r.taken.length :=
    Contents.occupancy hr hk
  have hbound := Contents.bound hr
  have hlen := Contents.length_le hr
  have hsize : (BitVec.ofNat 32 (2 ^ k)).toNat = 2 ^ k := by
    rw [BitVec.toNat_ofNat, Nat.mod_eq_of_lt hpow]
  have hone : (1 : BitVec 32).toNat = 1 := rfl
  rw [spaceTest, decide_eq_true_iff, BitVec.lt_def,
    BitVec.toNat_sub_of_le (by rw [BitVec.le_def]; omega), hsize, hone, hocc]
  omega

theorem emptySound_orderedEmpty : EmptySound orderedEmpty := by
  rintro c p h rfl
  simp [orderedEmpty] at h

/-- As long as fewer than `2 ^ 32` elements have been published, the ordered test finds every element. -/
theorem orderedEmpty_iff {k : ℕ} {α : Type} {r : Ring 32 k α} (hr : r.Inv)
    (hlt : r.published.length < 2 ^ 32) :
    orderedEmpty r.cons r.prod = true ↔ r.published.length ≤ r.taken.length := by
  have hle := Contents.length_le hr
  rw [orderedEmpty, decide_eq_true_iff, ge_iff_le, BitVec.le_def, hr.prod_eq, hr.cons_eq,
    BitVec.toNat_ofNat, BitVec.toNat_ofNat, Nat.mod_eq_of_lt hlt, Nat.mod_eq_of_lt (by omega)]

theorem emptySound_eqEmpty : EmptySound eqEmpty := by
  rintro c p h rfl
  simp [eqEmpty] at h

/-! ### The rings -/

/-- `CommandRing`: 4096 descriptors. -/
abbrev CommandRing := Ring 32 12 Descriptor

def ringProducer : Producer 32 := ⟨false, spaceTest 12, false⟩

def ringAcquire (n : BitVec 32) : Prog (Op 32 Descriptor) CommandRing (Option (BitVec 32)) :=
  acquire ringProducer n

def ringCommit (n : BitVec 32) (ds : List Descriptor) : Prog (Op 32 Descriptor) CommandRing Unit :=
  commit n ds

def ringConsume : Prog (Op 32 Descriptor) CommandRing (Option Descriptor) := consume orderedEmpty

/-- `CompletionRing`: 4096 completions, refused pushes counted. -/
abbrev CompletionRing := Ring 32 12 Completion

def compRingPush (c : Completion) : Prog (Op 32 Completion) CompletionRing Bool :=
  push ⟨false, spaceTest 12, true⟩ c

def compRingPoll : Prog (Op 32 Completion) CompletionRing (Option Completion) :=
  consume orderedEmpty

/-- `RequestRing`: 1024 requests. -/
abbrev RequestRing := Ring 32 10 RolloutRequest

def reqRingProducer : Producer 32 := ⟨false, spaceTest 10, false⟩

def reqRingAcquire : Prog (Op 32 RolloutRequest) RequestRing (Option (BitVec 32)) :=
  acquire reqRingProducer 1

def reqRingCommit (r : RolloutRequest) : Prog (Op 32 RolloutRequest) RequestRing Unit :=
  commit 1 [r]

def reqRingConsume : Prog (Op 32 RolloutRequest) RequestRing (Option RolloutRequest) :=
  consume orderedEmpty

/-- `DoneRing`: 1024 notifications, refused pushes counted. -/
abbrev DoneRing := Ring 32 10 RolloutDone

def doneRingPush (d : RolloutDone) : Prog (Op 32 RolloutDone) DoneRing Bool :=
  push ⟨false, spaceTest 10, true⟩ d

def doneRingPop : Prog (Op 32 RolloutDone) DoneRing (Option RolloutDone) := consume orderedEmpty

/-- `RewardRing`: 1024 spans. Its producer index is called `head` in the source. -/
abbrev RewardRing := Ring 32 10 RewardDesc

def rewardPush (d : RewardDesc) : Prog (Op 32 RewardDesc) RewardRing Bool :=
  push ⟨true, spaceTest 10, false⟩ d

def rewardPop : Prog (Op 32 RewardDesc) RewardRing (Option RewardDesc) := consume orderedEmpty

/-- `IdRing`: 4096 rollout ids. Its producer index is called `head` in the source. -/
abbrev IdRing := Ring 32 12 (BitVec 32)

def idRingPush (id : BitVec 32) : Prog (Op 32 (BitVec 32)) IdRing Bool :=
  push ⟨true, spaceTest 12, false⟩ id

def idRingPop : Prog (Op 32 (BitVec 32)) IdRing (Option (BitVec 32)) := consume orderedEmpty

/-- `hw_ring_t`: 65536 descriptors. -/
abbrev HwRing := Ring 32 16 HwDesc

/-- `(tail - head) >= HW_RING_SIZE`. -/
def hwFullTest (prod cons _n : BitVec 32) : Bool := prod - cons ≥ BitVec.ofNat 32 (2 ^ 16)

def hwRingProducer : Producer 32 := ⟨true, hwFullTest, false⟩

def hwRingPush (d : HwDesc) : Prog (Op 32 HwDesc) HwRing Bool := push hwRingProducer d

def hwRingPop : Prog (Op 32 HwDesc) HwRing (Option HwDesc) := consume eqEmpty

/-- The full test of the fast path ring is sound for one element. -/
theorem roomSound_hwRing : RoomSound 16 hwRingProducer 1 := by
  intro p c _ h
  simp only [hwRingProducer, hwFullTest, ge_iff_le, decide_eq_false_iff_not, BitVec.not_le] at h
  have hlt : (p - c).toNat < (BitVec.ofNat 32 (2 ^ 16)).toNat := h
  have hsize : (BitVec.ofNat 32 (2 ^ 16)).toNat = 2 ^ 16 := rfl
  have hone : (1 : BitVec 32).toNat = 1 := rfl
  omega

end RolloutRuntime
