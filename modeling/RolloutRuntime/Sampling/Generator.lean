import RolloutRuntime.Sampling.Token
import RolloutRuntime.Scheduler.Worker
import RolloutRuntime.Words.Invertible

/-!
# The generator of random numbers

The generator has a state of four words. One call returns a word computed from the second of them and
combines the four in place; the combination can be undone, so it leads no state but the zero state to the
zero state, where it would stay for ever.

A seed is expanded to a state in two places, by `sample_init` and by the scheduler for the slot of a request
it admits. The third word is a rotation of the seed in the one and a shift in the other. These differ for a
seed of more than 47 bits, and then so do the numbers from the second one on.

## Main definitions

* `Sampling.nextState`: the state after one call.
* `Sampling.draw`: the numbers drawn from a state.

## Main results

* `Sampling.nextState_injective`: a call can be undone.
* `Sampling.generator_never_degenerates`: the zero state is never reached from a seed.
* `Sampling.admitted_stream_iff`: when the two expansions of a seed agree.

## References

* `cu/sample.cu` lines 6–36, `cu/gpu_scheduler.cu` lines 42–54.
-/

namespace RolloutRuntime

open Words

namespace Sampling

/-- The state after one call of `xoshiro256_next`. -/
def nextState (s : RngState) : RngState := (xoshiro256Next s).2

/-- The result of call number `n` from the state `s` on. -/
def draw (s : RngState) (n : ℕ) : BitVec 64 := (xoshiro256Next (nextState^[n] s)).1

section Step

variable (s : RngState)

/-! ### One call -/

theorem nextState_zero : nextState s 0 = s 0 ^^^ (s 3 ^^^ s 1) := rfl

theorem nextState_one : nextState s 1 = s 1 ^^^ (s 2 ^^^ s 0) := rfl

theorem nextState_two : nextState s 2 = s 2 ^^^ s 0 ^^^ s 1 <<< 17 := rfl

theorem nextState_three : nextState s 3 = rotl (s 3 ^^^ s 1) 45 := rfl

/-- The shift of the second word is what is left of two words of the next state. -/
theorem nextState_one_xor_two : nextState s 1 ^^^ nextState s 2 = s 1 ^^^ s 1 <<< 17 := by
  rw [nextState_one, nextState_two, BitVec.xor_assoc, ← BitVec.xor_assoc (s 2 ^^^ s 0), BitVec.xor_self,
    BitVec.zero_xor]

end Step

theorem rotl_eq_rotateLeft {k : ℕ} (hk : k < 64) (x : BitVec 64) : rotl x k = x.rotateLeft k := by
  rw [BitVec.rotateLeft_def, Nat.mod_eq_of_lt hk]
  rfl

theorem rotl_injective {k : ℕ} (hk : k < 64) : Function.Injective fun x => rotl x k := by
  simp only [rotl_eq_rotateLeft hk]
  exact rotateLeft_injective hk

/-- **A call can be undone.** -/
theorem nextState_injective : Function.Injective nextState := by
  intro s t h
  have hword (i : Fin 4) : nextState s i = nextState t i := congrFun h i
  have h31 : s 3 ^^^ s 1 = t 3 ^^^ t 1 := by
    have h3 := hword 3
    rw [nextState_three, nextState_three] at h3
    exact rotl_injective (by decide) h3
  have h0 : s 0 = t 0 := by
    have h0 := hword 0
    rw [nextState_zero, nextState_zero, h31] at h0
    exact (BitVec.xor_left_inj _).mp h0
  have h1 : s 1 = t 1 := by
    refine xor_shiftLeft_injective (w := 64) (k := 17) (by decide) ?_
    dsimp only
    rw [← nextState_one_xor_two, ← nextState_one_xor_two, hword 1, hword 2]
  have h2 : s 2 = t 2 := by
    have h1' := hword 1
    rw [nextState_one, nextState_one, h1, h0, BitVec.xor_right_inj] at h1'
    exact (BitVec.xor_left_inj _).mp h1'
  have h3 : s 3 = t 3 := by
    rw [h1] at h31
    exact (BitVec.xor_left_inj _).mp h31
  funext i
  match i with
  | 0 => exact h0
  | 1 => exact h1
  | 2 => exact h2
  | 3 => exact h3

theorem nextState_zeroState : nextState 0 = 0 := by decide

theorem nextState_eq_zero_iff (s : RngState) : nextState s = 0 ↔ s = 0 := by
  rw [← nextState_zeroState, nextState_injective.eq_iff, nextState_zeroState]

/-- A seed and its complement are not both 0. -/
theorem sampleInit_ne_zero {K : Type} (seed : BitVec 64) (temp : K) (topK : BitVec 16) (topP : K) :
    (sampleInit seed temp topK topP).rngState ≠ 0 := by
  intro h
  have hseed : seed = 0 := congrFun h 0
  have hcompl : ~~~seed = 0 := congrFun h 3
  rw [hseed] at hcompl
  exact absurd hcompl (by decide)

/-- The generator never degenerates: `xoshiro256_next` is injective on the states and leads the zero state
alone to the zero state, and from `sample_init` with any seed no number of calls leads there. -/
theorem generator_never_degenerates :
    Function.Injective (fun s : RngState => (xoshiro256Next s).2) ∧
      (∀ s : RngState, (xoshiro256Next s).2 = 0 ↔ s = 0) ∧
      ∀ (K : Type) (seed : BitVec 64) (temp : K) (topK : BitVec 16) (topP : K) (n : ℕ),
        (fun s : RngState => (xoshiro256Next s).2)^[n] (sampleInit seed temp topK topP).rngState ≠ 0 := by
  refine ⟨nextState_injective, nextState_eq_zero_iff, fun K seed temp topK topP n => ?_⟩
  induction n with
  | zero => exact sampleInit_ne_zero seed temp topK topP
  | succ n ih =>
    rw [Function.iterate_succ_apply']
    exact fun h => ih ((nextState_eq_zero_iff _).mp h)

/-! ### The two expansions of a seed -/

/-- A rotation by 17 is a shift exactly if the 17 bits that it brings round are 0. -/
theorem shiftLeft_eq_rotl_iff (x : BitVec 64) : x <<< 17 = rotl x 17 ↔ x.toNat < 2 ^ 47 := by
  have hzero : x >>> 47 = 0 ↔ x.toNat < 2 ^ 47 := by
    rw [← BitVec.toNat_inj, BitVec.toNat_ushiftRight, Nat.shiftRight_eq_div_pow]
    exact Nat.div_eq_zero_iff_lt (by decide)
  rw [← hzero]
  constructor
  · intro h
    refine BitVec.eq_of_getLsbD_eq fun i hi => ?_
    have hbit : (x <<< 17).getLsbD i = (x <<< 17 ||| x >>> 47).getLsbD i := congrArg (BitVec.getLsbD · i) h
    rw [BitVec.getLsbD_or, BitVec.getLsbD_shiftLeft] at hbit
    rcases Nat.lt_or_ge i 17 with hlow | hhigh
    · simpa [hlow] using hbit.symm
    · rw [BitVec.getLsbD_ushiftRight, BitVec.getLsbD_of_ge _ _ (by omega)]
      exact BitVec.getLsbD_zero.symm
  · intro h
    change x <<< 17 = x <<< 17 ||| x >>> 47
    rw [h]
    exact (BitVec.or_zero).symm

theorem output_injective : Function.Injective fun x : BitVec 64 => rotl (x * 5) 7 * 9 := by
  have hfive : (5 : BitVec 64) * 0xcccccccccccccccd = 1 := by decide
  have hnine : (9 : BitVec 64) * 0x8e38e38e38e38e39 = 1 := by decide
  exact (mul_injective hnine).comp ((rotl_injective (k := 7) (by decide)).comp (mul_injective hfive))

theorem draw_one (s : RngState) : draw s 1 = rotl ((s 1 ^^^ (s 2 ^^^ s 0)) * 5) 7 * 9 := rfl

open Scheduler in
theorem admitRequest_rngState {st st' : GpuRolloutState} {i : Slot} (h : findFreeSlot st = some (i, st'))
    (req : RolloutRequest) : ((admitRequest st req).slots i).rngState = seedState req.rngSeed := by
  rw [admitRequest, h]
  exact congrArg GpuRolloutSlot.rngState (st'.setSlot_slots_self i (admittedSlot req))

open Scheduler in
/-- The expansions agree in all words but the third. -/
theorem seedState_eq_sampleInit_iff {K : Type} (seed : BitVec 64) (temp : K) (topK : BitVec 16) (topP : K) :
    seedState seed = (sampleInit seed temp topK topP).rngState ↔ seed.toNat < 2 ^ 47 := by
  rw [← shiftLeft_eq_rotl_iff]
  constructor
  · intro h
    exact (BitVec.xor_left_inj _).mp (congrFun h 2)
  · intro h
    funext i
    match i with
    | 0 => rfl
    | 1 => rfl
    | 2 => exact congrArg (· ^^^ 0x3c6ef372fe94f82a) h
    | 3 => rfl

open Scheduler in
/-- When a seed means the same stream. For every request that is admitted to a slot: the state stored in the
slot is the one that `sample_init` makes of the seed, and all numbers drawn from the two are equal, exactly
if the seed has no more than 47 bits; for any other seed the second numbers differ already. -/
theorem admitted_stream_iff (req : RolloutRequest) (st st' : GpuRolloutState) (i : Slot)
    (h : findFreeSlot st = some (i, st')) (K : Type) (temp : K) (topK : BitVec 16) (topP : K) :
    let admitted := ((admitRequest st req).slots i).rngState
    let sampled := (sampleInit req.rngSeed temp topK topP).rngState
    ((admitted = sampled ∧ ∀ n, draw admitted n = draw sampled n) ↔ req.rngSeed.toNat < 2 ^ 47) ∧
      (¬ req.rngSeed.toNat < 2 ^ 47 → draw admitted 1 ≠ draw sampled 1) := by
  intro admitted sampled
  have hiff : admitted = sampled ↔ req.rngSeed.toNat < 2 ^ 47 := by
    rw [← seedState_eq_sampleInit_iff req.rngSeed temp topK topP, ← admitRequest_rngState h req]
  refine ⟨⟨fun hsame => hiff.mp hsame.1, fun hseed => ?_⟩, fun hseed hdraw => ?_⟩
  · have hsame := hiff.mpr hseed
    refine ⟨hsame, fun n => ?_⟩
    rw [hsame]
  · rw [draw_one, draw_one] at hdraw
    have hword := output_injective hdraw
    have hadmitted : admitted = seedState req.rngSeed := admitRequest_rngState h req
    rw [hadmitted] at hword
    have hthird := (BitVec.xor_left_inj _).mp ((BitVec.xor_right_inj _).mp hword)
    exact hseed ((shiftLeft_eq_rotl_iff _).mp ((BitVec.xor_left_inj _).mp hthird))

section Seeds

open Scheduler

theorem findFreeSlot_zeroed :
    findFreeSlot .zeroed =
      some (0, { GpuRolloutState.zeroed with bitmap := Bitmap.setBit GpuRolloutState.zeroed.bitmap 0 }) := by
  have hbit : Bitmap.lowestBit (Bitmap.compl GpuRolloutState.zeroed.bitmap) = some 0 :=
    Bitmap.lowestBit_eq_some_iff.mpr ⟨by decide, fun j hj => absurd hj (Fin.not_lt_zero j)⟩
  rw [findFreeSlot, hbit]
  rfl

/-- A request of seed 42 has the stream of `sample_init`. -/
theorem admitted_stream_small_seed :
    let req : RolloutRequest := { (default : RolloutRequest) with rngSeed := 42 }
    let admitted := ((admitRequest .zeroed req).slots 0).rngState
    let sampled := (sampleInit (K := ℚ) 42 1 50 1).rngState
    (∃ st', findFreeSlot .zeroed = some (0, st')) ∧
      admitted = sampled ∧ ∀ n, draw admitted n = draw sampled n := by
  intro req admitted sampled
  have h := admitted_stream_iff req .zeroed _ 0 findFreeSlot_zeroed ℚ 1 50 1
  exact ⟨⟨_, findFreeSlot_zeroed⟩, h.1.mpr (by decide)⟩

/-- A request of seed `2 ^ 47` has another state than that of `sample_init`, and another second number. -/
theorem admitted_stream_large_seed :
    let req : RolloutRequest := { (default : RolloutRequest) with rngSeed := 0x800000000000 }
    let admitted := ((admitRequest .zeroed req).slots 0).rngState
    let sampled := (sampleInit (K := ℚ) 0x800000000000 1 50 1).rngState
    (∃ st', findFreeSlot .zeroed = some (0, st')) ∧ admitted ≠ sampled ∧
      draw admitted 1 ≠ draw sampled 1 := by
  intro req admitted sampled
  have hadmitted : admitted = seedState 0x800000000000 := admitRequest_rngState findFreeSlot_zeroed req
  rw [hadmitted]
  refine ⟨⟨_, findFreeSlot_zeroed⟩, fun h => ?_, ?_⟩
  · exact absurd ((seedState_eq_sampleInit_iff _ 1 50 1).mp h) (by decide)
  · rw [draw_one, draw_one]
    decide

end Seeds

end Sampling

end RolloutRuntime
