import RolloutRuntime.Rtl.Bridge

/-!
# The bit layouts of the buses

The engine has packed records on its buses: the first field sits in the high bits. The bridge works on
the words of a bus, word 0 being the low one, with shifts written by hand. Here the layouts are computed
from the widths of the fields, in the order of the records, and the shifts are compared with them.

A bus of at most 64 bits is one number for the bridge and a wider one is an array of words, so there are
two functions that slice a bus. The one for words has a path for fields that straddle two words, which no
field of a completion takes.

## Main definitions

* `wordsVector`: the bits of an array of words.
* `packedLsb`: where a field of a packed record sits.
* `Rtl.Desc.ofVector`, `Rtl.Comp.ofVector`: the packed records `desc_t` and `completion_t`.
* `Rtl.extractBitsWide`: `extract_bits` of a bus of two words.

## Main results

* `Rtl.Desc.ofVector_wordsVector`: the engine reads the words of the bridge as the packed record.
* `Rtl.extractBitsWide_eq`: the two functions that slice a bus agree.
* `Rtl.bridge_layout`: what the bridge packs and extracts is what the records have.

## References

* `verilator/rtl_bridge.cpp` lines 22–47, 114–147 and 213–228, `rtl/desc_pkg.sv` lines 8–27.
-/

namespace RolloutRuntime

/-! ### Words and packed records -/

/-- The bits of an array of words, word 0 being the low one. -/
def wordsVector {w : ℕ} : {n : ℕ} → (Fin n → BitVec w) → BitVec (w * n)
  | 0, _ => 0#0
  | _ + 1, words => wordsVector (fun i => words i.succ) ++ words 0

theorem extractLsb'_wordsVector {w n : ℕ} (words : Fin n → BitVec w) (i : Fin n) (off len : ℕ)
    (h : off + len ≤ w) :
    (wordsVector words).extractLsb' (w * i + off) len = (words i).extractLsb' off len := by
  induction n with
  | zero => exact i.elim0
  | succ n ih =>
    rw [wordsVector]
    cases i using Fin.cases with
    | zero =>
      rw [Fin.val_zero, Nat.mul_zero, Nat.zero_add]
      exact BitVec.extractLsb'_append_eq_of_add_le h
    | succ i =>
      have hstart : w * (i : ℕ) + off = w * (i.succ : ℕ) + off - w := by
        rw [Fin.val_succ, Nat.mul_succ]
        omega
      have hle : w ≤ w * (i.succ : ℕ) + off := by
        rw [Fin.val_succ, Nat.mul_succ]
        omega
      rw [← ih (fun i => words i.succ) i, hstart]
      exact BitVec.extractLsb'_append_eq_of_le hle

/-- The lowest bit of the `i`-th field of a packed record: the fields after it sit below. -/
def packedLsb (widths : List ℕ) (i : ℕ) : ℕ := (widths.drop (i + 1)).sum

namespace Rtl

/-! ### Descriptors -/

/-- The widths of the fields of `desc_t`. -/
def descWidths : List ℕ := [8, 8, 16, 16, 16, 32, 32, 16, 16, 16, 16]

/-- The packed record `desc_t`. -/
def Desc.ofVector (v : BitVec 192) : Desc where
  opcode := v.extractLsb' (packedLsb descWidths 0) 8
  flags := v.extractLsb' (packedLsb descWidths 1) 8
  rolloutId := v.extractLsb' (packedLsb descWidths 2) 16
  kvArenaId := v.extractLsb' (packedLsb descWidths 3) 16
  prefixId := v.extractLsb' (packedLsb descWidths 4) 16
  kvOffset := v.extractLsb' (packedLsb descWidths 5) 32
  deltaOffset := v.extractLsb' (packedLsb descWidths 6) 32
  seqLen := v.extractLsb' (packedLsb descWidths 7) 16
  maxTokens := v.extractLsb' (packedLsb descWidths 8) 16
  rewardModelId := v.extractLsb' (packedLsb descWidths 9) 16
  reserved := v.extractLsb' (packedLsb descWidths 10) 16

/-- The engine sees the packed record in the six words. -/
theorem Desc.ofVector_wordsVector (words : DescWords) :
    Desc.ofVector (wordsVector words) = Desc.ofWords words := by
  have hfield := extractLsb'_wordsVector words
  have hword (i : Fin 6) : (wordsVector words).extractLsb' (32 * i) 32 = words i := by
    rw [← Nat.add_zero (32 * (i : ℕ)), hfield i 0 32 le_rfl, BitVec.extractLsb'_eq_self]
  rw [Desc.ofVector, Desc.ofWords, Desc.mk.injEq]
  exact ⟨hfield 5 24 8 (by decide), hfield 5 16 8 (by decide), hfield 5 0 16 (by decide),
    hfield 4 16 16 (by decide), hfield 4 0 16 (by decide), hword 3, hword 2,
    hfield 1 16 16 (by decide), hfield 1 0 16 (by decide), hfield 0 16 16 (by decide),
    hfield 0 0 16 (by decide)⟩

/-! ### Completions -/

/-- The widths of the fields of `completion_t`. -/
def compWidths : List ℕ := [16, 8, 16, 16]

/-- The packed record `completion_t`. -/
def Comp.ofVector (v : BitVec 56) : Comp where
  rolloutId := v.extractLsb' (packedLsb compWidths 0) 16
  status := v.extractLsb' (packedLsb compWidths 1) 8
  finalSeqLen := v.extractLsb' (packedLsb compWidths 2) 16
  rewardId := v.extractLsb' (packedLsb compWidths 3) 16

/-- `poll_completion` reads the fields of the packed record. -/
theorem Comp.ofBus_setWidth (v : BitVec 56) : Comp.ofBus (v.setWidth 64) = Comp.ofVector v := by
  have hfield := extractBits_bus v
  rw [Comp.ofBus, Comp.ofVector, Comp.mk.injEq]
  exact ⟨hfield 40 16 (by decide) (by decide), hfield 32 8 (by decide) (by decide),
    hfield 16 16 (by decide) (by decide), hfield 0 16 (by decide) (by decide)⟩

/-! ### Slices of two words -/

/-- `extract_bits` of a bus of two words; there is no result if the slice starts past the last word. -/
def extractBitsWide (words : Fin 2 → BitVec 32) (lsb width : ℕ) : Option (BitVec 64) :=
  let word := lsb / 32
  let shift := lsb % 32
  if h : word < 2 then
    let value := (words ⟨word, h⟩).setWidth 64 >>> shift
    let value :=
      if h' : shift + width > 32 ∧ word + 1 < 2 then
        value ||| (words ⟨word + 1, h'.2⟩).setWidth 64 <<< (32 - shift)
      else value
    some (if width < 64 then value &&& bitMask width else value)
  else none

/-- The two words of a number of 64 bits. -/
def busWords (value : BitVec 64) (i : Fin 2) : BitVec 32 := value.extractLsb' (32 * i) 32

theorem getLsbD_bitMask {width : ℕ} (h : width < 64) (i : ℕ) :
    (bitMask width).getLsbD i = decide (i < width) := by
  rw [← BitVec.testBit_toNat, bitMask_toNat h, Nat.testBit_two_pow_sub_one]

theorem getLsbD_busWords_ushiftRight (value : BitVec 64) (k : Fin 2) (shift i : ℕ) :
    ((busWords value k).setWidth 64 >>> shift).getLsbD i =
      (decide (shift + i < 32) && value.getLsbD (32 * k + (shift + i))) := by
  rw [BitVec.getLsbD_ushiftRight, BitVec.getLsbD_setWidth, busWords, BitVec.getLsbD_extractLsb']
  by_cases h : shift + i < 32
  · simp [h, show shift + i < 64 by omega]
  · simp [h]

theorem getLsbD_busWords_shiftLeft (value : BitVec 64) (k : Fin 2) {shift i : ℕ} (hi : i < 64) :
    ((busWords value k).setWidth 64 <<< shift).getLsbD i =
      (decide (shift ≤ i ∧ i - shift < 32) && value.getLsbD (32 * k + (i - shift))) := by
  rw [BitVec.getLsbD_shiftLeft, BitVec.getLsbD_setWidth, busWords, BitVec.getLsbD_extractLsb']
  by_cases h : shift ≤ i
  · by_cases h' : i - shift < 32
    · simp [hi, h, h', show i - shift < 64 by omega]
    · simp [h']
  · simp [h]

/-- The two functions that slice a bus agree on every slice within it. A slice that starts in the high
word stays there; one that starts in the low word has its other bits, if any, in the high word. -/
theorem extractBitsWide_eq (value : BitVec 64) {lsb width : ℕ} (hwidth : 0 < width)
    (hle : lsb + width ≤ 64) :
    extractBitsWide (busWords value) lsb width = some (extractBits value lsb width) := by
  -- masked alike, the two slices need to agree on the bits of the field only
  have hmask {u : BitVec 64} (hu : ∀ i < width, u.getLsbD i = value.getLsbD (lsb + i)) :
      (if width < 64 then u &&& bitMask width else u) = extractBits value lsb width := by
    rw [extractBits]
    apply BitVec.eq_of_getLsbD_eq
    intro i hi
    split_ifs with h
    · rw [BitVec.getLsbD_and, BitVec.getLsbD_and, BitVec.getLsbD_ushiftRight, getLsbD_bitMask h]
      by_cases hi' : i < width
      · rw [hu i hi']
      · simp [hi']
    · rw [hu i (by omega), BitVec.getLsbD_ushiftRight]
  rw [extractBitsWide]
  by_cases hlow : lsb < 32
  · have hword : lsb / 32 = 0 := Nat.div_eq_of_lt hlow
    have hshift : lsb % 32 = lsb := Nat.mod_eq_of_lt hlow
    simp only [hword, hshift]
    rw [dif_pos (by decide), Option.some.injEq]
    apply hmask
    intro i hi
    split_ifs with hstraddle
    · rw [BitVec.getLsbD_or, getLsbD_busWords_ushiftRight, getLsbD_busWords_shiftLeft _ _ (by omega)]
      by_cases h : lsb + i < 32
      · have hhigh : ¬ (32 - lsb ≤ i ∧ i - (32 - lsb) < 32) := by omega
        rw [decide_eq_true h, decide_eq_false hhigh]
        simp
      · have hhigh : 32 - lsb ≤ i ∧ i - (32 - lsb) < 32 := by omega
        have hbit : 32 + (i - (32 - lsb)) = lsb + i := by omega
        rw [decide_eq_false h, decide_eq_true hhigh]
        simp [hbit]
    · rw [getLsbD_busWords_ushiftRight]
      simp [show lsb + i < 32 by omega]
  · have hword : lsb / 32 = 1 := by omega
    have hshift : lsb % 32 = lsb - 32 := by omega
    simp only [hword, hshift]
    rw [dif_pos (by decide), Option.some.injEq]
    apply hmask
    intro i hi
    rw [dif_neg (by omega), getLsbD_busWords_ushiftRight]
    simp [show lsb - 32 + i < 32 by omega, show 32 + (lsb - 32 + i) = lsb + i by omega]

/-- **The bridge and the bit layouts.** The bits of the six words of a packed descriptor, read as the
packed record `desc_t`, are that descriptor; the fields of a poll are those of the packed record
`completion_t` on the bus; and the two functions that slice a bus agree on every slice within it. -/
theorem bridge_layout :
    (∀ (opcode flags : BitVec 8) (rolloutId kvArenaId prefixId : BitVec 16)
      (kvOffset deltaOffset : BitVec 32) (seqLen maxTokens rewardModelId reserved : BitVec 16),
      Desc.ofVector (wordsVector (packDesc opcode flags rolloutId kvArenaId prefixId kvOffset
        deltaOffset seqLen maxTokens rewardModelId reserved)) =
      ⟨opcode, flags, rolloutId, kvArenaId, prefixId, kvOffset, deltaOffset, seqLen, maxTokens,
        rewardModelId, reserved⟩) ∧
    (∀ v : BitVec 56, Comp.ofBus (v.setWidth 64) = Comp.ofVector v) ∧
    (∀ (value : BitVec 64) (lsb width : ℕ), 1 ≤ width → lsb + width ≤ 64 →
      extractBitsWide (busWords value) lsb width = some (extractBits value lsb width)) := by
  refine ⟨fun opcode flags rolloutId kvArenaId prefixId kvOffset deltaOffset seqLen maxTokens
    rewardModelId reserved => ?_, Comp.ofBus_setWidth, fun value lsb width hwidth hle =>
      extractBitsWide_eq value hwidth hle⟩
  rw [Desc.ofVector_wordsVector]
  exact Desc.ofWords_packDesc ⟨opcode, flags, rolloutId, kvArenaId, prefixId, kvOffset, deltaOffset,
    seqLen, maxTokens, rewardModelId, reserved⟩

end Rtl

end RolloutRuntime
