import RolloutRuntime.Attention.Argmax
import RolloutRuntime.Attention.OnlineSoftmax
import RolloutRuntime.Rings.Software
import RolloutRuntime.Sampling.Token

/-!
# One decode step of attention

A warp of 32 lanes computes the attention of one query over one block of keys and values. It goes through
the tokens in tiles of 16. For the scores of a tile, groups of eight lanes add up the products of one row
each and combine their sums by shuffles, four rows at a time. Then the running maximum and norm are brought
up to date, and the lanes rescale and extend the output, 128 components shared out among them.

The lanes of a warp run in step: where a loop of the source is over the indices of one lane, it is here one
over the lanes and, in each, over its indices, and a value that every lane takes from lane 0 is one value.
The arithmetic is exact; `expf` is the exponential and `scale` is `rsqrtf` of 128. The prefetch copies the
whole block, so the block is read where it was.

## Main definitions

* `Attention.decodeLoadQuery`: the query, given or made up from the descriptor.
* `Attention.shflDownSync`, `Attention.groupReduce`: the shuffle, and the sum over a group of lanes.
* `Attention.tileScores`, `Attention.tileStep`, `Attention.tiles`: the scores of a tile, one tile, and
  the first tiles.
* `Attention.attentionDecodeStepFixed128`: the whole step.

## Main results

* `Attention.groupReduce_apply`: the shuffles sum up a group.
* `Attention.tileScores_apply`: the scores of a tile.
* `Attention.tiles_represents`: the running values after any number of tiles.
* `Attention.decode_outVec`: the output is the softmax sum of the values.

## References

* `cu/attention_decode.cu`, `include/attention_decode.h`, `include/kv_layout.h`, `cu/prefetch.cu`.
-/

namespace RolloutRuntime

open Loops OnlineSoftmax Sampling

namespace Attention

variable {K : Type}

/-! ### The block, the query and the arguments -/

/-- `KV_LAYOUT_TOKENS_PER_BLOCK`. -/
def tokensPerBlock : ℕ := 32

/-- `KV_LAYOUT_SCALAR_BYTES`. -/
def scalarBytes : ℕ := 2

/-- `DECODE_TILE_TOKENS`. -/
def tileTokens : ℕ := 16

/-- `DECODE_QK_GROUP_SIZE`. -/
def qkGroupSize : ℕ := 8

/-- `DECODE_QK_ROWS_PER_WARP`. -/
def qkRowsPerWarp : ℕ := warpSize / qkGroupSize

/-- Component `d` of the key of token `t` in a block of half-precision numbers. -/
def kRow (kv : ℕ → K) (t d : ℕ) : K := kv (t * headDim + d)

/-- Component `d` of the value of token `t`: the values come after the keys. -/
def vRow (kv : ℕ → K) (t d : ℕ) : K := kv (tokensPerBlock * headDim + (t * headDim + d))

/-- `DecodeStepArgs`, as far as the step reads it. A pointer that is not null comes with what it points to. -/
structure DecodeStepArgs (K : Type) where
  qPtr : Option (ℕ → K)
  oPtr : Option (ℕ → K)
  seqLen : BitVec 32

/-- `DecodeWarpScratch`, as far as the output depends on it: `best_vals` and `best_idx` hold nothing but
values of lane 0 and of the last scan. -/
structure DecodeWarpScratch (K : Type) where
  qVec : ℕ → K
  outVec : ℕ → K
  tileScores : ℕ → K

/-- The number of tokens that is asked for; 0 stands for 1. -/
def requestedSeqLen (args : Option (DecodeStepArgs K)) : BitVec 32 :=
  match args with
  | none => 1
  | some args => if args.seqLen ≠ 0 then args.seqLen else 1

/-- A block has 32 tokens. -/
def clampSeqLen (seqLen : BitVec 32) : ℕ :=
  if seqLen.toNat > tokensPerBlock then tokensPerBlock else seqLen.toNat

/-- The number of tokens that the step looks at. -/
def effectiveSeqLen (args : Option (DecodeStepArgs K)) : ℕ := clampSeqLen (requestedSeqLen args)

theorem requestedSeqLen_ne_zero (args : Option (DecodeStepArgs K)) : requestedSeqLen args ≠ 0 := by
  have hone : (1 : BitVec 32) ≠ 0 := by decide
  cases args with
  | none => exact hone
  | some args =>
    rw [requestedSeqLen]
    split_ifs with hne
    · exact hne
    · exact hone

theorem clampSeqLen_pos {seqLen : BitVec 32} (h : seqLen ≠ 0) : 0 < clampSeqLen seqLen := by
  have hpos : 0 < seqLen.toNat := Nat.pos_of_ne_zero fun h0 => h (BitVec.eq_of_toNat_eq h0)
  rw [clampSeqLen]
  split_ifs
  · decide
  · exact hpos

theorem effectiveSeqLen_pos (args : Option (DecodeStepArgs K)) : 0 < effectiveSeqLen args :=
  clampSeqLen_pos (requestedSeqLen_ne_zero args)

/-- The lanes go through the 128 components, `for (d = lane; d < 128; d += 32)` in each. -/
def forLanes (f : ℕ → K → K) (a : ℕ → K) : ℕ → K :=
  forRange warpSize
    (fun lane a => forStride lane headDim warpSize (fun d a => Function.update a d (f d (a d))) a) a

theorem forLanes_apply (f : ℕ → K → K) (a : ℕ → K) {d : ℕ} (hd : d < headDim) :
    forLanes f a d = f d (a d) := by
  rw [forLanes, forRange_forStride_update (by decide), if_pos hd]

/-- `__shfl_down_sync` of all lanes: the value of the lane `offset` further, within segments of `width`
lanes, and at the end of a segment the own value. -/
def shflDownSync (x : ℕ → K) (offset width : ℕ) (lane : ℕ) : K :=
  if lane % width + offset < width then x (lane + offset) else x lane

section Max

variable [LinearOrder K]

/-- The largest score of a tile. -/
def tileMax (tileCount : ℕ) (scores : ℕ → K) : K :=
  forRange (tileCount - 1) (fun t m => max m (scores (t + 1))) (scores 0)

/-- `fmaxf` with a first argument that may be `-CUDART_INF_F`. -/
def fmaxf (a : WithBot K) (b : K) : K := (max a (b : WithBot K)).unbotD b

theorem coe_fmaxf (a : WithBot K) (b : K) : ((fmaxf a b : K) : WithBot K) = max a (b : WithBot K) := by
  cases a with
  | bot => rw [fmaxf, max_eq_right bot_le, WithBot.unbotD_coe]
  | coe a => rw [fmaxf, ← WithBot.coe_max, WithBot.unbotD_coe]

theorem le_tileMax (scores : ℕ → K) {tileCount t : ℕ} (ht : t < tileCount) :
    scores t ≤ tileMax tileCount scores := by
  have hscan : ∀ t ≤ tileCount - 1, scores t ≤ tileMax tileCount scores := by
    refine forRange_induct (fun k m => ∀ t ≤ k, scores t ≤ m) (fun t ht => by rw [Nat.le_zero.mp ht]) ?_
    intro k _ m ih t ht
    rcases Nat.le_succ_iff.mp ht with hle | rfl
    · exact (ih t hle).trans (le_max_left _ _)
    · exact le_max_right _ _
  exact hscan t (Nat.le_sub_one_of_lt ht)

end Max

variable [Field K]

/-- `decode_synth_query_component`. -/
def decodeSynthQueryComponent (desc : Descriptor) (sampleSt : Option (SampleState K)) (idx : ℕ) : K :=
  let seed := desc.seqId ^^^ desc.rewardCookie ^^^ (BitVec.ofNat 64 (idx + 1) * 0x9e3779b97f4a7c15)
  let seed : BitVec 64 := match sampleSt with
    | some st => seed ^^^ st.rngState ⟨idx % 4, Nat.mod_lt idx (by decide)⟩
    | none => seed
  let bits := (seed ^^^ (seed >>> 32)).setWidth 32
  let centered := ((bits &&& 0xFF).toNat : ℤ) - 127
  (centered : K) / 127

/-- A component of the query: what `q_ptr` points to, or made up. -/
def queryComponent (desc : Descriptor) (args : Option (DecodeStepArgs K))
    (sampleSt : Option (SampleState K)) : ℕ → K :=
  match args.bind DecodeStepArgs.qPtr with
  | some qHalf => qHalf
  | none => decodeSynthQueryComponent desc sampleSt

/-- `decode_load_query`. -/
def decodeLoadQuery (qVec : ℕ → K) (desc : Descriptor) (args : Option (DecodeStepArgs K))
    (sampleSt : Option (SampleState K)) : ℕ → K :=
  forLanes (fun d _ => queryComponent desc args sampleSt d) qVec

/-! ### The scores of a tile -/

/-- The loop of shuffles: `offset` is half the group size, then a quarter, down to 1. -/
def groupReduce (x : ℕ → K) : ℕ → K :=
  [4, 2, 1].foldl (fun x offset lane => x lane + shflDownSync x offset qkGroupSize lane) x

/-- What a lane adds up of its row. -/
def lanePart (q kv : ℕ → K) (tileBase tileCount localBase lane : ℕ) : K :=
  let localT := localBase + lane / qkGroupSize
  if localT < tileCount then
    forStride (lane % qkGroupSize) headDim qkGroupSize
      (fun d sum => sum + q d * kRow kv (tileBase + localT) d) 0
  else 0

/-- Four rows of a tile: the first lane of each group writes a score. -/
def rowScores (scale : K) (q kv : ℕ → K) (tileBase tileCount localBase : ℕ) (scores : ℕ → K) : ℕ → K :=
  let sums := groupReduce (lanePart q kv tileBase tileCount localBase)
  forRange warpSize
    (fun lane scores =>
      let localT := localBase + lane / qkGroupSize
      if lane % qkGroupSize = 0 ∧ localT < tileCount then
        Function.update scores localT (sums lane * scale)
      else scores)
    scores

/-- The loop over the rows of a tile, four at a time. -/
def tileScores (scale : K) (q kv : ℕ → K) (tileBase tileCount : ℕ) (scores : ℕ → K) : ℕ → K :=
  forStride 0 tileCount qkRowsPerWarp (rowScores scale q kv tileBase tileCount) scores

/-- **The shuffles** leave the sum over a group with its first lane. -/
theorem groupReduce_apply (x : ℕ → K) (g : ℕ) :
    groupReduce x (qkGroupSize * g) = ∑ l ∈ Finset.range qkGroupSize, x (qkGroupSize * g + l) := by
  have hmod : ∀ l < 8, (8 * g + l) % 8 = l := fun l hl => by omega
  have hmod0 : 8 * g % 8 = 0 := Nat.mul_mod_right 8 g
  simp only [groupReduce, shflDownSync, qkGroupSize, List.foldl_cons, List.foldl_nil, Nat.add_assoc,
    Nat.reduceAdd, Nat.reduceLT, Nat.one_lt_ofNat, Nat.lt_add_one, hmod0, hmod, zero_add, if_true,
    Finset.sum_range_succ, Finset.range_one, Finset.sum_singleton, add_zero]
  ring

theorem eq_of_first_lanes {localBase i i' : ℕ} (hi : i % qkGroupSize = 0) (hi' : i' % qkGroupSize = 0)
    (h : localBase + i / qkGroupSize = localBase + i' / qkGroupSize) : i = i' := by
  simp only [qkGroupSize] at hi hi' h
  omega

/-- The product of the query with the key of token `t`. -/
def dot (q kv : ℕ → K) (t : ℕ) : K := ∑ d ∈ Finset.range headDim, q d * kRow kv t d

/-- The lanes of a group have the whole product of their row between them. -/
theorem sum_lanePart (q kv : ℕ → K) (tileBase localBase : ℕ) {tileCount g : ℕ}
    (hg : localBase + g < tileCount) :
    ∑ l ∈ Finset.range qkGroupSize, lanePart q kv tileBase tileCount localBase (qkGroupSize * g + l) =
      dot q kv (tileBase + (localBase + g)) := by
  have hpart : ∀ l ∈ Finset.range qkGroupSize,
      lanePart q kv tileBase tileCount localBase (qkGroupSize * g + l) =
        ∑ j ∈ Finset.range 16,
          q (l + j * qkGroupSize) * kRow kv (tileBase + (localBase + g)) (l + j * qkGroupSize) := by
    intro l hl
    have hl8 : l < 8 := Finset.mem_range.mp hl
    have hdiv : (qkGroupSize * g + l) / qkGroupSize = g := by
      simp only [qkGroupSize]
      omega
    have hmod : (qkGroupSize * g + l) % qkGroupSize = l := by
      simp only [qkGroupSize]
      omega
    have hcount : strides l headDim qkGroupSize = 16 := by
      simp only [strides, headDim, qkGroupSize]
      omega
    simp only [lanePart, hdiv, hmod, if_pos hg, forStride_add, hcount, zero_add]
  rw [Finset.sum_congr rfl hpart]
  exact sum_range_stride qkGroupSize 16 fun d => q d * kRow kv (tileBase + (localBase + g)) d

/-- **Four rows of a tile**: their scores are written, and no others. -/
theorem rowScores_apply (scale : K) (q kv : ℕ → K) (tileBase tileCount localBase : ℕ) (scores : ℕ → K)
    (t : ℕ) :
    rowScores scale q kv tileBase tileCount localBase scores t =
      if localBase ≤ t ∧ t < localBase + qkRowsPerWarp ∧ t < tileCount then
        dot q kv (tileBase + t) * scale
      else scores t := by
  split_ifs with ht
  · -- the row is that of the lane `8 * (t - localBase)`
    have hrow : qkGroupSize * (t - localBase) / qkGroupSize = t - localBase :=
      Nat.mul_div_cancel_left _ (by decide)
    have hlocal : localBase + qkGroupSize * (t - localBase) / qkGroupSize = t := by omega
    have hlane : qkGroupSize * (t - localBase) < warpSize := by
      simp only [qkGroupSize, warpSize, qkRowsPerWarp] at ht ⊢
      omega
    have hscore := forRange_write_of_eq (a := scores)
      (p := fun lane => lane % qkGroupSize = 0 ∧ localBase + lane / qkGroupSize < tileCount)
      (g := fun lane => localBase + lane / qkGroupSize)
      (f := fun lane _ => groupReduce (lanePart q kv tileBase tileCount localBase) lane * scale)
      (fun i _ i' _ hp hp' heq => eq_of_first_lanes hp.1 hp'.1 heq) hlane
      ⟨Nat.mul_mod_right _ _, by omega⟩
    rw [hlocal, groupReduce_apply, sum_lanePart q kv _ _ (by omega), Nat.add_sub_cancel' ht.1] at hscore
    exact hscore
  · refine forRange_write_of_ne (a := scores)
      (p := fun lane => lane % qkGroupSize = 0 ∧ localBase + lane / qkGroupSize < tileCount)
      (g := fun lane => localBase + lane / qkGroupSize)
      (f := fun lane _ => groupReduce (lanePart q kv tileBase tileCount localBase) lane * scale)
      (fun lane hlane hp heq => ht ?_)
    simp only [qkGroupSize, warpSize, qkRowsPerWarp] at hlane hp heq ⊢
    omega

/-- **The scores of a tile.** -/
theorem tileScores_apply (scale : K) (q kv : ℕ → K) (tileBase : ℕ) {tileCount t : ℕ} (scores : ℕ → K)
    (ht : t < tileCount) :
    tileScores scale q kv tileBase tileCount scores t = dot q kv (tileBase + t) * scale := by
  have hrows : ∀ t < tileCount, t < strides 0 tileCount qkRowsPerWarp * qkRowsPerWarp →
      tileScores scale q kv tileBase tileCount scores t = dot q kv (tileBase + t) * scale := by
    refine forRange_induct (fun k (scores : ℕ → K) => ∀ t < tileCount, t < k * qkRowsPerWarp →
      scores t = dot q kv (tileBase + t) * scale) (fun t _ ht => absurd ht (by simp)) ?_
    intro k _ scores ih t ht htk
    rw [rowScores_apply, Nat.zero_add]
    split_ifs with hrow
    · rfl
    · rw [Nat.succ_mul] at htk
      exact ih t ht (Nat.lt_of_not_le fun hle => hrow ⟨hle, htk, ht⟩)
  -- the loop ends at the first multiple of four past the tile
  have hend : tileCount ≤ 0 + strides 0 tileCount qkRowsPerWarp * qkRowsPerWarp := le_strides_mul (by decide)
  rw [Nat.zero_add] at hend
  exact hrows t ht (ht.trans_le hend)

/-! ### Tiles -/

/-- What the warp keeps from tile to tile. -/
structure DecodeState (K : Type) where
  tileScores : ℕ → K
  outVec : ℕ → K
  runningMax : WithBot K
  runningNorm : K

/-- The state before the first tile: the output is cleared. -/
def decodeStart (scratch : DecodeWarpScratch K) : DecodeState K where
  tileScores := scratch.tileScores
  outVec := forLanes (fun _ _ => 0) scratch.outVec
  runningMax := ⊥
  runningNorm := 0

/-- The number of tokens of the tile that begins at `tileBase`. -/
def tileCount (seqLen tileBase : ℕ) : ℕ :=
  if seqLen - tileBase < tileTokens then seqLen - tileBase else tileTokens

theorem tileCount_eq_min (seqLen tileBase : ℕ) :
    tileCount seqLen tileBase = min (seqLen - tileBase) tileTokens := by
  rw [tileCount]
  split_ifs <;> omega

theorem tileCount_pos {seqLen tileBase : ℕ} (h : tileBase < seqLen) : 0 < tileCount seqLen tileBase := by
  rw [tileCount_eq_min]
  exact lt_min (Nat.sub_pos_of_lt h) (by decide)

variable [LinearOrder K]

/-- One tile. -/
def tileStep (expf : K → K) (scale : K) (q kv : ℕ → K) (seqLen tileBase : ℕ) (st : DecodeState K) :
    DecodeState K :=
  let count := tileCount seqLen tileBase
  let scores := tileScores scale q kv tileBase count st.tileScores
  let newMax := fmaxf st.runningMax (tileMax count scores)
  let scaleOld := if st.runningNorm = 0 then 0 else expf (st.runningMax.unbotD 0 - newMax)
  let tileNorm := forRange count (fun t norm => norm + expf (scores t - newMax)) 0
  { tileScores := scores
    outVec := forLanes
      (fun d out => forRange count
        (fun localT acc => acc + expf (scores localT - newMax) * vRow kv (tileBase + localT) d)
        (out * scaleOld))
      st.outVec
    runningMax := newMax
    runningNorm := st.runningNorm * scaleOld + tileNorm }

/-- The first `k` tiles. -/
def tiles (expf : K → K) (scale : K) (q kv : ℕ → K) (seqLen k : ℕ) (st : DecodeState K) : DecodeState K :=
  forRange k (fun i => tileStep expf scale q kv seqLen (0 + i * tileTokens)) st

/-- The loop over the tiles. -/
def tilesLoop (expf : K → K) (scale : K) (q kv : ℕ → K) (seqLen : ℕ) (st : DecodeState K) :
    DecodeState K :=
  forStride 0 seqLen tileTokens (tileStep expf scale q kv seqLen) st

/-! ### The step -/

/-- `DecodePathKind`. -/
inductive DecodePathKind where
  | stub
  | fixed128
  deriving DecidableEq, Repr

/-- `DecodeStepResult`. -/
structure DecodeStepResult where
  pathKind : DecodePathKind
  tokenId : ℕ
  bytesTouched : ℕ
  tileCount : ℕ
  cycleEstimate : ℕ

/-- What a step leaves behind: its result, the output in the shared memory, and what `o_ptr` points to. -/
structure DecodeStep (K : Type) where
  result : DecodeStepResult
  outVec : ℕ → K
  output : Option (ℕ → K)

/-- `attention_decode_step_fixed128`; `scratch` is what the shared memory holds before. -/
def attentionDecodeStepFixed128 (expf : K → K) (scale : K) (desc : Descriptor)
    (args : Option (DecodeStepArgs K)) (kv : ℕ → K) (sampleSt : Option (SampleState K))
    (scratch : DecodeWarpScratch K) : DecodeStep K :=
  let q := decodeLoadQuery scratch.qVec desc args sampleSt
  let seqLen := effectiveSeqLen args
  let st := tilesLoop expf scale q kv seqLen (decodeStart scratch)
  let runningNorm := if st.runningNorm = 0 then 1 else st.runningNorm
  let outVec := forLanes (fun _ out => out / runningNorm) st.outVec
  let tileCount := (seqLen + tileTokens - 1) / tileTokens
  { result :=
      { pathKind := .fixed128
        tokenId := decodeTokenId outVec
        bytesTouched := seqLen * headDim * scalarBytes * 2
        tileCount := tileCount
        cycleEstimate := tileCount * headDim * 24 }
    outVec := outVec
    output := (args.bind DecodeStepArgs.oPtr).map (forLanes fun d _ => outVec d) }

/-! ### The running values -/

/-- The running values among what the warp keeps. -/
def DecodeState.running (st : DecodeState K) : Running K (Fin headDim) :=
  ⟨st.runningMax, st.runningNorm, fun d => st.outVec d⟩

omit [LinearOrder K] in
theorem decodeStart_running (scratch : DecodeWarpScratch K) : (decodeStart scratch).running = .start := by
  simp only [DecodeState.running, decodeStart, Running.start, Running.mk.injEq, true_and]
  funext d
  exact forLanes_apply _ _ d.isLt

/-- **One tile**: the running values absorb its tokens, under a maximum of theirs and the old one. -/
theorem tileStep_running (e : Exponential K) (scale : K) (q kv : ℕ → K) (seqLen base : ℕ)
    (st : DecodeState K) :
    ∃ m : K, st.runningMax ≤ m ∧ (∀ t < tileCount seqLen base, dot q kv (base + t) * scale ≤ m) ∧
      (tileStep e scale q kv seqLen base st).running =
        st.running.absorb e m (tileCount seqLen base) (fun t => dot q kv (base + t) * scale)
          fun t d => vRow kv (base + t) d := by
  have hscore : ∀ t < tileCount seqLen base,
      tileScores scale q kv base (tileCount seqLen base) st.tileScores t = dot q kv (base + t) * scale :=
    fun t ht => tileScores_apply scale q kv base _ ht
  generalize hcount : tileCount seqLen base = count at hscore
  refine ⟨fmaxf st.runningMax (tileMax count (tileScores scale q kv base count st.tileScores)),
    ?_, fun t ht => ?_, ?_⟩
  · rw [coe_fmaxf]
    exact le_max_left _ _
  · rw [← hscore t ht, ← WithBot.coe_le_coe, coe_fmaxf]
    exact (WithBot.coe_le_coe.mpr (le_tileMax _ ht)).trans (le_max_right _ _)
  · simp only [DecodeState.running, tileStep, Running.absorb, Running.scaleOld, Running.mk.injEq, hcount,
      forRange_add, zero_add, true_and]
    constructor
    · congr 1
      exact Finset.sum_congr rfl fun t ht => by rw [hscore t (Finset.mem_range.mp ht)]
    · funext d
      rw [forLanes_apply _ _ d.isLt]
      congr 1
      exact Finset.sum_congr rfl fun t ht => by rw [hscore t (Finset.mem_range.mp ht)]

variable [IsStrictOrderedRing K] (e : Exponential K) (scale : K)

/-- **The running values after any number of tiles** are those of the tokens up to there. -/
theorem tiles_represents (q kv : ℕ → K) (seqLen : ℕ) (scratch : DecodeWarpScratch K) {k : ℕ}
    (hk : k ≤ strides 0 seqLen tileTokens) :
    Represents e (fun t => dot q kv t * scale) (fun t (d : Fin headDim) => vRow kv t d)
      (min (k * tileTokens) seqLen) (tiles e scale q kv seqLen k (decodeStart scratch)).running := by
  refine forRange_induct (fun k (st : DecodeState K) => Represents e (fun t => dot q kv t * scale)
    (fun t (d : Fin headDim) => vRow kv t d) (min (k * tileTokens) seqLen) st.running) ?_ ?_
  · rw [decodeStart_running, Nat.zero_mul, Nat.zero_min]
    exact represents_start
  · intro i hi st ih
    have hbase : 0 + i * tileTokens < seqLen := (lt_strides_iff (by decide)).mp (hi.trans_le hk)
    have hnext : min ((i + 1) * tileTokens) seqLen =
        0 + i * tileTokens + tileCount seqLen (0 + i * tileTokens) := by
      simp only [tileCount_eq_min, tileTokens] at hbase ⊢
      omega
    have hseen : min (i * tileTokens) seqLen = 0 + i * tileTokens := by omega
    rw [hseen] at ih
    obtain ⟨m, hold, htile, hstep⟩ := tileStep_running e scale q kv seqLen (0 + i * tileTokens) st
    rw [hstep, hnext]
    exact ih.absorb (tileCount_pos hbase) hold htile

/-- **The norm is positive** after the first tile and after every one that follows. -/
theorem tiles_runningNorm_pos (q kv : ℕ → K) (seqLen : ℕ) (scratch : DecodeWarpScratch K) {k : ℕ}
    (hk : k ≤ strides 0 seqLen tileTokens) (hpos : 0 < k) :
    0 < (tiles e scale q kv seqLen k (decodeStart scratch)).runningNorm := by
  have hseq : 0 + 0 * tileTokens < seqLen := (lt_strides_iff (by decide)).mp (hpos.trans_le hk)
  refine (tiles_represents e scale q kv seqLen scratch hk).norm_pos (lt_min ?_ (by omega))
  exact Nat.mul_pos hpos (by decide)

/-- **The output of a step** is the softmax sum of the values of its tokens. -/
theorem decode_outVec (desc : Descriptor) (args : Option (DecodeStepArgs K)) (kv : ℕ → K)
    (sampleSt : Option (SampleState K)) (scratch : DecodeWarpScratch K) {d : ℕ} (hd : d < headDim) :
    (attentionDecodeStepFixed128 e scale desc args kv sampleSt scratch).outVec d =
      softmaxSum e (fun t => dot (queryComponent desc args sampleSt) kv t * scale) (vRow kv)
        (effectiveSeqLen args) d := by
  have hseq := effectiveSeqLen_pos args
  have hquery : dot (decodeLoadQuery scratch.qVec desc args sampleSt) kv =
      dot (queryComponent desc args sampleSt) kv := by
    funext t
    refine Finset.sum_congr rfl fun d hd => ?_
    rw [decodeLoadQuery, forLanes_apply _ _ (Finset.mem_range.mp hd)]
  have hlast : 0 < strides 0 (effectiveSeqLen args) tileTokens := by
    rw [lt_strides_iff (by decide)]
    omega
  have hrep := tiles_represents e scale (decodeLoadQuery scratch.qVec desc args sampleSt) kv
    (effectiveSeqLen args) scratch le_rfl
  have hnorm : 0 < (tilesLoop e scale (decodeLoadQuery scratch.qVec desc args sampleSt) kv
      (effectiveSeqLen args) (decodeStart scratch)).runningNorm :=
    tiles_runningNorm_pos e scale _ kv (effectiveSeqLen args) scratch le_rfl hlast
  have hend : effectiveSeqLen args ≤ 0 + strides 0 (effectiveSeqLen args) tileTokens * tileTokens :=
    le_strides_mul (by decide)
  rw [Nat.zero_add] at hend
  rw [min_eq_right hend, hquery] at hrep
  have hsum := hrep.acc_div_norm hseq ⟨d, hd⟩
  simp only [attentionDecodeStepFixed128]
  rw [forLanes_apply _ _ hd, if_neg hnorm.ne']
  exact hsum

end Attention

end RolloutRuntime
