import RolloutRuntime.Fastpath.Worker
import RolloutRuntime.Rtl.DecodeRounds

/-!
# The software worker and the hardware worker on one decode request

Both workers count tokens up to the token limit or the next multiple of 32. The software loop tests
the limit before it counts, on 32-bit numbers; the state machine counts first and tests after, on
16-bit numbers. On a request with room for a token the two loops go hand in hand. On a request whose
length has already reached the limit the software worker changes nothing and reports nothing, while
the state machine counts one token, wrapping at `2 ^ 16`, and reports.

## Main definitions

* `SameRequest`: a descriptor of the software worker and one of the hardware worker ask for the same.
* `SameDecode`: the two workers complete them alike.

## Main results

* `sameDecode_iff`: they do exactly if the length is below the limit.

## References

* `src/hw_worker_sim.c` lines 5–52, `rtl/rollout_worker_fsm.sv` lines 40–84,
  `docs/descriptor_contract.md` lines 177–186.
-/

namespace RolloutRuntime

/-- The flag `f` is set in a descriptor. -/
def HwDesc.HasFlag (d : HwDesc) (f : BitVec 16) : Prop := d.flags &&& f ≠ 0

/-- Both descriptors are decode requests with the same length and the same limit, and the software one
carries neither of the two flags the worker sets. -/
structure SameRequest (d : HwDesc) (r : Rtl.Desc) : Prop where
  hw_opcode : d.opcode = Hw.descOpDecode
  rtl_opcode : r.opcode = Rtl.descOpDecode
  seqLen : r.seqLen.toNat = d.seqLen.toNat
  maxTokens : r.maxTokens.toNat = d.maxTokens.toNat
  not_done : ¬ d.HasFlag Hw.descFlagDone
  not_reward : ¬ d.HasFlag Hw.descFlagNeedsReward

/-- A finished descriptor of the software worker and a completion of the hardware worker say the same:
the final lengths are equal and each flag is set exactly if the status says so. -/
structure SameResult (d : HwDesc) (c : Rtl.Comp) : Prop where
  seqLen : d.seqLen.toNat = c.finalSeqLen.toNat
  done : d.HasFlag Hw.descFlagDone ↔ c.status = Rtl.compStatusDone
  reward : d.HasFlag Hw.descFlagNeedsReward ↔ c.status = Rtl.compStatusRewardNeeded
  one_flag : Xor (d.HasFlag Hw.descFlagDone) (d.HasFlag Hw.descFlagNeedsReward)

/-- The two workers complete their descriptors alike. -/
def SameDecode (d : HwDesc) (r : Rtl.Desc) : Prop :=
  ∃ c, Rtl.Worker.completion r = some c ∧ SameResult (Hw.decodeStep d) c

/-- A decode request of the software worker with everything but its length and limit zero. -/
def hwRequest (seqLen maxTokens : BitVec 32) : HwDesc :=
  ⟨Hw.descOpDecode, 0, 0, 0, 0, 0, 0, seqLen, maxTokens, 0, 0, 0, 0⟩

/-- A decode request of the hardware worker with everything but its length and limit zero. -/
def rtlRequest (seqLen maxTokens : BitVec 16) : Rtl.Desc :=
  ⟨Rtl.descOpDecode, 0, 0, 0, 0, 0, 0, seqLen, maxTokens, 0, 0⟩

theorem sameRequest_hwRequest {s m : BitVec 32} {s' m' : BitVec 16} (hs : s'.toNat = s.toNat)
    (hm : m'.toNat = m.toNat) : SameRequest (hwRequest s m) (rtlRequest s' m') where
  hw_opcode := rfl
  rtl_opcode := rfl
  seqLen := hs
  maxTokens := hm
  not_done := by simp [HwDesc.HasFlag, hwRequest]
  not_reward := by simp [HwDesc.HasFlag, hwRequest]

/-! ### Flags -/

theorem hasFlag_or_self (d : HwDesc) {f : BitVec 16} (hf : f ≠ 0) :
    ({ d with flags := d.flags ||| f } : HwDesc).HasFlag f := by
  have hself : (d.flags ||| f) &&& f = f := by
    ext i hi
    simp only [BitVec.getElem_and, BitVec.getElem_or]
    cases d.flags[i] <;> cases f[i] <;> rfl
  unfold HwDesc.HasFlag
  rwa [hself]

/-- Setting one of two disjoint flags leaves the other clear. -/
theorem not_hasFlag_or (d : HwDesc) {f g : BitVec 16} (hfg : f &&& g = 0)
    (hg : ¬ d.HasFlag g) : ¬ ({ d with flags := d.flags ||| f } : HwDesc).HasFlag g := by
  unfold HwDesc.HasFlag at hg ⊢
  rw [not_not] at hg ⊢
  ext i hi
  have h₁ := congrArg (·[i]) hg
  have h₂ := congrArg (·[i]) hfg
  simp only [BitVec.getElem_and, BitVec.getElem_or] at h₁ h₂ ⊢
  cases hgi : g[i] <;> simp_all

/-! ### The two loops -/

/-- Below the limit the two loops take the same steps. The induction is on the cycles of the state
machine; one pass of the software loop goes with one cycle. -/
theorem sameResult_decodeLoop {r : Rtl.Desc} {n : ℕ} {tok : BitVec 16} {c : Rtl.Comp} {d : HwDesc}
    (hiter : Rtl.iterDecode r n tok = some c) (htok : tok.toNat = d.seqLen.toNat)
    (hmax : r.maxTokens.toNat = d.maxTokens.toNat) (hlt : d.seqLen < d.maxTokens)
    (hdone : ¬ d.HasFlag Hw.descFlagDone) (hrew : ¬ d.HasFlag Hw.descFlagNeedsReward)
    (t : BitVec 64) : SameResult (Hw.decodeLoop d t).1 c := by
  induction n generalizing tok d t with
  | zero => simp [Rtl.iterDecode] at hiter
  | succ n ih =>
    have htm : tok < r.maxTokens := by
      rw [BitVec.lt_def, htok, hmax]
      exact hlt
    have hnext : (tok + 1).toNat = (Hw.fakeDecodeToken d).1.seqLen.toNat := by
      rw [RingBuffer.toNat_add_one_of_lt htm, htok, Hw.fakeDecodeToken_seqLen hlt]
    rw [Rtl.iterDecode] at hiter
    rw [Hw.decodeLoop, dif_pos hlt]
    obtain ⟨hm, hd⟩ | ⟨hm, h32, hd⟩ | ⟨hm, h32, hd⟩ := Rtl.sDecode_cases htm
    · rw [htok, hmax] at hm
      rw [hd] at hiter
      obtain rfl := Option.some.inj hiter
      rw [if_pos ((Hw.fakeDecodeToken_done hlt).mpr hm)]
      have hset := hasFlag_or_self (Hw.fakeDecodeToken d).1 (f := Hw.descFlagDone) (by decide)
      have hclear := not_hasFlag_or (Hw.fakeDecodeToken d).1 (f := Hw.descFlagDone)
        (g := Hw.descFlagNeedsReward) (by decide) hrew
      refine ⟨hnext.symm, iff_of_true hset rfl, iff_of_false hclear ?_, .inl ⟨hset, hclear⟩⟩
      simp [Rtl.Desc.completion, Rtl.compStatusDone, Rtl.compStatusRewardNeeded]
    · rw [htok, hmax] at hm
      rw [htok] at h32
      rw [hd] at hiter
      obtain rfl := Option.some.inj hiter
      rw [if_neg (mt (Hw.fakeDecodeToken_done hlt).mp hm.ne),
        if_pos ((Hw.fakeDecodeToken_boundary hlt).mpr h32)]
      have hset := hasFlag_or_self (Hw.fakeDecodeToken d).1 (f := Hw.descFlagNeedsReward) (by decide)
      have hclear := not_hasFlag_or (Hw.fakeDecodeToken d).1 (f := Hw.descFlagNeedsReward)
        (g := Hw.descFlagDone) (by decide) hdone
      refine ⟨hnext.symm, iff_of_false hclear ?_, iff_of_true hset rfl, .inr ⟨hset, hclear⟩⟩
      simp [Rtl.Desc.completion, Rtl.compStatusDone, Rtl.compStatusRewardNeeded]
    · rw [htok, hmax] at hm
      rw [htok] at h32
      rw [hd] at hiter
      rw [if_neg (mt (Hw.fakeDecodeToken_done hlt).mp hm.ne),
        if_neg (mt (Hw.fakeDecodeToken_boundary hlt).mp h32)]
      refine ih (d := (Hw.fakeDecodeToken d).1) hiter hnext hmax ?_ hdone hrew _
      rw [BitVec.lt_def, Hw.fakeDecodeToken_seqLen hlt]
      exact hm

/-- At or above the limit the state machine counts one token that the software loop does not. -/
theorem finalSeqLen_of_limit {r : Rtl.Desc} {n : ℕ} {c : Rtl.Comp}
    (hiter : Rtl.iterDecode r n r.seqLen = some c) (hle : r.maxTokens ≤ r.seqLen) :
    c.finalSeqLen = r.seqLen + 1 := by
  cases n with
  | zero => simp [Rtl.iterDecode] at hiter
  | succ n =>
    obtain ⟨status, hd, -⟩ := Rtl.sDecode_of_limit hle
    rw [Rtl.iterDecode, hd] at hiter
    obtain rfl := Option.some.inj hiter
    rfl

/-- **Agreement of the two workers.** They complete the same decode request alike exactly if its length
is below its limit. -/
theorem sameDecode_iff (d : HwDesc) (r : Rtl.Desc) (h : SameRequest d r) :
    SameDecode d r ↔ d.seqLen < d.maxTokens := by
  have hiter := Rtl.iterDecode_eq_workerFunction (Rtl.sIdle_decode h.rtl_opcode) le_rfl
  unfold SameDecode
  rw [Rtl.Worker.completion_eq]
  constructor
  · rintro ⟨c, hc, hsame⟩
    obtain rfl := Option.some.inj hc
    by_contra hge
    have hle : r.maxTokens ≤ r.seqLen := by
      rw [BitVec.not_lt, BitVec.le_def] at hge
      rw [BitVec.le_def, h.seqLen, h.maxTokens]
      exact hge
    have hlen := hsame.seqLen
    rw [finalSeqLen_of_limit hiter hle, Hw.decodeStep, Hw.decodeLoop, dif_neg hge, ← h.seqLen] at hlen
    exact absurd (BitVec.eq_of_toNat_eq hlen) (by bv_omega)
  · intro hlt
    exact ⟨_, rfl, sameResult_decodeLoop hiter h.seqLen h.maxTokens hlt h.not_done h.not_reward 0⟩

/-- A request for ten more tokens is completed alike. -/
theorem sameDecode_thirty_forty :
    SameRequest (hwRequest 30 40) (rtlRequest 30 40) ∧
      SameDecode (hwRequest 30 40) (rtlRequest 30 40) :=
  ⟨sameRequest_hwRequest rfl rfl,
    (sameDecode_iff _ _ (sameRequest_hwRequest rfl rfl)).mpr (by decide)⟩

/-- A request whose length is its limit is not: the state machine reports one token more. -/
theorem not_sameDecode_five_five :
    SameRequest (hwRequest 5 5) (rtlRequest 5 5) ∧
      ¬ SameDecode (hwRequest 5 5) (rtlRequest 5 5) := by
  refine ⟨sameRequest_hwRequest rfl rfl, ?_⟩
  rintro ⟨c, hc, hsame⟩
  have hcomp : Rtl.Worker.completion (rtlRequest 5 5) = some ⟨0, Rtl.compStatusDone, 6, 0⟩ := by
    decide
  rw [hcomp] at hc
  obtain rfl := Option.some.inj hc
  have hlen := hsame.seqLen
  rw [Hw.decodeStep, Hw.decodeLoop, dif_neg (by decide)] at hlen
  exact absurd hlen (by decide)

end RolloutRuntime
