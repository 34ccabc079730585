import RolloutRuntime.Fastpath.DecodeAgreement
import RolloutRuntime.Fastpath.EndToEnd
import RolloutRuntime.Rtl.DecodeRounds

/-!
# Rounds of decoding in the two workers

The software worker goes through a decode request in the rounds of the state machine: it stops at the
token limit or at the next multiple of 32, sets one of two flags, and counts the tokens. A host that
submits the request again with the length it got back, as long as a reward is needed, reaches the
limit.

The request is submitted with the flags it had, not with those that came back: a submission of
`infer_submit_decode` sets its flags anew.

## Main definitions

* `Hw.decodeRound`: what a round makes of a decode request.
* `Hw.roundTrip`, `Hw.resubmit`: one round and all rounds through the two rings.

## Main results

* `Hw.decodeLoop_of_lt`: the decode loop is a round.
* `decode_rounds`: one round and all rounds, in the software worker and in the state machine.

## References

* `src/hw_worker_sim.c` lines 5–57, `rtl/rollout_worker_fsm.sv` lines 40–79.
-/

namespace RolloutRuntime

open Concurrency RingBuffer

/-! ### From one round to the next -/

section Rounds

variable {m s : ℕ}

theorem rewardRounds_of_stop_eq (h : s < m) (hstop : rewardStop m s = m) : rewardRounds m s = 1 := by
  unfold rewardStop at hstop
  unfold rewardRounds
  omega

theorem rewardRounds_of_stop_ne (hstop : rewardStop m s ≠ m) :
    rewardRounds m s = rewardRounds m (rewardStop m s) + 1 := by
  unfold rewardStop at hstop ⊢
  unfold rewardRounds
  omega

end Rounds

namespace Hw

/-! ### One round -/

/-- The flag a round from the length `s` sets under the limit `m`. -/
def roundFlag (m s : ℕ) : BitVec 16 :=
  if rewardStop m s = m then descFlagDone else descFlagNeedsReward

/-- What a round makes of a decode request. -/
def decodeRound (d : HwDesc) : HwDesc :=
  { d with
    seqLen := .ofNat 32 (rewardStop d.maxTokens.toNat d.seqLen.toNat)
    flags := d.flags ||| roundFlag d.maxTokens.toNat d.seqLen.toNat }

/-- The number of tokens a round decodes. -/
def roundTokens (d : HwDesc) : ℕ := rewardStop d.maxTokens.toNat d.seqLen.toNat - d.seqLen.toNat

theorem toNat_seqLen_decodeRound (d : HwDesc) :
    (decodeRound d).seqLen.toNat = rewardStop d.maxTokens.toNat d.seqLen.toNat := by
  rw [decodeRound, BitVec.toNat_ofNat]
  exact Nat.mod_eq_of_lt ((rewardStop_le _ _).trans_lt d.maxTokens.isLt)

theorem decodeRound_of_stop {d : HwDesc}
    (hstop : rewardStop d.maxTokens.toNat d.seqLen.toNat = d.seqLen.toNat + 1) :
    decodeRound d = { d with
      seqLen := d.seqLen + 1
      flags := d.flags ||| roundFlag d.maxTokens.toNat d.seqLen.toNat } := by
  rw [decodeRound, hstop, ofNat_toNat_add_one]

/-- The decode loop on a request with room for a token is a round. The induction is on the loop; a token
that does not end the round leaves its end where it is. -/
theorem decodeLoop_of_lt {d : HwDesc} (h : d.seqLen < d.maxTokens) (t : BitVec 64) :
    decodeLoop d t = (decodeRound d, t + .ofNat 64 (roundTokens d)) := by
  induction d, t using decodeLoop.induct with
  | case1 d t _ hdone =>
    have hm := (fakeDecodeToken_done h).mp hdone
    have hstop := rewardStop_of_limit hm
    have hflag : roundFlag d.maxTokens.toNat d.seqLen.toNat = descFlagDone :=
      if_pos (hstop.trans hm)
    rw [decodeLoop, dif_pos h, if_pos hdone, decodeRound_of_stop hstop, hflag, roundTokens, hstop,
      Nat.add_sub_cancel_left]
    rfl
  | case2 d t _ _ hdone hrew =>
    have hlt : d.seqLen.toNat < d.maxTokens.toNat := h
    have hm := mt (fakeDecodeToken_done h).mpr hdone
    have hlt' : d.seqLen.toNat + 1 < d.maxTokens.toNat := by omega
    have hstop := rewardStop_of_boundary hlt' ((fakeDecodeToken_boundary h).mp hrew)
    have hflag : roundFlag d.maxTokens.toNat d.seqLen.toNat = descFlagNeedsReward :=
      if_neg (hstop ▸ hm)
    rw [decodeLoop, dif_pos h, if_neg hdone, if_pos hrew, decodeRound_of_stop hstop, hflag,
      roundTokens, hstop, Nat.add_sub_cancel_left]
    rfl
  | case3 d t _ d' hdone hrew ih =>
    have hlt : d.seqLen.toNat < d.maxTokens.toNat := h
    have hm := mt (fakeDecodeToken_done h).mpr hdone
    have hnext : d'.seqLen.toNat = d.seqLen.toNat + 1 := fakeDecodeToken_seqLen h
    have hmax : d'.maxTokens = d.maxTokens := rfl
    have hlt' : d.seqLen.toNat + 1 < d.maxTokens.toNat := by omega
    have hstop := rewardStop_succ hlt' (mt (fakeDecodeToken_boundary h).mpr hrew)
    have hroom : d'.seqLen < d'.maxTokens := by
      rw [BitVec.lt_def, hnext]
      exact hlt'
    have hround : decodeRound d' = decodeRound d := by
      simp only [decodeRound, roundFlag, hnext, hmax, hstop]
      rfl
    have htokens : roundTokens d = 1 + roundTokens d' := by
      have := lt_rewardStop hlt'
      simp only [roundTokens, hnext, hmax, hstop]
      omega
    rw [decodeLoop, dif_pos h, if_neg hdone, if_neg hrew, ih hroom, hround, htokens,
      BitVec.ofNat_add, ← BitVec.add_assoc]
    rfl
  | case4 d t hnot => exact absurd h hnot

/-- What the last round makes of a decode request. -/
theorem decodeRound_of_last {d : HwDesc}
    (h : rewardStop d.maxTokens.toNat d.seqLen.toNat = d.maxTokens.toNat) :
    decodeRound d = { d with seqLen := d.maxTokens, flags := d.flags ||| descFlagDone } := by
  rw [decodeRound, roundFlag, if_pos h, h, BitVec.ofNat_toNat, BitVec.setWidth_eq]

theorem decodeRound_done {d : HwDesc} (h : ¬ d.HasFlag descFlagDone) :
    (decodeRound d).HasFlag descFlagDone ↔
      rewardStop d.maxTokens.toNat d.seqLen.toNat = d.maxTokens.toNat := by
  unfold decodeRound roundFlag
  split_ifs with hstop
  · exact iff_of_true (hasFlag_or_self { d with seqLen := _ } (by decide)) hstop
  · exact iff_of_false (not_hasFlag_or { d with seqLen := _ } (by decide) h) hstop

theorem decodeRound_needsReward {d : HwDesc} (h : ¬ d.HasFlag descFlagNeedsReward) :
    (decodeRound d).HasFlag descFlagNeedsReward ↔
      rewardStop d.maxTokens.toNat d.seqLen.toNat ≠ d.maxTokens.toNat := by
  unfold decodeRound roundFlag
  split_ifs with hstop
  · exact iff_of_false (not_hasFlag_or { d with seqLen := _ } (by decide) h) (not_not.mpr hstop)
  · exact iff_of_true (hasFlag_or_self { d with seqLen := _ } (by decide)) hstop

/-! ### All rounds -/

/-- One round through the two rings: the host submits `d`, the worker pops and decodes it, the worker
pushes the result, and the host pops that. -/
def roundTrip (d : HwDesc) (l : WorkerSim) : Prog Access Mem (Option HwDesc × WorkerSim) := do
  let _ ← onCmdq (hwRingPush d)
  let l ← hwWorkerSim l
  let l ← hwWorkerSim l
  let x ← onDoneq hwRingPop
  return (x, l)

/-- At most so many rounds of the request `d`, the first one from the length `len` and each other one
from the length the one before returned, as long as a reward is needed: the number of rounds and the
last result. -/
def resubmit (d : HwDesc) :
    ℕ → BitVec 32 → WorkerSim → Prog Access Mem (ℕ × Option HwDesc × WorkerSim)
  | 0, _, l => return (0, none, l)
  | fuel + 1, len, l => do
    match ← roundTrip { d with seqLen := len } l with
    | (none, l) => return (1, none, l)
    | (some d', l) =>
      if d'.flags &&& descFlagNeedsReward = 0 then return (1, some d', l)
      let (k, y, l) ← resubmit d fuel d'.seqLen l
      return (k + 1, y, l)

theorem roundTrip_run {d : HwDesc} (hd : d.opcode = descOpDecode) (hlt : d.seqLen < d.maxTokens)
    (t k : BitVec 64) {n : ℕ} {s : Mem} (h : Quiescent n s) :
    ∃ s', (roundTrip d ⟨.top, t, k⟩).run Access.effect s =
      ((some (decodeRound d), ⟨.top, t + .ofNat 64 (roundTokens d), k + 1⟩), s') ∧
        Quiescent (n + 1) s' := by
  obtain ⟨hstop, hcmd, hdone, hn⟩ := h
  obtain ⟨r₁, hrun₁, hone₁, -⟩ := hwRingPush_run hcmd d
  obtain ⟨r₂, hpop₂, hempty₂, -⟩ := hwRingPop_run hone₁
  have hrun₂ := worker_pop_run t k (s := { s with cmdq := r₁ }) hstop hpop₂ hd
  rw [decodeLoop_of_lt hlt] at hrun₂
  obtain ⟨r₃, hrun₃, hone₃, hlen₃⟩ := worker_push_run (decodeRound d) (t + .ofNat 64 (roundTokens d)) k
    (s := { s with cmdq := r₂ }) hdone
  obtain ⟨r₄, hpop₄, hempty₄, hpub₄⟩ := hwRingPop_run hone₃
  refine ⟨{ s with cmdq := r₂, doneq := r₄ }, ?_, hstop, hempty₂, hempty₄, ?_⟩
  · rw [roundTrip, Prog.run_bind, onCmdq_run, hrun₁, Prog.run_bind, hrun₂, Prog.run_bind, hrun₃,
      Prog.run_bind, onDoneq_run, hpop₄]
    rfl
  · rw [hpub₄, hlen₃, hn]

/-- **All rounds of the software worker.** With as many rounds allowed as there are to go, the request
comes back at the limit, as done, after that many rounds, and the worker has counted each token. -/
theorem resubmit_run {d : HwDesc} (hd : d.opcode = descOpDecode) {len : BitVec 32}
    (hlt : len < d.maxTokens) (hrew : ¬ d.HasFlag descFlagNeedsReward) {fuel : ℕ}
    (hfuel : rewardRounds d.maxTokens.toNat len.toNat ≤ fuel) (t k : BitVec 64) {n : ℕ} {s : Mem}
    (h : Quiescent n s) :
    ∃ s', (resubmit d fuel len ⟨.top, t, k⟩).run Access.effect s =
      ((rewardRounds d.maxTokens.toNat len.toNat,
        some { d with seqLen := d.maxTokens, flags := d.flags ||| descFlagDone },
        ⟨.top, t + .ofNat 64 (d.maxTokens.toNat - len.toNat),
          k + .ofNat 64 (rewardRounds d.maxTokens.toNat len.toNat)⟩), s') ∧
      Quiescent (n + rewardRounds d.maxTokens.toNat len.toNat) s' := by
  induction fuel generalizing len t k n s with
  | zero => exact absurd hfuel (by have := rewardRounds_pos d.maxTokens.toNat len.toNat; omega)
  | succ fuel ih =>
    have hlt' : len.toNat < d.maxTokens.toNat := hlt
    obtain ⟨s₁, hrun, hquiet⟩ :=
      roundTrip_run (d := { d with seqLen := len }) hd hlt t k h
    have hreward := decodeRound_needsReward (d := { d with seqLen := len }) hrew
    have hlen : (decodeRound { d with seqLen := len }).seqLen.toNat =
        rewardStop d.maxTokens.toNat len.toNat := toNat_seqLen_decodeRound _
    simp only [resubmit, Prog.run_bind, hrun]
    by_cases hstop : rewardStop d.maxTokens.toNat len.toNat = d.maxTokens.toNat
    · have hclear : (decodeRound { d with seqLen := len }).flags &&& descFlagNeedsReward = 0 :=
        not_not.mp (mt hreward.mp (not_not.mpr hstop))
      have hone := rewardRounds_of_stop_eq hlt' hstop
      refine ⟨s₁, ?_, hone ▸ hquiet⟩
      rw [if_pos hclear, decodeRound_of_last hstop, roundTokens, hstop, hone]
      rfl
    · have hset : ¬ (decodeRound { d with seqLen := len }).flags &&& descFlagNeedsReward = 0 :=
        hreward.mpr hstop
      have hround := rewardRounds_of_stop_ne hstop
      have hnext : (decodeRound { d with seqLen := len }).seqLen < d.maxTokens := by
        rw [BitVec.lt_def, hlen]
        exact lt_of_le_of_ne (rewardStop_le _ _) hstop
      obtain ⟨s₂, hrest, hquiet'⟩ := ih hnext (by rw [hlen]; omega)
        (t + .ofNat 64 (roundTokens { d with seqLen := len })) (k + 1) hquiet
      rw [hlen] at hrest hquiet'
      have htokens : roundTokens { d with seqLen := len } +
          (d.maxTokens.toNat - rewardStop d.maxTokens.toNat len.toNat) =
          d.maxTokens.toNat - len.toNat := rewardStop_sub_add hlt'
      have htok : t + .ofNat 64 (roundTokens { d with seqLen := len }) +
          .ofNat 64 (d.maxTokens.toNat - rewardStop d.maxTokens.toNat len.toNat) =
          t + .ofNat 64 (d.maxTokens.toNat - len.toNat) := by
        rw [BitVec.add_assoc, ← BitVec.ofNat_add, htokens]
      have hcount (r : ℕ) : k + 1 + .ofNat 64 r = k + .ofNat 64 (r + 1) := by
        rw [Nat.add_comm r, BitVec.ofNat_add, BitVec.add_assoc]
        rfl
      refine ⟨s₂, ?_, ?_⟩
      · rw [if_neg hset, Prog.run_bind, hrest, htok, hcount, hround]
        rfl
      · rw [hround, Nat.add_comm _ 1, ← Nat.add_assoc]
        exact hquiet'

end Hw

/-- **Rounds of decoding.** On a decode request below its limit that carries neither of the two flags, a
pass of the software worker that pops it ends at the limit or the next multiple of 32, sets one flag
accordingly, counts the tokens and changes nothing else; and resubmission with the length returned, as
long as a reward is needed, ends at the limit after the rounds and the tokens there were to go. The
same holds of the state machine, where a token is a cycle in `S_DECODE`, whatever stands on its inputs
and however the host stalls. -/
theorem decode_rounds :
    (∀ (d : HwDesc), d.opcode = Hw.descOpDecode → d.seqLen < d.maxTokens →
      ¬ d.HasFlag Hw.descFlagDone → ¬ d.HasFlag Hw.descFlagNeedsReward →
      let stop := rewardStop d.maxTokens.toNat d.seqLen.toNat
      let rounds := rewardRounds d.maxTokens.toNat d.seqLen.toNat
      (∀ (t k : BitVec 64) (s : Hw.Mem) (r : HwRing), s.stop = 0 →
        hwRingPop.run Op.effect s.cmdq = (some d, r) →
        ∃ d' : HwDesc, (Hw.hwWorkerSim ⟨.top, t, k⟩).run Hw.Access.effect s =
            (⟨.pushing d', t + .ofNat 64 (stop - d.seqLen.toNat), k⟩, { s with cmdq := r }) ∧
          d'.seqLen.toNat = stop ∧
          (d'.HasFlag Hw.descFlagDone ↔ stop = d.maxTokens.toNat) ∧
          (d'.HasFlag Hw.descFlagNeedsReward ↔ stop ≠ d.maxTokens.toNat) ∧
          d' = { d with
            seqLen := d'.seqLen
            flags := d.flags |||
              if stop = d.maxTokens.toNat then Hw.descFlagDone else Hw.descFlagNeedsReward }) ∧
      (∀ (t k : BitVec 64) (n fuel : ℕ) (s : Hw.Mem), Hw.Quiescent n s → rounds ≤ fuel →
        ∃ s', (Hw.resubmit d fuel d.seqLen ⟨.top, t, k⟩).run Hw.Access.effect s =
            ((rounds, some { d with seqLen := d.maxTokens, flags := d.flags ||| Hw.descFlagDone },
              ⟨.top, t + .ofNat 64 (d.maxTokens.toNat - d.seqLen.toNat), k + .ofNat 64 rounds⟩), s') ∧
          Hw.Quiescent (n + rounds) s')) ∧
    (∀ (w : Rtl.Worker) (d : Rtl.Desc), w.state = .idle → d.opcode = Rtl.descOpDecode →
      d.seqLen < d.maxTokens →
      let stop := rewardStop d.maxTokens.toNat d.seqLen.toNat
      let rounds := rewardRounds d.maxTokens.toNat d.seqLen.toNat
      let tokens := d.maxTokens.toNat - d.seqLen.toNat
      (∀ ins : ℕ → Rtl.WorkerInput, (ins 0).inDesc = d ∧ (ins 0).inValid = true →
        w.CompletesAfter ins (stop - d.seqLen.toNat)
          ⟨d.rolloutId,
            if stop = d.maxTokens.toNat then Rtl.compStatusDone else Rtl.compStatusRewardNeeded,
            .ofNat 16 stop, d.rewardModelId⟩ ∧
        (w.run ins (stop - d.seqLen.toNat + 1)).activeDesc = d) ∧
      (∀ is : List Rtl.HostCycle,
        let r := (Rtl.Resubmission.start w d).run d is
        (∀ c, r.result = some c →
          c = ⟨d.rolloutId, Rtl.compStatusDone, d.maxTokens, d.rewardModelId⟩ ∧
            r.rounds = rounds ∧ r.decodeCycles = tokens) ∧
        (2 * rounds + tokens ≤ is.countP Rtl.HostCycle.active → r.result.isSome = true))) := by
  refine ⟨fun d hd hlt hdone hrew => ⟨fun t k s r hstop hpop => ?_, fun t k n fuel s hq hfuel => ?_⟩,
    fun w d hw hd hlt => ⟨fun ins hoffer => ?_, fun is => ?_⟩⟩
  · refine ⟨Hw.decodeRound d, ?_, Hw.toNat_seqLen_decodeRound d, Hw.decodeRound_done hdone,
      Hw.decodeRound_needsReward hrew, rfl⟩
    rw [Hw.worker_pop_run t k hstop hpop hd, Hw.decodeLoop_of_lt hlt]
    rfl
  · exact Hw.resubmit_run hd hlt hrew hfuel t k hq
  · exact Rtl.Worker.completesAfter_of_lt hw hd hlt hoffer
  · exact Rtl.Resubmission.resubmitted w hw d hd hlt is

/-- A request for ten more tokens takes two rounds, in the software worker and in the state machine. -/
theorem decode_rounds_thirty_forty :
    (∃ s', (Hw.resubmit (hwRequest 30 40) 2 30 ⟨.top, 0, 0⟩).run Hw.Access.effect
        ⟨Ring.zeroed 32 16 default, Ring.zeroed 32 16 default, 0, 0⟩ =
      ((2, some { hwRequest 40 40 with flags := Hw.descFlagDone }, ⟨.top, 10, 2⟩), s')) ∧
    ∃ r, (Rtl.Resubmission.start .reset (rtlRequest 30 40)).run (rtlRequest 30 40)
        (List.replicate 14 ⟨true, true, default⟩) = r ∧
      r.rounds = 2 ∧ r.decodeCycles = 10 := by
  obtain ⟨hsoft, hhard⟩ := decode_rounds
  obtain ⟨-, hsoft⟩ := hsoft (hwRequest 30 40) rfl (by decide) (by simp [HwDesc.HasFlag, hwRequest])
    (by simp [HwDesc.HasFlag, hwRequest])
  obtain ⟨s', hs', -⟩ := hsoft 0 0 0 2 ⟨Ring.zeroed 32 16 default, Ring.zeroed 32 16 default, 0, 0⟩
    ⟨rfl, rfl, rfl, rfl⟩ (by decide)
  refine ⟨⟨s', hs'⟩, _, rfl, ?_⟩
  obtain ⟨hres, hsome⟩ := (hhard .reset (rtlRequest 30 40) rfl rfl (by decide)).2
    (List.replicate 14 ⟨true, true, default⟩)
  obtain ⟨c, hc⟩ := Option.isSome_iff_exists.mp (hsome (by decide))
  exact (hres c hc).2

end RolloutRuntime
