import RolloutRuntime.Rtl.DescriptorEngine

/-!
# Rounds of decoding

A decode request goes through the worker in rounds. A round ends at the token limit, or at the next
multiple of 32 if that comes first; then the rollout waits for a reward and is submitted again with the
length reached. Below the limit a round of the state machine spends one cycle in `S_DECODE` for each
token, whatever stands on its inputs meanwhile, and a host that keeps resubmitting gets to the limit
without repeating or skipping a token, however it stalls the two handshakes.

At or above the limit the state machine counts one token all the same, and at the largest length its
counter wraps.

## Main definitions

* `rewardStop`, `rewardRounds`: where a round ends, and how many rounds are left.
* `Rtl.Worker.CompletesAfter`: the worker spends so many cycles in `S_DECODE` and then offers a
  completion.
* `Rtl.Resubmission`: the worker with a host that resubmits.

## Main results

* `Rtl.Worker.completesAfter_of_lt`: one round below the limit.
* `Rtl.Resubmission.resubmitted`: all rounds, under any stalls.
* `Rtl.Worker.advances_iff`: the length never goes back, except from `0xFFFF`.

## References

* `rtl/rollout_worker_fsm.sv` lines 40–84, `rtl/tb_rl_runtime_top.sv` lines 81–145,
  `verilator/test_rtl_bridge.cpp` lines 34–98 and 160–175.
-/

namespace RolloutRuntime

/-! ### Lengths and rounds -/

/-- The length at which a round from the length `s` ends under the limit `m`. -/
def rewardStop (m s : ℕ) : ℕ := min m (32 * (s / 32 + 1))

/-- The number of rounds from the length `s` to the limit `m`. -/
def rewardRounds (m s : ℕ) : ℕ := (m - 1) / 32 - s / 32 + 1

section Rounds

variable {m s : ℕ}

theorem lt_rewardStop (h : s < m) : s < rewardStop m s := by
  unfold rewardStop
  omega

theorem rewardStop_le (m s : ℕ) : rewardStop m s ≤ m := min_le_left _ _

theorem rewardStop_sub_add (h : s < m) :
    rewardStop m s - s + (m - rewardStop m s) = m - s := by
  have hlt := lt_rewardStop h
  have hle := rewardStop_le m s
  omega

/-- One token short of the limit the round is the last one. -/
theorem rewardStop_of_limit (h : s + 1 = m) : rewardStop m s = s + 1 := by
  unfold rewardStop
  omega

theorem rewardStop_of_boundary (h : s + 1 < m) (h32 : (s + 1) % 32 = 0) :
    rewardStop m s = s + 1 := by
  unfold rewardStop
  omega

/-- Within a round the end of the round stays where it is. -/
theorem rewardStop_succ (h : s + 1 < m) (h32 : (s + 1) % 32 ≠ 0) :
    rewardStop m (s + 1) = rewardStop m s := by
  unfold rewardStop
  omega

theorem rewardRounds_pos (m s : ℕ) : 0 < rewardRounds m s := Nat.succ_pos _

theorem rewardRounds_of_limit (h : s + 1 = m) : rewardRounds m s = 1 := by
  unfold rewardRounds
  omega

theorem rewardRounds_of_boundary (h : s + 1 < m) (h32 : (s + 1) % 32 = 0) :
    rewardRounds m s = rewardRounds m (s + 1) + 1 := by
  unfold rewardRounds
  omega

/-- Within a round the number of rounds left stays the same. -/
theorem rewardRounds_succ (h : s + 1 < m) (h32 : (s + 1) % 32 ≠ 0) :
    rewardRounds m (s + 1) = rewardRounds m s := by
  unfold rewardRounds
  omega

end Rounds

theorem ofNat_toNat_add_one {w : ℕ} (x : BitVec w) : BitVec.ofNat w (x.toNat + 1) = x + 1 := by
  rw [BitVec.ofNat_add, BitVec.ofNat_toNat, BitVec.setWidth_eq]
  rfl

namespace Rtl

open RingBuffer

/-! ### One cycle of `S_DECODE` -/

/-- The status of a round from the length `s` under the limit `m`. -/
def roundStatus (m s : ℕ) : BitVec 8 :=
  if rewardStop m s = m then compStatusDone else compStatusRewardNeeded

/-- What `S_DECODE` does below the limit: it ends the last round, ends another round, or goes on. -/
theorem sDecode_cases {d : Desc} {tok : BitVec 16} (h : tok < d.maxTokens) :
    (tok.toNat + 1 = d.maxTokens.toNat ∧
      sDecode d tok = some (d.completion compStatusDone (tok + 1))) ∨
    (tok.toNat + 1 < d.maxTokens.toNat ∧ (tok.toNat + 1) % 32 = 0 ∧
      sDecode d tok = some (d.completion compStatusRewardNeeded (tok + 1))) ∨
    (tok.toNat + 1 < d.maxTokens.toNat ∧ (tok.toNat + 1) % 32 ≠ 0 ∧ sDecode d tok = none) := by
  have hnext := toNat_add_one_of_lt h
  have hlt : tok.toNat < d.maxTokens.toNat := h
  have hlimit : tok + 1 ≥ d.maxTokens ↔ d.maxTokens.toNat ≤ tok.toNat + 1 := by
    rw [ge_iff_le, BitVec.le_def, hnext]
  have hbound : (tok + 1) % rewardBoundary = 0 ↔ (tok.toNat + 1) % 32 = 0 := by
    rw [← BitVec.toNat_inj, BitVec.toNat_umod, hnext]
    rfl
  unfold sDecode
  by_cases hl : d.maxTokens.toNat ≤ tok.toNat + 1
  · rw [if_pos (hlimit.mpr hl)]
    exact .inl ⟨by omega, rfl⟩
  · rw [if_neg (mt hlimit.mp hl)]
    by_cases hb : (tok.toNat + 1) % 32 = 0
    · rw [if_pos (hbound.mpr hb)]
      exact .inr (.inl ⟨by omega, hb, rfl⟩)
    · rw [if_neg (mt hbound.mp hb)]
      exact .inr (.inr ⟨by omega, hb, rfl⟩)

/-! ### One round -/

/-- The inputs of the worker in one clock cycle. -/
structure WorkerInput where
  inDesc : Desc
  inValid : Bool
  outReady : Bool

namespace Worker

/-- The worker after `n` cycles with the given inputs. -/
def run (s : Worker) (ins : ℕ → WorkerInput) : ℕ → Worker
  | 0 => s
  | n + 1 => (s.step (ins 0).inDesc (ins 0).inValid (ins 0).outReady).run (fun j => ins (j + 1)) n

/-- With the inputs `ins`, the worker accepts a descriptor in the first cycle, spends the next `n`
cycles in `S_DECODE`, and is then in `S_COMPLETE` with the completion `c`. -/
def CompletesAfter (s : Worker) (ins : ℕ → WorkerInput) (n : ℕ) (c : Comp) : Prop :=
  (∀ j < n, (s.run ins (j + 1)).state = .decode) ∧ (s.run ins (n + 1)).outValid = true ∧
    (s.run ins (n + 1)).outComp = c

theorem CompletesAfter.state {s : Worker} {ins : ℕ → WorkerInput} {n : ℕ} {c : Comp}
    (h : s.CompletesAfter ins n c) : (s.run ins (n + 1)).state = .complete := by
  simpa [outValid] using h.2.1

/-- The worker completes a descriptor once. -/
theorem CompletesAfter.unique {s : Worker} {ins : ℕ → WorkerInput} {n n' : ℕ} {c c' : Comp}
    (h : s.CompletesAfter ins n c) (h' : s.CompletesAfter ins n' c') : n = n' ∧ c = c' := by
  have hle : ∀ {n n' : ℕ} {c c' : Comp}, s.CompletesAfter ins n c → s.CompletesAfter ins n' c' →
      n ≤ n' := by
    intro n n' c c' h h'
    by_contra hlt
    have hdec := h.1 n' (by omega)
    rw [h'.state] at hdec
    cases hdec
  obtain rfl : n = n' := le_antisymm (hle h h') (hle h' h)
  exact ⟨rfl, h.2.2.symm.trans h'.2.2⟩

theorem step_idle_decode {s : Worker} (h : s.state = .idle) {d : Desc} (hd : d.opcode = descOpDecode)
    (r : Bool) : s.step d true r = ⟨.decode, d, s.compReg, d.seqLen⟩ := by
  simp [step, inReady, h, sIdle_decode hd]

/-- The worker at the end of a round. -/
def atStop (s : Worker) : Worker where
  state := .complete
  activeDesc := s.activeDesc
  compReg := s.activeDesc.completion
    (roundStatus s.activeDesc.maxTokens.toNat s.tokenCount.toNat)
    (.ofNat 16 (rewardStop s.activeDesc.maxTokens.toNat s.tokenCount.toNat))
  tokenCount := .ofNat 16 (rewardStop s.activeDesc.maxTokens.toNat s.tokenCount.toNat)

theorem step_decode_of_stop {s : Worker} (hs : s.state = .decode)
    (hlt : s.tokenCount < s.activeDesc.maxTokens)
    (hstop : rewardStop s.activeDesc.maxTokens.toNat s.tokenCount.toNat = s.tokenCount.toNat + 1)
    (i : Desc) (v r : Bool) : s.step i v r = s.atStop := by
  have htok := ofNat_toNat_add_one s.tokenCount
  unfold atStop roundStatus
  obtain ⟨hm, hd⟩ | ⟨hm, h32, hd⟩ | ⟨hm, h32, hd⟩ := sDecode_cases hlt
  · rw [step_decode_some hs hd, hstop, if_pos hm, htok]
  · rw [step_decode_some hs hd, hstop, if_neg (by omega), htok]
  · -- the round would end where it goes on
    have hnext := lt_rewardStop hm
    rw [rewardStop_succ hm h32, hstop] at hnext
    exact absurd hnext (lt_irrefl _)

/-- The cycles of a round from one in which the worker counts tokens. The induction is on the number of
cycles; a cycle that does not end the round leaves its end where it is. -/
theorem run_decode {s : Worker} (hs : s.state = .decode)
    (hlt : s.tokenCount < s.activeDesc.maxTokens) (ins : ℕ → WorkerInput) {n : ℕ}
    (hn : rewardStop s.activeDesc.maxTokens.toNat s.tokenCount.toNat = s.tokenCount.toNat + n + 1) :
    (∀ j < n + 1, (s.run ins j).state = .decode) ∧ s.run ins (n + 1) = s.atStop := by
  induction n generalizing s ins with
  | zero =>
    refine ⟨fun j hj => ?_, step_decode_of_stop hs hlt hn _ _ _⟩
    obtain rfl : j = 0 := by omega
    exact hs
  | succ n ih =>
    obtain ⟨hm, -⟩ | ⟨hm, h32, -⟩ | ⟨hm, h32, hd⟩ := sDecode_cases hlt
    · rw [rewardStop_of_limit hm] at hn
      omega
    · rw [rewardStop_of_boundary hm h32] at hn
      omega
    · have hstep := step_decode_none hs hd (ins 0).inDesc (ins 0).inValid (ins 0).outReady
      have hnext := toNat_add_one_of_lt hlt
      have hstop := rewardStop_succ hm h32
      have hlt' : s.tokenCount + 1 < s.activeDesc.maxTokens := by
        rw [BitVec.lt_def, hnext]
        exact hm
      obtain ⟨hdec, hend⟩ := ih (s := { s with tokenCount := s.tokenCount + 1 }) hs hlt'
        (fun j => ins (j + 1)) (by rw [hnext, hstop, hn]; omega)
      refine ⟨fun j hj => ?_, ?_⟩
      · cases j with
        | zero => exact hs
        | succ j =>
          rw [run, hstep]
          exact hdec j (by omega)
      · rw [run, hstep, hend]
        simp only [atStop, roundStatus, hnext, hstop]

/-- **One round of the state machine.** An idle worker that is offered a decode request with room for a
token spends one cycle in `S_DECODE` for each token up to the end of the round and reports there,
whatever stands on its inputs after the first cycle. -/
theorem completesAfter_of_lt {s : Worker} (hs : s.state = .idle) {d : Desc}
    (hd : d.opcode = descOpDecode) (hlt : d.seqLen < d.maxTokens) {ins : ℕ → WorkerInput}
    (hoffer : (ins 0).inDesc = d ∧ (ins 0).inValid = true) :
    s.CompletesAfter ins (rewardStop d.maxTokens.toNat d.seqLen.toNat - d.seqLen.toNat)
      (d.completion (roundStatus d.maxTokens.toNat d.seqLen.toNat)
        (.ofNat 16 (rewardStop d.maxTokens.toNat d.seqLen.toNat))) ∧
    (s.run ins (rewardStop d.maxTokens.toNat d.seqLen.toNat - d.seqLen.toNat + 1)).activeDesc = d := by
  have hfirst : s.step (ins 0).inDesc (ins 0).inValid (ins 0).outReady =
      ⟨.decode, d, s.compReg, d.seqLen⟩ := by
    rw [hoffer.1, hoffer.2, step_idle_decode hs hd]
  obtain ⟨n, hn⟩ := Nat.exists_eq_add_of_lt (lt_rewardStop (show d.seqLen.toNat < _ from hlt))
  obtain ⟨hdec, hend⟩ := run_decode (s := ⟨.decode, d, s.compReg, d.seqLen⟩) rfl hlt
    (fun j => ins (j + 1)) hn
  have hcycles : rewardStop d.maxTokens.toNat d.seqLen.toNat - d.seqLen.toNat = n + 1 := by omega
  have hrun : s.run ins (n + 1 + 1) = atStop ⟨.decode, d, s.compReg, d.seqLen⟩ := by
    rw [run, hfirst, hend]
  rw [hcycles]
  refine ⟨⟨fun j hj => ?_, ?_, ?_⟩, ?_⟩
  · rw [run, hfirst]
    exact hdec j hj
  · rw [hrun]
    rfl
  · rw [hrun]
    rfl
  · rw [hrun]
    rfl

end Worker

/-! ### At the limit -/

/-- At or above the limit `S_DECODE` counts one token and reports: a count that is below the limit again
has wrapped to zero, a multiple of 32. -/
theorem sDecode_of_limit {d : Desc} {tok : BitVec 16} (h : d.maxTokens ≤ tok) :
    ∃ status, sDecode d tok = some (d.completion status (tok + 1)) ∧
      (tok ≠ 0xFFFF → status = compStatusDone) := by
  unfold sDecode
  by_cases hl : tok + 1 ≥ d.maxTokens
  · rw [if_pos hl]
    exact ⟨_, rfl, fun _ => rfl⟩
  · have hwrap : tok = 0xFFFF := by bv_omega
    rw [if_neg hl, if_pos (by rw [hwrap]; decide)]
    exact ⟨_, rfl, fun hne => absurd hwrap hne⟩

namespace Worker

variable {s : Worker} {d : Desc} {ins : ℕ → WorkerInput}

/-- A decode request without room for a token is answered after one cycle in `S_DECODE`. -/
theorem completesAfter_of_limit (hs : s.state = .idle) (hd : d.opcode = descOpDecode)
    (hle : d.maxTokens ≤ d.seqLen) (hoffer : (ins 0).inDesc = d ∧ (ins 0).inValid = true) :
    ∃ status, s.CompletesAfter ins 1 (d.completion status (d.seqLen + 1)) ∧
      (d.seqLen ≠ 0xFFFF → status = compStatusDone) := by
  obtain ⟨status, hdec, hdone⟩ := sDecode_of_limit hle
  have hfirst : s.run ins 1 = ⟨.decode, d, s.compReg, d.seqLen⟩ := by
    rw [run, hoffer.1, hoffer.2, step_idle_decode hs hd, run]
  have hsecond : s.run ins 2 =
      ⟨.complete, d, d.completion status (d.seqLen + 1), d.seqLen + 1⟩ := by
    rw [run, hoffer.1, hoffer.2, step_idle_decode hs hd, run, run]
    exact step_decode_some (s := ⟨.decode, d, s.compReg, d.seqLen⟩) rfl hdec _ _ _
  refine ⟨status, ⟨fun j hj => ?_, ?_, ?_⟩, hdone⟩
  · obtain rfl : j = 0 := by omega
    rw [hfirst]
  · rw [hsecond]
    rfl
  · rw [hsecond]
    rfl

/-- The worker completes `d`, its length does not go back, and it is done if at most one token was
left. -/
def Advances (s : Worker) (ins : ℕ → WorkerInput) (d : Desc) : Prop :=
  ∃ n c, s.CompletesAfter ins n c ∧ d.seqLen.toNat ≤ c.finalSeqLen.toNat ∧
    (d.maxTokens.toNat ≤ d.seqLen.toNat + 1 → c.status = compStatusDone)

theorem not_advances_of_wrap (hs : s.state = .idle) (hd : d.opcode = descOpDecode)
    (hlen : d.seqLen = 0xFFFF) (hoffer : (ins 0).inDesc = d ∧ (ins 0).inValid = true) :
    ¬ s.Advances ins d := by
  have hle : d.maxTokens ≤ d.seqLen := by
    rw [hlen]
    bv_omega
  rintro ⟨n, c, hc, hlen', -⟩
  obtain ⟨status, hc', -⟩ := completesAfter_of_limit hs hd hle hoffer
  obtain ⟨-, rfl⟩ := hc.unique hc'
  simp only [Desc.completion, hlen] at hlen'
  exact absurd hlen' (by decide)

/-- **The length goes forward.** A decode request accepted by an idle worker is completed without going
back, and as done if at most one token was left, exactly if its length is not the largest one. -/
theorem advances_iff (s : Worker) (hs : s.state = .idle) (d : Desc) (hd : d.opcode = descOpDecode)
    (ins : ℕ → WorkerInput) (hoffer : (ins 0).inDesc = d ∧ (ins 0).inValid = true) :
    s.Advances ins d ↔ d.seqLen ≠ 0xFFFF := by
  refine ⟨fun h hlen => not_advances_of_wrap hs hd hlen hoffer h, fun hne => ?_⟩
  by_cases hlt : d.seqLen < d.maxTokens
  · have hlt' : d.seqLen.toNat < d.maxTokens.toNat := hlt
    have hstop := rewardStop_le d.maxTokens.toNat d.seqLen.toNat
    have hlen : (BitVec.ofNat 16 (rewardStop d.maxTokens.toNat d.seqLen.toNat)).toNat =
        rewardStop d.maxTokens.toNat d.seqLen.toNat := by
      rw [BitVec.toNat_ofNat]
      exact Nat.mod_eq_of_lt (hstop.trans_lt d.maxTokens.isLt)
    refine ⟨_, _, (completesAfter_of_lt hs hd hlt hoffer).1, ?_, fun hlast => ?_⟩
    · exact (lt_rewardStop hlt').le.trans_eq hlen.symm
    · have hm : d.seqLen.toNat + 1 = d.maxTokens.toNat := by omega
      exact if_pos ((rewardStop_of_limit hm).trans hm)
  · obtain ⟨status, hc, hdone⟩ := completesAfter_of_limit hs hd (BitVec.not_lt.mp hlt) hoffer
    refine ⟨_, _, hc, ?_, fun _ => hdone hne⟩
    have hnext : (d.seqLen + 1).toNat = d.seqLen.toNat + 1 := by bv_omega
    exact (Nat.le_succ _).trans_eq hnext.symm

/-- A request for ten more tokens, at a worker out of reset. -/
theorem advances_thirty_forty :
    reset.Advances (fun _ => ⟨⟨descOpDecode, 0, 7, 0, 0, 0, 0, 30, 40, 3, 0⟩, true, false⟩)
      ⟨descOpDecode, 0, 7, 0, 0, 0, 0, 30, 40, 3, 0⟩ :=
  (advances_iff reset rfl _ rfl _ ⟨rfl, rfl⟩).mpr (by decide)

/-- The request of the boundary test, with all of the narrow fields at their largest value: the length
goes back to zero and a reward is asked for. -/
theorem not_advances_boundary :
    let d : Desc := ⟨descOpDecode, 0, 0xFFFF, 0xFFFF, 0xFFFF, 0xFFFFFFFF, 0xFFFFFFFF, 0xFFFF, 0xFFFF,
      0xFFFF, 0⟩
    reset.inReady = true ∧ d.opcode = descOpDecode ∧
      reset.CompletesAfter (fun _ => ⟨d, true, false⟩) 1
        ⟨0xFFFF, compStatusRewardNeeded, 0, 0xFFFF⟩ ∧
      ¬ reset.Advances (fun _ => ⟨d, true, false⟩) d := by
  refine ⟨rfl, rfl, ⟨fun j hj => ?_, by decide, by decide⟩,
    not_advances_of_wrap rfl rfl rfl ⟨rfl, rfl⟩⟩
  obtain rfl : j = 0 := by omega
  decide

end Worker

/-! ### All rounds -/

/-- The part of the host in one cycle: whether it offers the descriptor it has to submit, whether it
takes a completion, and what stands on the descriptor input while it has nothing to submit. -/
structure HostCycle where
  offer : Bool
  take : Bool
  inDesc : Desc

/-- The host stalls neither handshake. -/
def HostCycle.active (i : HostCycle) : Bool := i.offer && i.take

/-- The worker with a host that submits one request again and again: the length it has to submit next,
the rounds completed, the cycles spent in `S_DECODE`, and the completion that asked for no reward. -/
structure Resubmission where
  worker : Worker
  next : Option (BitVec 16)
  rounds : ℕ
  decodeCycles : ℕ
  result : Option Comp

namespace Resubmission

/-- The host has the request `d` still to submit. -/
def start (s : Worker) (d : Desc) : Resubmission := ⟨s, some d.seqLen, 0, 0, none⟩

/-- One clock cycle. A completion that needs a reward is answered by the request `d` with the length it
returned. -/
def step (d : Desc) (r : Resubmission) (i : HostCycle) : Resubmission :=
  let inDesc := (r.next.map fun len => { d with seqLen := len }).getD i.inDesc
  let inValid := i.offer && r.next.isSome
  let taken := r.worker.outValid && i.take
  let needsReward := r.worker.outComp.status = compStatusRewardNeeded
  { worker := r.worker.step inDesc inValid i.take
    next :=
      if inValid && r.worker.inReady then none
      else if taken && needsReward then some r.worker.outComp.finalSeqLen
      else r.next
    rounds := if taken then r.rounds + 1 else r.rounds
    decodeCycles := if r.worker.state = .decode then r.decodeCycles + 1 else r.decodeCycles
    result := if taken && !needsReward then some r.worker.outComp else r.result }

/-- A sequence of clock cycles. -/
def run (d : Desc) (r : Resubmission) (is : List HostCycle) : Resubmission := is.foldl (step d) r

variable (d : Desc) (R T : ℕ)

/-- Where a resubmission stands on the way to `R` rounds and `T` tokens, with the cycles it still needs
if the host does not stall. -/
inductive Pending : Resubmission → ℕ → Prop
  | waiting {s : Worker} {len : BitVec 16} {k t : ℕ} (hs : s.state = .idle)
      (hlt : len < d.maxTokens) (hk : k + rewardRounds d.maxTokens.toNat len.toNat = R)
      (ht : t + (d.maxTokens.toNat - len.toNat) = T) :
      Pending ⟨s, some len, k, t, none⟩
        (2 * rewardRounds d.maxTokens.toNat len.toNat + (d.maxTokens.toNat - len.toNat))
  | decoding {c : Comp} {len tok : BitVec 16} {k t : ℕ} (hlt : tok < d.maxTokens)
      (hk : k + rewardRounds d.maxTokens.toNat tok.toNat = R)
      (ht : t + (d.maxTokens.toNat - tok.toNat) = T) :
      Pending ⟨⟨.decode, { d with seqLen := len }, c, tok⟩, none, k, t, none⟩
        (2 * rewardRounds d.maxTokens.toNat tok.toNat - 1 + (d.maxTokens.toNat - tok.toNat))
  | boundary {s : Worker} {len : BitVec 16} {k t : ℕ} (hs : s.state = .complete)
      (hc : s.compReg = d.completion compStatusRewardNeeded len) (hlt : len < d.maxTokens)
      (hk : k + 1 + rewardRounds d.maxTokens.toNat len.toNat = R)
      (ht : t + (d.maxTokens.toNat - len.toNat) = T) :
      Pending ⟨s, none, k, t, none⟩
        (2 * rewardRounds d.maxTokens.toNat len.toNat + (d.maxTokens.toNat - len.toNat) + 1)
  | last {s : Worker} {k : ℕ} (hs : s.state = .complete)
      (hc : s.compReg = d.completion compStatusDone d.maxTokens) (hk : k + 1 = R) :
      Pending ⟨s, none, k, T, none⟩ 1
  | finished {s : Worker} (hs : s.state = .idle) :
      Pending ⟨s, none, R, T, some (d.completion compStatusDone d.maxTokens)⟩ 0

variable {d R T}

theorem pending_step_decoding {c : Comp} {len tok : BitVec 16} {k t : ℕ} (hlt : tok < d.maxTokens)
    (hk : k + rewardRounds d.maxTokens.toNat tok.toNat = R)
    (ht : t + (d.maxTokens.toNat - tok.toNat) = T) (i : HostCycle) :
    ∃ n, Pending d R T
        (step d ⟨⟨.decode, { d with seqLen := len }, c, tok⟩, none, k, t, none⟩ i) n ∧
      n + 1 = 2 * rewardRounds d.maxTokens.toNat tok.toNat - 1 + (d.maxTokens.toNat - tok.toNat) := by
  have hnext := toNat_add_one_of_lt hlt
  have hstep : step d ⟨⟨.decode, { d with seqLen := len }, c, tok⟩, none, k, t, none⟩ i =
      ⟨Worker.step ⟨.decode, { d with seqLen := len }, c, tok⟩ i.inDesc false i.take, none, k, t + 1,
        none⟩ := by
    simp [step, Worker.outValid]
  rw [hstep]
  obtain ⟨hm, hd⟩ | ⟨hm, h32, hd⟩ | ⟨hm, h32, hd⟩ :=
    sDecode_cases (d := { d with seqLen := len }) hlt
  · have hm : tok.toNat + 1 = d.maxTokens.toNat := hm
    rw [Worker.step_decode_some rfl hd]
    have htok : tok + 1 = d.maxTokens := BitVec.eq_of_toNat_eq (hnext.trans hm)
    obtain rfl : t + 1 = T := by
      rw [← ht, ← hm]
      omega
    refine ⟨1, .last rfl (by rw [htok]; rfl) ?_, ?_⟩
    · rw [← hk, rewardRounds_of_limit hm]
    · rw [rewardRounds_of_limit hm, ← hm]
      omega
  · have hm : tok.toNat + 1 < d.maxTokens.toNat := hm
    rw [Worker.step_decode_some rfl hd]
    have hround := rewardRounds_of_boundary hm h32
    refine ⟨_, .boundary rfl rfl ?_ ?_ ?_, ?_⟩
    · rw [BitVec.lt_def, hnext]
      exact hm
    · rw [← hk, hround, hnext]
      omega
    · rw [← ht, hnext]
      omega
    · rw [hround, hnext]
      omega
  · have hm : tok.toNat + 1 < d.maxTokens.toNat := hm
    rw [Worker.step_decode_none rfl hd]
    have hround := rewardRounds_succ hm h32
    refine ⟨_, .decoding ?_ ?_ ?_, ?_⟩
    · rw [BitVec.lt_def, hnext]
      exact hm
    · rw [← hk, hnext, hround]
    · rw [← ht, hnext]
      omega
    · rw [hnext, hround]
      have hpos := rewardRounds_pos d.maxTokens.toNat tok.toNat
      omega

theorem step_of_idle {s : Worker} {next : Option (BitVec 16)} {k t : ℕ} {result : Option Comp}
    {i : HostCycle} (hs : s.state = .idle) (hoffer : (i.offer && next.isSome) = false) :
    step d ⟨s, next, k, t, result⟩ i = ⟨s, next, k, t, result⟩ := by
  simp [step, hoffer, Worker.step, Worker.outValid, hs]

/-- A completion stays as it is while the host does not take it. -/
theorem step_of_not_taken {s : Worker} {k t : ℕ} {i : HostCycle} (hs : s.state = .complete)
    (htake : i.take = false) : step d ⟨s, none, k, t, none⟩ i = ⟨s, none, k, t, none⟩ := by
  simp [step, htake, Worker.step, hs]

/-- One cycle brings a resubmission nearer to its end, unless the host stalls. -/
theorem Pending.step {r : Resubmission} {n : ℕ} (h : Pending d R T r n) (hd : d.opcode = descOpDecode)
    (i : HostCycle) :
    ∃ n', Pending d R T (r.step d i) n' ∧ n' ≤ n ∧ (i.active = true → n' ≤ n - 1) := by
  cases h with
  | @waiting s len k t hs hlt hk ht =>
    cases hoffer : i.offer with
    | false =>
      rw [step_of_idle hs (by simp [hoffer])]
      exact ⟨_, .waiting hs hlt hk ht, le_rfl, by simp [HostCycle.active, hoffer]⟩
    | true =>
      have hstep : Resubmission.step d ⟨s, some len, k, t, none⟩ i =
          ⟨⟨.decode, { d with seqLen := len }, s.compReg, len⟩, none, k, t, none⟩ := by
        have hworker := Worker.step_idle_decode hs (d := { d with seqLen := len }) hd i.take
        simp [Resubmission.step, hoffer, hworker, Worker.inReady, Worker.outValid, hs]
      rw [hstep]
      have hpos := rewardRounds_pos d.maxTokens.toNat len.toNat
      exact ⟨_, .decoding hlt hk ht, by omega, fun _ => by omega⟩
  | decoding hlt hk ht =>
    obtain ⟨n', hn', hlen⟩ := pending_step_decoding hlt hk ht i
    exact ⟨n', hn', by omega, fun _ => by omega⟩
  | @boundary s len k t hs hc hlt hk ht =>
    cases htake : i.take with
    | false =>
      rw [step_of_not_taken hs htake]
      exact ⟨_, .boundary hs hc hlt hk ht, le_rfl, by simp [HostCycle.active, htake]⟩
    | true =>
      have hstep : Resubmission.step d ⟨s, none, k, t, none⟩ i =
          ⟨{ s with state := .idle }, some len, k + 1, t, none⟩ := by
        simp [Resubmission.step, htake, Worker.step, Worker.outValid, Worker.outComp, hs, hc,
          Desc.completion]
      rw [hstep]
      exact ⟨_, .waiting rfl hlt hk ht, by omega, fun _ => by omega⟩
  | @last s k hs hc hk =>
    cases htake : i.take with
    | false =>
      rw [step_of_not_taken hs htake]
      exact ⟨_, .last hs hc hk, le_rfl, by simp [HostCycle.active, htake]⟩
    | true =>
      have hne : compStatusDone ≠ compStatusRewardNeeded := by decide
      have hstep : Resubmission.step d ⟨s, none, k, T, none⟩ i =
          ⟨{ s with state := .idle }, none, k + 1, T,
            some (d.completion compStatusDone d.maxTokens)⟩ := by
        simp [Resubmission.step, htake, Worker.step, Worker.outValid, Worker.outComp, hs, hc,
          Desc.completion, hne]
      rw [hstep, hk]
      exact ⟨_, .finished rfl, by omega, fun _ => le_rfl⟩
  | @finished s hs =>
    rw [step_of_idle hs (by simp)]
    exact ⟨_, .finished hs, le_rfl, fun _ => le_rfl⟩

/-- A sequence of cycles, each cycle without a stall being one less to go. -/
theorem Pending.run {r : Resubmission} {n : ℕ} (h : Pending d R T r n) (hd : d.opcode = descOpDecode)
    (is : List HostCycle) :
    ∃ n', Pending d R T (r.run d is) n' ∧ n' ≤ n - is.countP HostCycle.active := by
  induction is generalizing r n with
  | nil => exact ⟨n, h, le_rfl⟩
  | cons i is ih =>
    obtain ⟨n₁, h₁, hle, hactive⟩ := h.step hd i
    obtain ⟨n₂, h₂, hle₂⟩ := ih h₁
    refine ⟨n₂, h₂, hle₂.trans ?_⟩
    by_cases hi : i.active = true
    · rw [List.countP_cons_of_pos hi]
      have := hactive hi
      omega
    · rw [List.countP_cons_of_neg hi]
      omega

theorem Pending.result {r : Resubmission} {n : ℕ} (h : Pending d R T r n) {c : Comp}
    (hc : r.result = some c) :
    c = d.completion compStatusDone d.maxTokens ∧ r.rounds = R ∧ r.decodeCycles = T := by
  cases h with
  | finished hs => exact ⟨(Option.some.inj hc).symm, rfl, rfl⟩
  | waiting | decoding | boundary | last => cases hc

/-- A resubmission with nothing to do has its result. -/
theorem Pending.isSome {r : Resubmission} (h : Pending d R T r 0) : r.result.isSome = true := by
  generalize hn : 0 = n at h
  cases h with
  | finished hs => rfl
  | @waiting _ len =>
    have hpos := rewardRounds_pos d.maxTokens.toNat len.toNat
    omega
  | @decoding _ _ tok =>
    have hpos := rewardRounds_pos d.maxTokens.toNat tok.toNat
    omega
  | boundary | last => omega

/-- **All rounds of the state machine.** However the host stalls, a result is the completion at the
limit, as done, after the rounds and the cycles in `S_DECODE` there were to go; and once the host has
let through two cycles for each round and one for each token there is a result. -/
theorem resubmitted (s : Worker) (hs : s.state = .idle) (d : Desc) (hd : d.opcode = descOpDecode)
    (hlt : d.seqLen < d.maxTokens) (is : List HostCycle) :
    let r := (start s d).run d is
    let rounds := rewardRounds d.maxTokens.toNat d.seqLen.toNat
    let tokens := d.maxTokens.toNat - d.seqLen.toNat
    (∀ c, r.result = some c → c = d.completion compStatusDone d.maxTokens ∧ r.rounds = rounds ∧
      r.decodeCycles = tokens) ∧
    (2 * rounds + tokens ≤ is.countP HostCycle.active → r.result.isSome = true) := by
  intro r rounds tokens
  have hstart : Pending d rounds tokens (start s d) (2 * rounds + tokens) :=
    .waiting hs hlt (Nat.zero_add _) (Nat.zero_add _)
  obtain ⟨n, hn, hle⟩ := hstart.run hd is
  refine ⟨fun c hc => hn.result hc, fun hactive => ?_⟩
  obtain rfl : n = 0 := by omega
  exact hn.isSome

end Resubmission

end Rtl

end RolloutRuntime
