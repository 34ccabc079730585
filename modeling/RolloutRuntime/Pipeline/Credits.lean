import RolloutRuntime.Pipeline.Queues

/-!
# Credits

A gate counts the credits used: an admission takes one, a release returns some. If ids enter a gated
stage only by admission, and credits are released only for ids that were taken out and not released
before, then the credits used are the ids in the queue and those taken out and not released, and they
stay within the limit.

The credits left are also reported to the callers. A limit of zero means no limit at an admission, but
no credits in the report: the report is what admission honours exactly if the limit is not zero, or the
queue is full anyway.

## Main definitions

* `Account`: the pipeline with the ids taken out of a gated stage and the credits released.
* `Account.Conserved`: the credits used are the ids in the stage.
* `Admits`: exactly so many consecutive admissions succeed.

## Main results

* `gate_credits_conserved`: in every run of callers that keep the rules, the credits are conserved.
* `gate_honours_headroom_iff`: the credits reported are those that admission honours exactly if the
  limit is not zero or the queue is full.

## References

* `src/pipeline.c` lines 70–129 and 208–235, `docs/architecture.md` lines 122–143.
-/

namespace RolloutRuntime

open RingBuffer

/-! ### Occupancy -/

section Occupancy

variable {p : RolloutPipeline} {q : Stage}

/-- The number of ids in a queue. -/
def RolloutPipeline.inQueue (p : RolloutPipeline) (q : Stage) : ℕ :=
  (pipelineOccupancy p (some q)).toNat

theorem inQueue_eq (hr : (p.queues q).Inv) :
    p.inQueue q = (p.queues q).published.length - (p.queues q).taken.length :=
  Contents.occupancy hr (by decide)

theorem inQueue_le (hr : (p.queues q).Inv) : p.inQueue q ≤ 4096 := by
  have hbound := Contents.bound hr
  rw [inQueue_eq hr]
  omega

theorem full_iff (hr : (p.queues q).Inv) : p.full q = true ↔ p.inQueue q = 4096 := by
  have hle := inQueue_le hr
  have hsub : (BitVec.ofNat 32 (2 ^ 12) - ((p.queues q).prod - (p.queues q).cons)).toNat =
      4096 - p.inQueue q :=
    BitVec.toNat_sub_of_le hle
  rw [RolloutPipeline.full, spaceTest, decide_eq_true_iff, BitVec.lt_def, hsub]
  change 4096 - p.inQueue q < 1 ↔ _
  omega

theorem inQueue_pushed (hr : (p.queues q).Inv) (hroom : p.full q = false) (id : BitVec 32) :
    (p.pushed q id).inQueue q = p.inQueue q + 1 := by
  obtain ⟨hinv, hpub, htaken⟩ := pushed_queue hr hroom id
  have hle := Contents.length_le hr
  rw [inQueue_eq hinv, inQueue_eq hr, hpub, htaken, List.length_append, List.length_singleton]
  omega

theorem inQueue_popped (hr : (p.queues q).Inv) (hne : p.drained q = false) :
    (p.popped q).inQueue q + 1 = p.inQueue q := by
  obtain ⟨hinv, hpub, htaken⟩ := popped_queue hr hne
  have hle := Contents.length_le hinv
  rw [inQueue_eq hinv, inQueue_eq hr, hpub, htaken, List.length_append, List.length_singleton]
  rw [hpub, htaken, List.length_append, List.length_singleton] at hle
  omega

end Occupancy

/-! ### Conservation -/

/-- The credits that a call with this reply released at a gate. -/
def releasedAt (g : Gate) : PipelineCall × Reply → ℕ
  | (.release q n, .ok) => if q = some g.stage then n.toNat else 0
  | _ => 0

/-- The pipeline with the number of ids taken out of a gated stage and of the credits released there. -/
structure Account where
  pipeline : RolloutPipeline
  taken : ℕ
  released : ℕ

namespace Account

/-- The account after one call. -/
def step (g : Gate) (s : Account) (c : PipelineCall) : Account :=
  let x := pipelineCall s.pipeline c
  ⟨x.2, s.taken + (takenFrom g.stage (c, x.1)).length, s.released + releasedAt g (c, x.1)⟩

/-- The rules for the callers of a gated stage: ids enter it only by admission, the limits stay as they
are, and credits are released only for ids taken out and not released before. -/
def Permits (g : Gate) (s : Account) : PipelineCall → Prop
  | .push q _ => q ≠ some g.stage
  | .creditsSet _ _ _ _ => False
  | .release q n => q = some g.stage → n.toNat ≤ s.taken - s.released
  | _ => True

/-- The callers keep the rules in a run of calls. -/
def Disciplined (g : Gate) : Account → List PipelineCall → Prop
  | _, [] => True
  | s, c :: cs => s.Permits g c ∧ (s.step g c).Disciplined g cs

/-- The credits used are the ids in the queue and those taken out and not released, within the limit. -/
structure Conserved (g : Gate) (M : BitVec 32) (s : Account) : Prop where
  ring : (s.pipeline.queues g.stage).Inv
  limit : s.pipeline.credits.max g = M
  released_le : s.released ≤ s.taken
  used : (s.pipeline.credits.used g).toNat = s.pipeline.inQueue g.stage + (s.taken - s.released)
  used_le : (s.pipeline.credits.used g).toNat ≤ M.toNat

variable {g : Gate} {M : BitVec 32} {s : Account} {c : PipelineCall}

/-- A call that touches neither the queue nor the credits of the gate keeps the account. -/
theorem Conserved.of_eq (h : s.Conserved g M) {p : RolloutPipeline}
    (hqueue : p.queues g.stage = s.pipeline.queues g.stage)
    (hmax : p.credits.max g = s.pipeline.credits.max g)
    (hused : p.credits.used g = s.pipeline.credits.used g) :
    Conserved g M ⟨p, s.taken, s.released⟩ := by
  have hin : p.inQueue g.stage = s.pipeline.inQueue g.stage := by
    simp only [RolloutPipeline.inQueue, pipelineOccupancy, hqueue]
  refine ⟨hqueue ▸ h.ring, hmax.trans h.limit, h.released_le, ?_, ?_⟩
  · rw [hused, hin]
    exact h.used
  · rw [hused]
    exact h.used_le

/-- An admission takes a credit. -/
theorem Conserved.enter (hM : M ≠ 0) (h : s.Conserved g M) (id : BitVec 32)
    (hcredit : s.pipeline.credits.max g = 0 ∨
      s.pipeline.credits.used g < s.pipeline.credits.max g)
    (hroom : s.pipeline.full g.stage = false) :
    Conserved g M ⟨{ s.pipeline.pushed g.stage id with
      credits := s.pipeline.credits.setUsed g (s.pipeline.credits.used g + 1) },
      s.taken, s.released⟩ := by
  rw [h.limit] at hcredit
  have hlt := hcredit.resolve_left hM
  have hlt' : (s.pipeline.credits.used g).toNat < M.toNat := hlt
  have hsucc := toNat_add_one_of_lt hlt
  refine ⟨(pushed_queue h.ring hroom id).1, ?_, h.released_le, ?_, ?_⟩
  · rw [PipelineCredits.max_setUsed]
    exact h.limit
  · have hin := inQueue_pushed h.ring hroom id
    have hused := h.used
    rw [PipelineCredits.used_setUsed, hsucc]
    change _ = (s.pipeline.pushed g.stage id).inQueue g.stage + (s.taken - s.released)
    omega
  · rw [PipelineCredits.used_setUsed, hsucc]
    exact hlt'

theorem Conserved.pop (h : s.Conserved g M) (hne : s.pipeline.drained g.stage = false) :
    Conserved g M ⟨s.pipeline.popped g.stage, s.taken + 1, s.released⟩ := by
  have hle := h.released_le
  refine ⟨(popped_queue h.ring hne).1, h.limit, Nat.le_succ_of_le hle, ?_, h.used_le⟩
  have hin := inQueue_popped h.ring hne
  have hused := h.used
  change (s.pipeline.credits.used g).toNat =
    (s.pipeline.popped g.stage).inQueue g.stage + (s.taken + 1 - s.released)
  omega

/-- A release returns the credits of ids that were taken out. -/
theorem Conserved.release (h : s.Conserved g M) {n : BitVec 32} (hn : n.toNat ≤ s.taken - s.released) :
    Conserved g M ⟨{ s.pipeline with
      credits := s.pipeline.credits.setUsed g (releaseCredits (s.pipeline.credits.used g) n) },
      s.taken, s.released + n.toNat⟩ := by
  have hused := h.used
  have hused_le := h.used_le
  have hreleased := h.released_le
  have hle : n ≤ s.pipeline.credits.used g := by
    rw [BitVec.le_def]
    omega
  have hrel : (releaseCredits (s.pipeline.credits.used g) n).toNat =
      (s.pipeline.credits.used g).toNat - n.toNat := by
    rw [releaseCredits, if_neg (BitVec.not_lt.mpr hle)]
    exact BitVec.toNat_sub_of_le hle
  refine ⟨h.ring, ?_, ?_, ?_, ?_⟩
  · rw [PipelineCredits.max_setUsed]
    exact h.limit
  · change s.released + n.toNat ≤ s.taken
    omega
  · rw [PipelineCredits.used_setUsed, hrel]
    change _ = s.pipeline.inQueue g.stage + (s.taken - (s.released + n.toNat))
    omega
  · rw [PipelineCredits.used_setUsed, hrel]
    omega

theorem Conserved.step (hM : M ≠ 0) (h : s.Conserved g M) (hc : s.Permits g c) :
    (s.step g c).Conserved g M := by
  have hstep := pipelineCall_step s.pipeline c
  rw [Account.step]
  generalize (pipelineCall s.pipeline c).1 = r at hstep ⊢
  generalize (pipelineCall s.pipeline c).2 = p' at hstep ⊢
  -- a call about another stage changes nothing of this gate
  have hother : ∀ q : Stage, q ≠ g.stage → ¬ some q = some g.stage :=
    fun q hq h => hq (Option.some_inj.mp h)
  cases hstep with
  | refused => cases c <;> exact h
  | push q id hroom =>
    have hq : g.stage ≠ q := fun h => hc (congrArg some h.symm)
    exact h.of_eq (s.pipeline.pushed_queues_of_ne hq id) rfl rfl
  | pass q id hq hroom => exact h.of_eq (s.pipeline.pushed_queues_of_ne (hq g).symm id) rfl rfl
  | enter g' id hcredit hroom =>
    by_cases hg : g' = g
    · subst hg
      exact h.enter hM id hcredit hroom
    · have hq : g.stage ≠ g'.stage := fun h => hg (Gate.stage_injective h.symm)
      refine h.of_eq (s.pipeline.pushed_queues_of_ne hq id) ?_ ?_
      · exact PipelineCredits.max_setUsed _ _ _ _
      · exact PipelineCredits.used_setUsed_of_ne _ (Ne.symm hg) _
  | pop q hne | schedule q _ hne =>
    simp only [takenFrom, releasedAt]
    by_cases hq : q = g.stage
    · subst hq
      rw [if_pos rfl]
      exact h.pop hne
    · rw [if_neg (hother q hq)]
      exact h.of_eq (s.pipeline.popped_queues_of_ne (Ne.symm hq)) rfl rfl
  | release g' n =>
    simp only [takenFrom, releasedAt]
    by_cases hg : g' = g
    · subst hg
      rw [if_pos rfl]
      exact h.release (hc rfl)
    · rw [if_neg (hother _ fun h => hg (Gate.stage_injective h))]
      refine h.of_eq rfl ?_ ?_
      · exact PipelineCredits.max_setUsed _ _ _ _
      · exact PipelineCredits.used_setUsed_of_ne _ (Ne.symm hg) _
  | releaseNone q n hq =>
    simp only [takenFrom, releasedAt, if_neg (hq g)]
    exact h
  | creditsSet => exact hc.elim
  | setSchedulePolicy | storePolicy => exact h.of_eq rfl rfl rfl

theorem Conserved.run (hM : M ≠ 0) (cs : List PipelineCall) (h : s.Conserved g M)
    (hcs : s.Disciplined g cs) : (cs.foldl (Account.step g) s).Conserved g M := by
  induction cs generalizing s with
  | nil => exact h
  | cons c cs ih => exact ih (h.step hM hcs.1) hcs.2

/-- The account right after the limits are set. -/
def start (maxDecode maxReward maxTrajectory kvLimit : BitVec 32) : Account :=
  ⟨pipelineCreditsSet pipelineInit maxDecode maxReward maxTrajectory kvLimit, 0, 0⟩

theorem start_conserved (g : Gate) (maxDecode maxReward maxTrajectory kvLimit : BitVec 32) :
    (start maxDecode maxReward maxTrajectory kvLimit).Conserved g
      ((start maxDecode maxReward maxTrajectory kvLimit).pipeline.credits.max g) := by
  have hzero : ((start maxDecode maxReward maxTrajectory kvLimit).pipeline.credits.used g).toNat = 0 := by
    cases g <;> rfl
  refine ⟨Ring.zeroed_inv _, rfl, le_rfl, ?_, ?_⟩
  · rw [hzero, inQueue_eq (Ring.zeroed_inv _)]
    rfl
  · rw [hzero]
    exact Nat.zero_le _

/-- Within a limit of the size of the ring, an admission is refused exactly if the credits are used
up. -/
theorem Conserved.refused_iff (hM : M ≠ 0) (h : s.Conserved g M) (hsize : M.toNat ≤ 4096) (id : BitVec 32) :
    (pipelineTryPush s.pipeline (some g.stage) id).1 = false ↔
      (s.pipeline.credits.used g).toNat = M.toNat := by
  have hused := h.used
  have hused_le := h.used_le
  rw [pipelineTryPush_gate, h.limit]
  by_cases hfull : M ≠ 0 ∧ s.pipeline.credits.used g ≥ M
  · have hge : M.toNat ≤ (s.pipeline.credits.used g).toNat := hfull.2
    rw [if_pos hfull]
    simp only [true_iff]
    omega
  · have hlt : (s.pipeline.credits.used g).toNat < M.toNat := by
      by_contra hge
      exact hfull ⟨hM, not_lt.mp hge⟩
    have hroom : ¬ s.pipeline.full g.stage = true := by
      rw [full_iff h.ring]
      omega
    rw [if_neg hfull, if_neg hroom]
    simp only [Bool.true_eq_false, false_iff]
    omega

end Account

/-- **Credits are conserved.** In every run of callers that keep the rules, from the state in which the
limits were set, the credits used at a gate are the ids in its queue and those taken out and not
released, and stay within the limit. If the limit is at most the size of the ring, an admission fails
only for lack of credit. -/
theorem gate_credits_conserved (g : Gate) (maxDecode maxReward maxTrajectory kvLimit : BitVec 32)
    (hlimit : (Account.start maxDecode maxReward maxTrajectory kvLimit).pipeline.credits.max g ≠ 0)
    (cs : List PipelineCall)
    (hcs : (Account.start maxDecode maxReward maxTrajectory kvLimit).Disciplined g cs) :
    let M := (Account.start maxDecode maxReward maxTrajectory kvLimit).pipeline.credits.max g
    let s := cs.foldl (Account.step g) (Account.start maxDecode maxReward maxTrajectory kvLimit)
    s.released ≤ s.taken ∧
      (s.pipeline.credits.used g).toNat =
        (pipelineOccupancy s.pipeline (some g.stage)).toNat + (s.taken - s.released) ∧
      (s.pipeline.credits.used g).toNat ≤ M.toNat ∧
      (M.toNat ≤ 4096 → ∀ id, (pipelineTryPush s.pipeline (some g.stage) id).1 = false ↔
        (s.pipeline.credits.used g).toNat = M.toNat) := by
  intro M s
  have h : s.Conserved g M :=
    (Account.start_conserved g maxDecode maxReward maxTrajectory kvLimit).run hlimit cs hcs
  exact ⟨h.released_le, h.used, h.used_le, fun hsize id => h.refused_iff hlimit hsize id⟩

/-- Two rollouts admitted to a decode stage of two credits, one of them taken out and released. -/
theorem gate_credits_conserved_two :
    let cs : List PipelineCall := [.tryPush (some .decode) 7, .tryPush (some .decode) 8,
      .schedule (some .decode), .release (some .decode) 1]
    let s := cs.foldl (Account.step .decode) (Account.start 2 0 0 0)
    (s.pipeline.credits.used .decode).toNat =
      (pipelineOccupancy s.pipeline (some .decode)).toNat + (s.taken - s.released) :=
  (gate_credits_conserved .decode 2 0 0 0 (by decide)
    [.tryPush (some .decode) 7, .tryPush (some .decode) 8, .schedule (some .decode),
      .release (some .decode) 1]
    ⟨trivial, trivial, trivial, fun _ => by decide, trivial⟩).2.1

/-! ### Headroom -/

/-- The pipeline after `n` attempts to enter the ids of a sequence. -/
def tryPushes (p : RolloutPipeline) (q : Option Stage) (ids : ℕ → BitVec 32) : ℕ → RolloutPipeline
  | 0 => p
  | n + 1 => (pipelineTryPush (tryPushes p q ids n) q (ids n)).2

/-- Exactly `n` consecutive admissions succeed before the next one is refused, whatever the ids. -/
def Admits (p : RolloutPipeline) (q : Option Stage) (n : ℕ) : Prop :=
  ∀ ids : ℕ → BitVec 32, (∀ i < n, (pipelineTryPush (tryPushes p q ids i) q (ids i)).1 = true) ∧
    (pipelineTryPush (tryPushes p q ids n) q (ids n)).1 = false

section Admits

variable {p : RolloutPipeline} {q : Option Stage}

theorem tryPushes_succ (p : RolloutPipeline) (q : Option Stage) (ids : ℕ → BitVec 32) (n : ℕ) :
    tryPushes p q ids (n + 1) =
      tryPushes (pipelineTryPush p q (ids 0)).2 q (fun i => ids (i + 1)) n := by
  induction n with
  | zero => rfl
  | succ n ih =>
    rw [tryPushes, ih]
    rfl

theorem admits_zero (h : ∀ id, (pipelineTryPush p q id).1 = false) : Admits p q 0 :=
  fun ids => ⟨fun i hi => absurd hi (Nat.not_lt_zero i), h (ids 0)⟩

theorem admits_succ {n : ℕ} (h : ∀ id, (pipelineTryPush p q id).1 = true)
    (hn : ∀ id, Admits (pipelineTryPush p q id).2 q n) : Admits p q (n + 1) := by
  intro ids
  obtain ⟨haccept, hrefuse⟩ := hn (ids 0) fun i => ids (i + 1)
  refine ⟨fun i hi => ?_, ?_⟩
  · cases i with
    | zero => exact h (ids 0)
    | succ i =>
      rw [tryPushes_succ]
      exact haccept i (Nat.lt_of_succ_lt_succ hi)
  · rw [tryPushes_succ]
    exact hrefuse

theorem Admits.unique {m n : ℕ} (hm : Admits p q m) (hn : Admits p q n) : m = n := by
  obtain ⟨hm, hm'⟩ := hm fun _ => 0
  obtain ⟨hn, hn'⟩ := hn fun _ => 0
  rcases lt_trichotomy m n with hlt | rfl | hlt
  · exact absurd (hn m hlt) (by rw [hm']; decide)
  · rfl
  · exact absurd (hm n hlt) (by rw [hn']; decide)

/-- What admission honours: the room in the ring and, if the limit is not zero, the credits left. -/
def admissible (p : RolloutPipeline) (g : Gate) : ℕ :=
  if p.credits.max g = 0 then 4096 - p.inQueue g.stage
  else min ((p.credits.max g).toNat - (p.credits.used g).toNat) (4096 - p.inQueue g.stage)

/-- One admission: it is refused if nothing is admissible, and leaves one less admissible if it is
accepted. -/
theorem tryPush_admissible (g : Gate) (hr : (p.queues g.stage).Inv) (id : BitVec 32) :
    (admissible p g = 0 ∧ (pipelineTryPush p (some g.stage) id).1 = false) ∨
      ∃ p', pipelineTryPush p (some g.stage) id = (true, p') ∧ (p'.queues g.stage).Inv ∧
        admissible p g = admissible p' g + 1 := by
  have hfull := full_iff hr
  have hle := inQueue_le hr
  rw [pipelineTryPush_gate]
  by_cases hcredit : p.credits.max g ≠ 0 ∧ p.credits.used g ≥ p.credits.max g
  · have hge : (p.credits.max g).toNat ≤ (p.credits.used g).toNat := hcredit.2
    rw [if_pos hcredit, admissible, if_neg hcredit.1]
    exact .inl ⟨by omega, rfl⟩
  · rw [if_neg hcredit]
    by_cases hroom : p.full g.stage = true
    · have hin := hfull.mp hroom
      rw [if_pos hroom, admissible]
      refine .inl ⟨?_, rfl⟩
      split_ifs <;> omega
    · have hlt : p.inQueue g.stage < 4096 := lt_of_le_of_ne hle fun h => hroom (hfull.mpr h)
      rw [if_neg hroom]
      rw [Bool.not_eq_true] at hroom
      refine .inr ⟨_, rfl, (pushed_queue hr hroom id).1, ?_⟩
      have hin := inQueue_pushed hr hroom id
      rw [admissible, admissible, PipelineCredits.max_setUsed, PipelineCredits.used_setUsed]
      change _ = (if p.credits.max g = 0 then 4096 - (p.pushed g.stage id).inQueue g.stage
        else min ((p.credits.max g).toNat - (p.credits.used g + 1).toNat)
          (4096 - (p.pushed g.stage id).inQueue g.stage)) + 1
      rw [hin]
      split_ifs with hmax
      · omega
      · have hused : p.credits.used g < p.credits.max g := by
          rw [← BitVec.not_le]
          exact fun h => hcredit ⟨hmax, h⟩
        have hused' : (p.credits.used g).toNat < (p.credits.max g).toNat := hused
        rw [toNat_add_one_of_lt hused]
        omega

/-- A gate admits exactly as many ids as are admissible. -/
theorem admits_admissible (g : Gate) (hr : (p.queues g.stage).Inv) :
    Admits p (some g.stage) (admissible p g) := by
  generalize hn : admissible p g = n
  induction n generalizing p with
  | zero =>
    refine admits_zero fun id => ?_
    rcases tryPush_admissible g hr id with ⟨-, href⟩ | ⟨p', -, -, hp'⟩
    · exact href
    · omega
  | succ n ih =>
    have hstep : ∀ id, ∃ p', pipelineTryPush p (some g.stage) id = (true, p') ∧
        (p'.queues g.stage).Inv ∧ admissible p' g = n := by
      intro id
      rcases tryPush_admissible g hr id with ⟨hzero, -⟩ | ⟨p', hpush, hr', hp'⟩
      · omega
      · exact ⟨p', hpush, hr', by omega⟩
    refine admits_succ (fun id => ?_) fun id => ?_
    · obtain ⟨p', hpush, -⟩ := hstep id
      rw [hpush]
    · obtain ⟨p', hpush, hr', hp'⟩ := hstep id
      rw [hpush]
      exact ih hr' hp'

end Admits

theorem toNat_headroom (max used : BitVec 32) : (headroom max used).toNat = max.toNat - used.toNat := by
  rw [headroom]
  split_ifs with h
  · exact BitVec.toNat_sub_of_le (BitVec.le_of_lt h)
  · have hle : max.toNat ≤ used.toNat := BitVec.not_lt.mp h
    rw [Nat.sub_eq_zero_of_le hle]
    rfl

/-- **The credits reported** are those that admission honours, in every state of every run, exactly if
the limit of the gate is not zero or its queue is full. -/
theorem gate_honours_headroom_iff (cs : List PipelineCall) (g : Gate) :
    Admits (pipelineRun pipelineInit cs).2 (some g.stage)
      (min (pipelineStageAvailableCredits (pipelineRun pipelineInit cs).2 (some g.stage)).toNat
        (4096 - (pipelineOccupancy (pipelineRun pipelineInit cs).2 (some g.stage)).toNat)) ↔
      (pipelineRun pipelineInit cs).2.credits.max g ≠ 0 ∨
        pipelineOccupancy (pipelineRun pipelineInit cs).2 (some g.stage) = 4096 := by
  have hr := pipelineRun_inv cs g.stage
  generalize (pipelineRun pipelineInit cs).2 = p at hr ⊢
  have hle := inQueue_le hr
  have hadmits := admits_admissible g hr
  have hocc : pipelineOccupancy p (some g.stage) = 4096 ↔ p.inQueue g.stage = 4096 :=
    BitVec.toNat_inj.symm
  rw [pipelineStageAvailableCredits_gate, toNat_headroom, hocc]
  change Admits p (some g.stage) (min _ (4096 - p.inQueue g.stage)) ↔ _
  by_cases hmax : p.credits.max g = 0
  · have hzero : min ((p.credits.max g).toNat - (p.credits.used g).toNat) (4096 - p.inQueue g.stage) = 0 := by
      rw [hmax]
      simp
    rw [admissible, if_pos hmax] at hadmits
    rw [hzero]
    constructor
    · intro h
      have hsame := h.unique hadmits
      exact .inr (by omega)
    · rintro (h | h)
      · exact absurd hmax h
      · rwa [h] at hadmits
  · rw [admissible, if_neg hmax] at hadmits
    exact iff_of_true hadmits (.inl hmax)

/-- Without a limit no credit is reported, but an id is admitted. -/
theorem headroom_unlimited_decode :
    ¬ Admits (pipelineRun pipelineInit []).2 (some .decode)
      (min (pipelineStageAvailableCredits (pipelineRun pipelineInit []).2 (some .decode)).toNat
        (4096 - (pipelineOccupancy (pipelineRun pipelineInit []).2 (some .decode)).toNat)) := by
  intro h
  have hrefuse := (h fun _ => 7).2
  exact absurd hrefuse (by decide)

end RolloutRuntime
