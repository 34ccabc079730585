import RolloutRuntime.Concurrency.Observation
import RolloutRuntime.Fastpath.Benchmark
import RolloutRuntime.Fastpath.RewardRounds

/-!
# Every run of the benchmark of the fast path

The host pops the answers to its requests in order. All requests of the benchmark stop at the first reward
boundary, so the tokens decoded for a request depend on its initial length only. The counter of decoded
tokens that the host prints is a field of the worker and is read without synchronisation; when the host has
popped the last answer the worker has counted all tokens and counts no more.

The number of doorbell writes is printed from a formula that adds the number of requests and the size of a
batch in 32 bits. The doorbell is in fact written as often as the formula says unless that sum wraps.

## Main definitions

* `Hw.tokens`: the number of tokens the worker decodes for a descriptor.
* `Hw.Bench.finished`: what the host pops for a request.
* `Hw.Bench.countDoorbells`: the number of doorbell writes.

## Main results

* `Hw.Bench.benchmark_completes`: what the host has popped, and what the worker has counted, when the host
  ends its wait.
* `Hw.Bench.benchmark_doorbell`: what the doorbell announces, and how often it is written.

## References

* `bench/bench_hw_fastpath.c` lines 42–166, `src/hw_worker_sim.c` lines 22–59.
-/

namespace RolloutRuntime

open Concurrency RingBuffer

namespace Hw

/-! ### Tokens -/

/-- The number of tokens the worker decodes for a descriptor. -/
def tokens (d : HwDesc) : ℕ :=
  if d.opcode = descOpDecode ∧ d.seqLen < d.maxTokens then roundTokens d else 0

/-- The number of tokens the worker decodes for all of them. -/
def tokensOf (ds : List HwDesc) : ℕ := (ds.map tokens).sum

@[simp] theorem tokensOf_append (ds ds' : List HwDesc) :
    tokensOf (ds ++ ds') = tokensOf ds + tokensOf ds' := by
  rw [tokensOf, List.map_append, List.sum_append]
  rfl

theorem tokensOf_singleton (d : HwDesc) : tokensOf [d] = tokens d := List.sum_singleton

theorem decodeLoop_snd {d : HwDesc} (hd : d.opcode = descOpDecode) (t : BitVec 64) :
    (decodeLoop d t).2 = t + BitVec.ofNat 64 (tokens d) := by
  by_cases hlt : d.seqLen < d.maxTokens
  · rw [decodeLoop_of_lt hlt, tokens, if_pos ⟨hd, hlt⟩]
  · rw [decodeLoop, dif_neg hlt, tokens, if_neg fun h => hlt h.2]
    exact (BitVec.add_zero t).symm

namespace Bench

/-! ### What the host pops -/

/-- What the host pops for a request. -/
def finished (rolloutId : BitVec 32) : HwDesc :=
  { makeDecodeDesc rolloutId with flags := descFlagNeedsReward, seqLen := 32 }

theorem toNat_seqLen (r : BitVec 32) : (makeDecodeDesc r).seqLen.toNat = r.toNat % 8 := by
  change (r &&& 7).toNat = r.toNat % 8
  rw [BitVec.toNat_and]
  exact Nat.and_two_pow_sub_one_eq_mod r.toNat 3

theorem seqLen_lt (r : BitVec 32) : (makeDecodeDesc r).seqLen < (makeDecodeDesc r).maxTokens := by
  have hmax : (makeDecodeDesc r).maxTokens.toNat = 128 := rfl
  rw [BitVec.lt_def, toNat_seqLen, hmax]
  omega

/-- The worker stops at the first reward boundary. -/
theorem rewardStop_request (r : BitVec 32) :
    rewardStop (makeDecodeDesc r).maxTokens.toNat (makeDecodeDesc r).seqLen.toNat = 32 := by
  have hmax : (makeDecodeDesc r).maxTokens.toNat = 128 := rfl
  rw [hmax, toNat_seqLen, rewardStop]
  omega

theorem decodeStep_request (r : BitVec 32) : decodeStep (makeDecodeDesc r) = finished r := by
  have hflag : roundFlag (makeDecodeDesc r).maxTokens.toNat (makeDecodeDesc r).seqLen.toNat =
      descFlagNeedsReward := by
    rw [roundFlag, rewardStop_request]
    rfl
  have hor : (makeDecodeDesc r).flags ||| descFlagNeedsReward = descFlagNeedsReward := BitVec.zero_or
  rw [decodeStep, decodeLoop_of_lt (seqLen_lt r), decodeRound, hflag, hor, rewardStop_request]
  rfl

theorem tokens_request (r : BitVec 32) : tokens (makeDecodeDesc r) = 32 - r.toNat % 8 := by
  rw [tokens, if_pos ⟨rfl, seqLen_lt r⟩, roundTokens, rewardStop_request, toNat_seqLen]

theorem tokensOf_requests (i : ℕ) :
    tokensOf (requests i) = ((List.range i).map fun k => 32 - (k + 1) % 8).sum := by
  rw [tokensOf, requests, List.map_map]
  refine congrArg List.sum (List.map_congr_left fun k _ => ?_)
  rw [Function.comp_apply, tokens_request, BitVec.toNat_ofNat]
  omega

theorem tokensOf_requests_le (i : ℕ) : tokensOf (requests i) ≤ 32 * i := by
  induction i with
  | zero => exact le_rfl
  | succ i ih =>
    rw [requests_succ, tokensOf_append, tokensOf_singleton, tokens_request]
    omega

theorem noStop_requests (i : ℕ) : NoStop (requests i) := by
  intro d hd
  obtain ⟨k, -, rfl⟩ := mem_requests hd
  change descOpDecode ≠ descOpStop
  decide

theorem answers_requests (i : ℕ) :
    answers (requests i) = (List.range i).map fun k => finished (BitVec.ofNat 32 (k + 1)) := by
  have hall : (requests i).filter (·.opcode = descOpDecode) = requests i := by
    refine List.filter_eq_self.mpr fun d hd => ?_
    obtain ⟨k, -, rfl⟩ := mem_requests hd
    rfl
  rw [answers_of_noStop (noStop_requests i), hall, requests, List.map_map]
  exact List.map_congr_left fun k _ => decodeStep_request _

theorem answers_stop (i : ℕ) : answers (requests i ++ [stopDesc]) = answers (requests i) := by
  have hno : ∀ d ∈ requests i, (decide (d.opcode ≠ descOpStop)) = true := by
    simpa [NoStop] using noStop_requests i
  have htake (ds : List HwDesc) : (requests i ++ ds).takeWhile (·.opcode ≠ descOpStop) =
      requests i ++ ds.takeWhile (·.opcode ≠ descOpStop) := List.takeWhile_append_of_pos hno
  have hall := htake []
  rw [List.append_nil] at hall
  rw [answers, answers, htake, hall]
  rfl

/-! ### What the worker counts -/

/-- The worker has counted the tokens of what it took, and it returns after a stop descriptor only. No
record is kept. -/
def WorkerCounts (l : WorkerSim) (s : Mem) (_ : Unit) : Prop :=
  l.decodedTokens = BitVec.ofNat 64 (tokensOf s.cmdq.taken) ∧
    (l.phase = .returned → ∃ d ∈ s.cmdq.taken, d.opcode = descOpStop)

/-- Nothing is recorded. -/
def unrecorded (_ : Access) (_ : Mem) (h : Unit) : Unit := h

section Worker

variable {x : Args} {s s' : Mem} {h : Unit}

theorem WorkerCounts.rely {l : WorkerSim} (hl : WorkerCounts l s h) (hr : RelyOn .worker s s') :
    WorkerCounts l s' h := by
  rw [WorkerCounts, hr.1.taken_eq]
  exact hl

theorem worker_ret_sees {l : WorkerSim} (hl : WorkerCounts l s h) :
    (discipline x).Sees .worker unrecorded WorkerCounts (.ret l) s h :=
  .ret fun _ hr _ => hl.rely hr

theorem worker_sees_bind {α : Type} {Q : α → Mem → Prop} {p : Prog Access Mem α}
    {f : α → Prog Access Mem WorkerSim} (hs : Inv x s) (hok : fastpath.Ok .worker Q p s)
    (hf : ∀ a s', Inv x s' → Q a s' →
      (discipline x).Sees .worker unrecorded WorkerCounts (f a) s' h) :
    (discipline x).Sees .worker unrecorded WorkerCounts (p >>= f) s h := by
  have hok' : (discipline x).Ok .worker Q p s :=
    hok.recast (discipline x) .worker rfl (fun _ hs => hs.rings) (fun _ _ hr => hr)
      (fun _ _ _ => trivial) fun _ _ hm => hm
  refine Discipline.sees_bind hs hok' (Discipline.sees_of_ok (A := fun _ => True)
    (fun _ _ _ _ => rfl) hok' (Prog.uses_of_forall (fun _ => trivial) p)) ?_
  rintro a s' h' hs' hQ -
  exact hf a s' hs' hQ

theorem worker_top_sees (t k : BitVec 64) (hl : WorkerCounts ⟨.top, t, k⟩ s h) :
    (discipline x).Sees .worker unrecorded WorkerCounts (hwWorkerSim ⟨.top, t, k⟩) s h := by
  refine .act fun s₁ hr₁ hs₁ _ => ?_
  obtain ⟨htokens, -⟩ := hl.rely hr₁
  change (discipline x).Sees .worker unrecorded WorkerCounts (if s₁.stop ≠ 0 then _ else _) s₁ h
  rw [if_neg (not_not.mpr hs₁.stop)]
  refine worker_sees_bind hs₁ (worker_onCmdq_ok (consume_ok (by decide) emptySound_eqEmpty)) ?_
  rintro y s₂ - ⟨htaken, -⟩
  cases y with
  | none =>
    rw [Option.toList_none, List.append_nil] at htaken
    exact worker_ret_sees ⟨htaken ▸ htokens, Phase.noConfusion⟩
  | some d =>
    rw [Option.toList_some] at htaken
    have hsum : tokensOf s₂.cmdq.taken = tokensOf s₁.cmdq.taken + tokens d := by
      rw [htaken, tokensOf_append, tokensOf_singleton]
    -- a descriptor that is not decoded has no tokens
    have hsame (hd : d.opcode ≠ descOpDecode) : t = BitVec.ofNat 64 (tokensOf s₂.cmdq.taken) := by
      rw [hsum, tokens, if_neg fun h => hd h.1]
      exact htokens
    dsimp only
    split_ifs with hstop hdec
    · refine worker_ret_sees ⟨hsame ?_, fun _ => ⟨d, ?_, hstop⟩⟩
      · rw [hstop]
        decide
      · rw [htaken]
        exact List.mem_append_right _ (List.mem_singleton_self d)
    · exact worker_ret_sees ⟨hsame hdec, Phase.noConfusion⟩
    · refine worker_ret_sees ⟨?_, Phase.noConfusion⟩
      change (decodeLoop d t).2 = _
      rw [decodeLoop_snd (not_not.mp hdec), hsum, BitVec.ofNat_add, ← htokens]

theorem hwWorkerSim_sees (l : WorkerSim) (hs : Inv x s) (hknows : l.Knows s)
    (hl : WorkerCounts l s h) :
    (discipline x).Sees .worker unrecorded WorkerCounts (hwWorkerSim l) s h := by
  obtain ⟨phase, t, k⟩ := l
  cases phase with
  | top => exact worker_top_sees t k hl
  | pushing d =>
    obtain ⟨-, -, hpend⟩ := hknows
    refine worker_sees_bind hs (worker_onDoneq_ok
      (push_ok (by decide) roomSound_hwRing hs.rings.doneq (hpend ▸ List.prefix_rfl))) ?_
    rintro ok s₁ - ⟨-, htaken⟩
    have htokens : t = BitVec.ofNat 64 (tokensOf s₁.cmdq.taken) := htaken ▸ hl.1
    cases ok <;> exact worker_ret_sees ⟨htokens, Phase.noConfusion⟩
  | returned => exact worker_ret_sees hl

end Worker

/-- What the worker has counted where it rests. -/
theorem workerCounts_run (x : Args) (z : HwDesc) (es : List ((_ : Thread) × Unit)) {l : WorkerSim}
    (hrest : ((system x).run (init z) es).threads .worker = .ret l) :
    WorkerCounts l ((system x).run (init z) es).mem () := by
  have hsees : (discipline x).Sees .worker unrecorded WorkerCounts
      (((system x).run (init z) es).threads .worker) ((system x).run (init z) es).mem
      ((system x).observe .worker unrecorded (init z) () es) := by
    refine Discipline.sees_sound (S := system x) (P := Known x) rfl (start_ok x) ?_ (good_init x z) ?_
      ((system x).meets_true _ es)
    · intro l _ s h hs hknows hl
      exact hwWorkerSim_sees l hs hknows hl
    · exact worker_ret_sees ⟨rfl, Phase.noConfusion⟩
  rw [hrest] at hsees
  exact hsees.post (good_run x z es).1

/-! ### What the host has popped -/

theorem length_answers_le (ds : List HwDesc) : (answers ds).length ≤ ds.length := by
  rw [answers, List.length_map]
  exact (List.length_filter_le _ _).trans (List.takeWhile_prefix _).length_le

section Popped

variable {x : Args} {s : Mem}

theorem published_isPrefix (hs : Inv x s) : s.doneq.published <+: answers (requests x.total) := by
  rw [← answers_stop]
  exact hs.rings.answers.trans
    (answers_isPrefix (hs.rings.cmdq.taken_le.trans hs.submitted.1))

theorem length_published_le (hs : Inv x s) : s.doneq.published.length ≤ x.total := by
  refine (published_isPrefix hs).length_le.trans ?_
  rw [answers_requests, List.length_map, List.length_range]

/-- Descriptor number `k` that was popped is the answer to request number `k`. -/
theorem eq_finished (hs : Inv x s) {k : ℕ} {d : HwDesc} (hd : s.doneq.taken[k]? = some d) :
    d = finished (BitVec.ofNat 32 (k + 1)) := by
  obtain ⟨rest, hrest⟩ := hs.rings.doneq.taken_le.trans (published_isPrefix hs)
  obtain ⟨hk, -⟩ := List.getElem?_eq_some_iff.mp hd
  have hget : (answers (requests x.total))[k]? = some d := by
    rw [← hrest, List.getElem?_append_left hk, hd]
  rw [answers_requests, List.getElem?_map] at hget
  obtain ⟨k', hk', rfl⟩ := Option.map_eq_some_iff.mp hget
  rw [(List.getElem?_eq_some_iff.mp hk').2.symm, List.getElem_range]

/-- When all answers have been popped, the worker has taken all requests. -/
theorem taken_of_popped (hs : Inv x s) (h : x.total ≤ s.doneq.taken.length) :
    s.cmdq.taken = requests x.total ∨ s.cmdq.taken = requests x.total ++ [stopDesc] := by
  have hlen : x.total ≤ s.cmdq.taken.length :=
    calc x.total ≤ s.doneq.taken.length := h
      _ ≤ s.doneq.published.length := hs.rings.doneq.taken_le.length_le
      _ ≤ (answers s.cmdq.taken).length := hs.rings.answers.length_le
      _ ≤ s.cmdq.taken.length := length_answers_le _
  rcases List.prefix_concat_iff.mp (hs.rings.cmdq.taken_le.trans hs.submitted.1) with hall | hpre
  · exact Or.inr hall
  · exact Or.inl (hpre.eq_of_length_le (by rwa [length_requests]))

theorem tokensOf_of_popped (hs : Inv x s) (h : x.total ≤ s.doneq.taken.length) :
    tokensOf s.cmdq.taken = tokensOf (requests x.total) := by
  rcases taken_of_popped hs h with htaken | htaken
  · rw [htaken]
  · rw [htaken, tokensOf_append]
    rfl

/-- After a stop descriptor has been taken, all answers have been popped. -/
theorem popped_of_stop (hs : Inv x s) {d : HwDesc} (hd : d ∈ s.cmdq.taken)
    (hstop : d.opcode = descOpStop) :
    s.cmdq.taken = requests x.total ++ [stopDesc] ∧ x.total ≤ s.doneq.taken.length := by
  rcases List.prefix_concat_iff.mp (hs.rings.cmdq.taken_le.trans hs.submitted.1) with hall | hpre
  · refine ⟨hall, hs.submitted.2 ?_⟩
    have hle := hs.rings.cmdq.taken_le.length_le
    rw [hall, List.length_append, length_requests, List.length_singleton] at hle
    exact hle
  · exact absurd hstop (noStop_requests x.total d (hpre.subset hd))

end Popped

theorem Args.total_lt (x : Args) : x.total < 2 ^ 32 := x.iterations.isLt

theorem counters_of_popped (x : Args) (z : HwDesc) (es : List ((_ : Thread) × Unit))
    (hall : x.total ≤ ((system x).run (init z) es).mem.doneq.taken.length) {w : WorkerSim}
    (hw : ((system x).run (init z) es).threads .worker = .ret w) :
    w.decodedTokens.toNat = ((List.range x.total).map fun k => 32 - (k + 1) % 8).sum ∧
      w.completions.toNat = x.total := by
  have hgood := good_run x z es
  have hle := tokensOf_requests_le x.total
  have htotal := x.total_lt
  have hpub := length_published_le hgood.1
  have htaken := hgood.1.rings.doneq.taken_le.length_le
  have hknows : w.Knows _ := hgood.rest hw
  constructor
  · rw [(workerCounts_run x z es hw).1, tokensOf_of_popped hgood.1 hall, BitVec.toNat_ofNat,
      Nat.mod_eq_of_lt (by omega), tokensOf_requests]
  · rw [hknows.1, BitVec.toNat_ofNat, Nat.mod_eq_of_lt (by omega)]
    omega

/-- The host has ended its wait. -/
def Host.Ended (l : Host) : Prop := l = .stopping ∨ l = .joining

theorem popped_of_ended {x : Args} {l : Host} {s : Mem} (hl : l.Ended) (h : HostKnows x l s) :
    x.total ≤ s.doneq.taken.length := by
  rcases hl with rfl | rfl
  · obtain ⟨completed, hle, hprog⟩ := h
    exact hle.trans hprog.taken.ge
  · obtain ⟨completed, hle, hprog⟩ := h
    exact hle.trans hprog.taken.ge

/-- **The benchmark completes what it submits.** In every run of the benchmark, whatever the order of the
steps: descriptor number `k` that the host pops is request number `k` decoded up to the first reward
boundary. When the host has ended its wait it has popped one descriptor for each request, and the worker,
between its passes, has counted exactly the tokens and the descriptors of all requests. When the worker has
returned, it has taken all requests and the stop descriptor, and everything it pushed has been popped. -/
theorem benchmark_completes (x : Args) (z : HwDesc) (es : List ((_ : Thread) × Unit)) :
    let c := (system x).run (init z) es
    (∀ k d, c.mem.doneq.taken[k]? = some d → d = finished (BitVec.ofNat 32 (k + 1))) ∧
      (∀ l : Host, c.threads .host = .ret l → l.Ended →
        c.mem.doneq.taken.length = x.total ∧
          ∀ w : WorkerSim, c.threads .worker = .ret w →
            w.decodedTokens.toNat = ((List.range x.total).map fun k => 32 - (k + 1) % 8).sum ∧
              w.completions.toNat = x.total) ∧
      ∀ w : WorkerSim, c.threads .worker = .ret w → w.phase = .returned →
        c.mem.cmdq.taken = requests x.total ++ [stopDesc] ∧
          c.mem.doneq.taken.length = x.total ∧ c.mem.doneq.taken = c.mem.doneq.published := by
  intro c
  have hgood := good_run x z es
  have hinv : Inv x c.mem := hgood.1
  have hle := length_published_le hinv
  have htaken := hinv.rings.doneq.taken_le
  have hlen := htaken.length_le
  refine ⟨fun k d hd => eq_finished hinv hd, fun l hl hended => ?_, fun w hw hret => ?_⟩
  · have hall := popped_of_ended hended (hgood.rest hl)
    exact ⟨le_antisymm (hlen.trans hle) hall, fun w hw => counters_of_popped x z es hall hw⟩
  · obtain ⟨d, hd, hstop⟩ := (workerCounts_run x z es hw).2 hret
    obtain ⟨htakenc, hall⟩ := popped_of_stop hinv hd hstop
    exact ⟨htakenc, le_antisymm (hlen.trans hle) hall, htaken.eq_of_length_le (hle.trans hall)⟩

/-! ### The doorbell -/

/-- The number of doorbell writes. -/
def countDoorbells : Access → Mem → ℕ → ℕ
  | .storeDoorbell _, _, n => n + 1
  | _, _, n => n

/-- The number of doorbell writes when `i` requests are submitted. -/
def Args.bellsAt (x : Args) (i : ℕ) : ℕ :=
  if i = x.total then (i + x.batchSize.toNat - 1) / x.batchSize.toNat else i / x.batchSize.toNat

/-- The number of doorbell writes where the host is. -/
def Args.bells (x : Args) : Host → ℕ
  | .submitting i _ => x.bellsAt i
  | .draining i _ => x.bellsAt i
  | .waiting _ => x.bellsAt x.total
  | .stopping => x.bellsAt x.total
  | .joining => x.bellsAt x.total + 1

theorem Args.bellsAt_succ {x : Args} {i : ℕ} (hi : i < x.total) :
    x.bellsAt (i + 1) = x.bellsAt i + if x.Rings (i + 1) then 1 else 0 := by
  have hb := x.batchSize_pos
  rw [bellsAt, bellsAt, if_neg hi.ne]
  by_cases htotal : i + 1 = x.total
  · have hrings : x.Rings (i + 1) := Or.inr htotal
    rw [if_pos htotal, if_pos hrings, Nat.add_right_comm, Nat.add_sub_cancel, Nat.add_div_right _ hb]
  · rw [if_neg htotal]
    by_cases hmod : (i + 1) % x.batchSize.toNat = 0
    · have hrings : x.Rings (i + 1) := Or.inl hmod
      rw [if_pos hrings, Nat.succ_div_of_dvd (Nat.dvd_of_mod_eq_zero hmod)]
    · have hrings : ¬ x.Rings (i + 1) := not_or.mpr ⟨hmod, htotal⟩
      rw [if_neg hrings, Nat.succ_div_of_not_dvd fun hdvd => hmod (Nat.mod_eq_zero_of_dvd hdvd)]
      rfl

section Doorbell

variable {x : Args} {s : Mem} {n : ℕ}

theorem host_ret_counts {l : Host} (hn : n = x.bells l) :
    (discipline x).Sees .host countDoorbells (fun l _ n => n = x.bells l) (.ret l) s n :=
  .ret fun _ _ _ => hn

/-- A program of the host that does not write the doorbell, as a part of its pass. -/
theorem host_sees_bind {α : Type} {Q : α → Mem → Prop} {p : Prog Access Mem α}
    {f : α → Prog Access Mem Host} (hs : Inv x s) (hok : (discipline x).Ok .host Q p s)
    (huses : p.Uses fun o => ∀ s n, countDoorbells o s n = n)
    (hf : ∀ a s', Inv x s' → Q a s' →
      (discipline x).Sees .host countDoorbells (fun l _ n => n = x.bells l) (f a) s' n) :
    (discipline x).Sees .host countDoorbells (fun l _ n => n = x.bells l) (p >>= f) s n := by
  refine Discipline.sees_bind hs hok (Discipline.sees_of_ok (fun o s h ho => ho s h) hok huses) ?_
  rintro a s' n' hs' hQ ⟨-, rfl⟩
  exact hf a s' hs' hQ

theorem onCmdq_uses {α : Type} (p : Prog (Op 32 HwDesc) HwRing α) :
    (onCmdq p).Uses fun o => ∀ s n, countDoorbells o s n = n :=
  Prog.uses_zoom (Prog.uses_of_forall (fun _ _ _ => rfl) p)

theorem onDoneq_uses {α : Type} (p : Prog (Op 32 HwDesc) HwRing α) :
    (onDoneq p).Uses fun o => ∀ s n, countDoorbells o s n = n :=
  Prog.uses_zoom (Prog.uses_of_forall (fun _ _ _ => rfl) p)

theorem ringDoorbell_counts {l : Host} (hn : n + 1 = x.bells l) :
    (discipline x).Sees .host countDoorbells (fun l _ n => n = x.bells l)
      (ringDoorbell >>= fun _ => .ret l) s n :=
  .act fun _ _ _ _ => .act fun _ _ _ _ => host_ret_counts hn

theorem bells_afterSubmit (x : Args) (i completed : ℕ) :
    x.bells (afterSubmit i completed) = x.bellsAt i := by
  rw [afterSubmit]
  split_ifs <;> rfl

theorem host_counts (l : Host) (hs : Inv x s) (h : HostKnows x l s) (hn : n = x.bells l) :
    (discipline x).Sees .host countDoorbells (fun l _ n => n = x.bells l) (host x l) s n := by
  cases l with
  | submitting i completed =>
    rw [host]
    split_ifs with hlt
    · refine host_sees_bind hs (hwRingPush_ok hs (submits_request hlt h)) (onCmdq_uses _) ?_
      rintro ok s₁ - -
      cases ok with
      | false => exact host_ret_counts hn
      | true =>
        have hnext := bells_afterSubmit x (i + 1) completed
        rw [Args.bellsAt_succ hlt] at hnext
        change (discipline x).Sees .host countDoorbells _ (ringIfDue x (i + 1) >>= _) s₁ n
        rw [ringIfDue]
        split_ifs at hnext ⊢ with hdue
        · exact ringDoorbell_counts ((congrArg (· + 1) hn).trans hnext.symm)
        · exact host_ret_counts (hn.trans hnext.symm)
    · obtain rfl : i = x.total := le_antisymm h.1 (not_lt.mp hlt)
      exact host_ret_counts hn
  | draining i completed =>
    refine host_sees_bind hs (hwRingPop_ok h.2) (onDoneq_uses _) ?_
    rintro d s₁ - -
    cases d <;> exact host_ret_counts hn
  | waiting completed =>
    rw [host]
    split_ifs with hlt
    · refine host_sees_bind hs (hwRingPop_ok h) (onDoneq_uses _) ?_
      rintro d s₁ - -
      cases d <;> exact host_ret_counts hn
    · exact host_ret_counts hn
  | stopping =>
    refine host_sees_bind hs (hwRingPush_ok hs (submits_stop h)) (onCmdq_uses _) ?_
    rintro ok s₁ - -
    cases ok with
    | false => exact host_ret_counts hn
    | true => exact ringDoorbell_counts (congrArg (· + 1) hn)
  | joining => exact host_ret_counts hn

end Doorbell

theorem bells_run (x : Args) (z : HwDesc) (es : List ((_ : Thread) × Unit)) {l : Host}
    (hrest : ((system x).run (init z) es).threads .host = .ret l) :
    (system x).observe .host countDoorbells (init z) 0 es = x.bells l := by
  have hsees : (discipline x).Sees .host countDoorbells (fun l _ n => n = x.bells l)
      (((system x).run (init z) es).threads .host) ((system x).run (init z) es).mem
      ((system x).observe .host countDoorbells (init z) 0 es) := by
    refine Discipline.sees_sound (S := system x) (P := Known x) rfl (start_ok x) ?_ (good_init x z) ?_
      ((system x).meets_true _ es)
    · intro l _ s n hs hknows hn
      exact host_counts l hs hknows hn
    · refine host_ret_counts ?_
      rw [Args.bells, Args.bellsAt, Nat.zero_add, Nat.zero_div,
        Nat.div_eq_of_lt (Nat.sub_lt x.batchSize_pos one_pos), ite_self]
  rw [hrest] at hsees
  exact hsees.post (good_run x z es).1

/-- The number of doorbell writes as it is printed. -/
def Args.printedBells (x : Args) : BitVec 32 := (x.iterations + x.batchSize - 1) / x.batchSize

theorem Args.printedBells_eq_iff (x : Args) :
    x.printedBells.toNat = x.bellsAt x.total ↔ x.total + x.batchSize.toNat - 1 < 2 ^ 32 := by
  have hb := x.batchSize_pos
  have hb' := x.batchSize.isLt
  have htotal := x.total_lt
  have hone : (1 : BitVec 32).toNat = 1 := rfl
  have hsum : (x.iterations + x.batchSize - 1).toNat = (x.total + x.batchSize.toNat - 1) % 2 ^ 32 := by
    have hx : x.iterations.toNat = x.total := rfl
    rw [BitVec.toNat_sub, BitVec.toNat_add, hone, hx]
    omega
  rw [printedBells, BitVec.toNat_udiv, hsum, bellsAt, if_pos rfl]
  constructor
  · intro heq
    by_contra hwrap
    -- what is lost by the wrap is more than one batch
    have hlost : (x.total + x.batchSize.toNat - 1) % 2 ^ 32 + x.batchSize.toNat ≤
        x.total + x.batchSize.toNat - 1 := by omega
    have hlt := Nat.div_le_div_right (c := x.batchSize.toNat) hlost
    rw [Nat.add_div_right _ hb, heq] at hlt
    exact absurd hlt (Nat.not_succ_le_self _)
  · intro hlt
    rw [Nat.mod_eq_of_lt hlt]

/-- **The doorbell.** In every run of the benchmark, whatever the order of the steps: while the host submits,
the doorbell announces the requests of the whole batches submitted so far and has been written once for each
of them. When the host has ended its wait the doorbell announces all requests and has been written once for
each batch, the last one included if it is not whole; the number printed is that number if and only if the
sum it is computed from fits into 32 bits. -/
theorem benchmark_doorbell (x : Args) (z : HwDesc) (es : List ((_ : Thread) × Unit)) :
    let c := (system x).run (init z) es
    let writes := (system x).observe .host countDoorbells (init z) 0 es
    (∀ i completed, i < x.total →
      c.threads .host = .ret (Host.submitting i completed) ∨
        c.threads .host = .ret (Host.draining i completed) →
      c.mem.doorbell.toNat = i / x.batchSize.toNat * x.batchSize.toNat ∧
        writes = i / x.batchSize.toNat) ∧
      (c.threads .host = .ret Host.stopping →
        c.mem.doorbell = x.iterations ∧
          writes = (x.total + x.batchSize.toNat - 1) / x.batchSize.toNat ∧
          (x.printedBells.toNat = writes ↔ x.total + x.batchSize.toNat - 1 < 2 ^ 32)) := by
  intro c writes
  have hgood := good_run x z es
  refine ⟨fun i completed hi hrest => ?_, fun hrest => ?_⟩
  · have hknown : Progress c.mem (requests i) completed (x.announced i) ∧ writes = x.bellsAt i := by
      rcases hrest with hrest | hrest
      · exact ⟨(hgood.rest hrest).2, bells_run x z es hrest⟩
      · exact ⟨(hgood.rest hrest).2, bells_run x z es hrest⟩
    obtain ⟨⟨-, -, hbell⟩, hwrites⟩ := hknown
    have hlt := x.total_lt
    have hle := Nat.div_mul_le_self i x.batchSize.toNat
    rw [Args.announced, if_neg hi.ne] at hbell
    rw [Args.bellsAt, if_neg hi.ne] at hwrites
    refine ⟨?_, hwrites⟩
    rw [hbell, BitVec.toNat_ofNat, Nat.mod_eq_of_lt (by omega)]
  · obtain ⟨completed, -, -, -, hbell⟩ := hgood.rest hrest
    have hwrites : writes = x.bellsAt x.total := bells_run x z es hrest
    refine ⟨?_, ?_, ?_⟩
    · rw [hbell, Args.total, BitVec.ofNat_toNat, BitVec.setWidth_eq]
    · rw [hwrites, Args.bellsAt, if_pos rfl]
    · rw [hwrites]
      exact x.printedBells_eq_iff

end Bench

end Hw

end RolloutRuntime
