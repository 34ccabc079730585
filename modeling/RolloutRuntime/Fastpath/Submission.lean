import RolloutRuntime.Fastpath.EndToEnd
import RolloutRuntime.KvPrefix.RefCounts
import RolloutRuntime.Rings.Exact

/-!
# Submitting decode requests

A submission pushes a descriptor to `cmdq`, loads the producer index again and stores it to the
doorbell. A device that watches the doorbell may look at it between any two of these steps. With one
submitter the doorbell is never ahead of the descriptors written, and it is the producer index whenever
the submitter is at rest.

The descriptor of a request that shares a prefix is to carry a flag that tells it from one without a
prefix. A submission takes the prefix id zero for no prefix, and the table of prefixes gives out the id
zero like any other: to the registration that finds entry zero free.

## Main definitions

* `Hw.EnqueuesShared`: a submission enqueues a descriptor marked as sharing a prefix.
* `Hw.Submit.system`: a submitter on one context, and a consumer of `cmdq`.
* `Hw.Submit.Announces`: how many descriptors the doorbell announces.

## Main results

* `Hw.inferSubmitDecode_eq`: the accesses of a submission.
* `Hw.inferSubmitDecode_shared_iff`: the registered prefixes whose sharing is visible.
* `Hw.Submit.inferSubmitDecode_doorbell`: the doorbell in every interleaving with the consumer.

## References

* `src/infer_submit.c`, `include/hw_ring.h` lines 43–69, `include/mmio.h`, `src/kv_prefix.c`
  lines 21–64.
-/

namespace RolloutRuntime

open Concurrency RingBuffer Bitmap

namespace Hw

/-! ### The accesses of a submission -/

/-- The two pointers of the context are there. -/
def InferHwCtx.Valid (ctx : InferHwCtx) : Prop :=
  ctx.cmdqPresent = true ∧ ctx.doorbellPresent = true

/-- The accesses of a submission on a valid context. -/
theorem inferSubmitDecode_eq {ctx : InferHwCtx} (hctx : ctx.Valid) (a : DecodeArgs) :
    inferSubmitDecode (some ctx) a =
      .act (.cmd .loadProd) fun s => .act (.cmd .loadCons) fun s' =>
        if hwFullTest s.cmdq.prod s'.cmdq.cons 1 then .ret none
        else .act (.cmd (.writeSlot s.cmdq.prod (decodeDesc ctx a))) fun _ =>
          .act (.cmd (.storeProd (s.cmdq.prod + 1) [decodeDesc ctx a])) fun _ =>
            .act (.cmd .loadProd) fun s'' => .act (.storeDoorbell s''.cmdq.prod) fun _ =>
              .ret (some (decodeDesc ctx a)) := by
  have hpresent : (!ctx.cmdqPresent || !ctx.doorbellPresent) = false := by
    rw [hctx.1, hctx.2]
    rfl
  simp only [inferSubmitDecode, hpresent, Bool.false_eq_true, if_false, onCmdq, hwRingPush_eq]
  refine congrArg (Prog.act _) (funext fun s => congrArg (Prog.act _) (funext fun s' => ?_))
  change ((if hwFullTest s.cmdq.prod s'.cmdq.cons 1 = true then .ret false else _ :
    Prog (Op 32 HwDesc) HwRing Bool).zoom Access.cmd Mem.cmdq).bind _ = _
  split_ifs <;> rfl

/-- The steps of a submission that fails, among any steps of other threads, change nothing. -/
theorem inferSubmitDecode_refused {ctx : Option InferHwCtx} {a : DecodeArgs}
    {tr : List (Access × Mem)} (h : Prog.Trace (inferSubmitDecode ctx a) tr none) :
    ∀ y ∈ tr, y.1.effect y.2 = y.2 := by
  rcases ctx with _ | ctx
  · obtain ⟨rfl, -⟩ := Prog.trace_ret.mp h
    exact fun y hy => absurd hy (by simp)
  · by_cases hctx : ctx.Valid
    · rw [inferSubmitDecode_eq hctx] at h
      obtain ⟨s, l₁, rfl, h₁⟩ := Prog.trace_act.mp h
      obtain ⟨s', l₂, rfl, h₂⟩ := Prog.trace_act.mp h₁
      split_ifs at h₂ with hfull
      · obtain ⟨rfl, -⟩ := Prog.trace_ret.mp h₂
        intro y hy
        simp only [List.mem_cons, List.not_mem_nil, or_false] at hy
        rcases hy with rfl | rfl <;> rfl
      · -- the last access of an accepted submission is followed by its descriptor
        obtain ⟨_, _, -, h₃⟩ := Prog.trace_act.mp h₂
        obtain ⟨_, _, -, h₄⟩ := Prog.trace_act.mp h₃
        obtain ⟨_, _, -, h₅⟩ := Prog.trace_act.mp h₄
        obtain ⟨_, _, -, h₆⟩ := Prog.trace_act.mp h₅
        exact absurd (Prog.trace_ret.mp h₆).2 (by simp)
    · have habsent : (!ctx.cmdqPresent || !ctx.doorbellPresent) = true := by
        by_contra hpresent
        rw [Bool.not_eq_true, Bool.or_eq_false_iff, Bool.not_eq_false', Bool.not_eq_false'] at hpresent
        exact hctx hpresent
      simp only [inferSubmitDecode, habsent, if_true] at h
      obtain ⟨rfl, -⟩ := Prog.trace_ret.mp h
      exact fun y hy => absurd hy (by simp)

/-! ### Sharing a prefix -/

/-- The submission enqueues a descriptor of the prefix `p` that is marked as sharing it, and so differs
from every descriptor submitted without a prefix. -/
def EnqueuesShared (ctx : InferHwCtx) (a : DecodeArgs) (p : PrefixId) (s : Mem) : Prop :=
  ∃ d s', (inferSubmitDecode (some ctx) a).run Access.effect s = (some d, s') ∧
    s'.cmdq.published = s.cmdq.published ++ [d] ∧ s'.cmdq.slots (mask 16 s.cmdq.prod) = d ∧
    d.prefixId.toNat = p ∧ d.flags &&& descFlagCowPrefix ≠ 0 ∧
    ∀ ctx' a', a'.prefixId = 0 → d.flags ≠ (decodeDesc ctx' a').flags

/-- A submission without interference to a ring that is not full. -/
theorem inferSubmitDecode_run {ctx : InferHwCtx} (hctx : ctx.Valid) (a : DecodeArgs) {s : Mem}
    (hroom : hwFullTest s.cmdq.prod s.cmdq.cons 1 = false) :
    ∃ s', (inferSubmitDecode (some ctx) a).run Access.effect s = (some (decodeDesc ctx a), s') ∧
      s'.cmdq.published = s.cmdq.published ++ [decodeDesc ctx a] ∧
      s'.cmdq.slots (mask 16 s.cmdq.prod) = decodeDesc ctx a := by
  rw [inferSubmitDecode_eq hctx]
  simp only [Prog.run_act, Access.effect, Op.effect, hroom, Bool.false_eq_true, if_false,
    Prog.run_ret]
  exact ⟨_, rfl, rfl, Function.update_self _ _ _⟩

/-- A registration gives out the id zero exactly if entry zero is free. -/
theorem register_zero_iff {t t' : KVPrefixTable} {kvOffset : BitVec 64}
    {tokenLen nblocks : BitVec 32} {p : PrefixId}
    (h : kvPrefixRegister t kvOffset tokenLen nblocks = (t', some p)) :
    p = Ledger.firstPair.1 ↔ bit t.prefixBitmap Ledger.firstPair.1 = true := by
  unfold kvPrefixRegister at h
  rcases halloc : bitmapAlloc t.prefixBitmap with _ | ⟨q, bm⟩
  · rw [halloc] at h
    exact absurd (congrArg Prod.snd h) (by simp)
  · rw [halloc] at h
    obtain rfl : q = p := Option.some_inj.mp (congrArg Prod.snd h)
    obtain ⟨q', hlow, heq⟩ := Option.map_eq_some_iff.mp halloc
    obtain rfl : q' = q := congrArg Prod.fst heq
    obtain ⟨hbit, hleast⟩ := lowestBit_eq_some_iff.mp hlow
    constructor
    · rintro rfl
      exact hbit
    · intro hzero
      by_contra hne
      have hpos : Ledger.firstPair.1 < q' := by
        have hval : (q' : ℕ) ≠ 0 := fun hv => hne (Fin.ext hv)
        exact Fin.lt_def.mpr (Nat.pos_of_ne_zero hval)
      rw [hleast _ hpos] at hzero
      exact absurd hzero (by decide)

theorem flags_decodeDesc (ctx : InferHwCtx) (a : DecodeArgs) :
    (decodeDesc ctx a).flags = if a.prefixId ≠ 0 then descFlagCowPrefix else 0 := rfl

/-- A submission shows that it shares a prefix exactly if the prefix id is not zero. -/
theorem enqueuesShared_iff {ctx : InferHwCtx} (hctx : ctx.Valid) {a : DecodeArgs} {p : PrefixId}
    (ha : a.prefixId.toNat = p) {s : Mem} (hroom : hwFullTest s.cmdq.prod s.cmdq.cons 1 = false) :
    EnqueuesShared ctx a p s ↔ p ≠ Ledger.firstPair.1 := by
  obtain ⟨s', hrun, hpub, hslot⟩ := inferSubmitDecode_run hctx a hroom
  have hzero : a.prefixId = 0 ↔ p = Ledger.firstPair.1 := by
    rw [← BitVec.toNat_inj, ha, Fin.ext_iff]
    exact Iff.rfl
  constructor
  · rintro ⟨d, s'', hrun', -, -, -, hflag, -⟩ hp
    rw [hrun] at hrun'
    obtain rfl : decodeDesc ctx a = d := Option.some_inj.mp (congrArg Prod.fst hrun')
    refine hflag ?_
    rw [flags_decodeDesc, if_neg fun hne => hne (hzero.mpr hp)]
    decide
  · intro hp
    have hflags : (decodeDesc ctx a).flags = descFlagCowPrefix := by
      rw [flags_decodeDesc, if_pos fun hz => hp (hzero.mp hz)]
    refine ⟨_, s', hrun, hpub, hslot, ha, ?_, fun ctx' a' ha' => ?_⟩
    · rw [hflags]
      decide
    · rw [hflags, flags_decodeDesc, if_neg fun hne => hne ha']
      decide

/-- **Sharing a registered prefix.** For every table that calls can lead to and every prefix registered
on it, a submission with the id of the prefix, on a valid context and to a ring with room, shows that it
shares the prefix if and only if entry zero was taken when the prefix was registered. -/
theorem inferSubmitDecode_shared_iff (xs : List PrefixCall) {kvOffset : BitVec 64}
    {tokenLen nblocks : BitVec 32} {t : KVPrefixTable} {p : PrefixId}
    (hreg : kvPrefixRegister (Ledger.init.run xs).table kvOffset tokenLen nblocks = (t, some p))
    {ctx : InferHwCtx} (hctx : ctx.Valid) {a : DecodeArgs} (ha : a.prefixId.toNat = p) {s : Mem}
    (hroom : hwFullTest s.cmdq.prod s.cmdq.cons 1 = false) :
    EnqueuesShared ctx a p s ↔
      bit (Ledger.init.run xs).table.prefixBitmap Ledger.firstPair.1 = false := by
  rw [enqueuesShared_iff hctx ha hroom, ne_eq, register_zero_iff hreg, Bool.not_eq_true]

/-- A context whose pointers are there. -/
def someCtx : InferHwCtx := ⟨true, true, 7, 42⟩

/-- A request that shares the prefix `id`. -/
def sharing (id : BitVec 32) : DecodeArgs := ⟨99, 4096, 8192, id, 17, 64⟩

/-- Two empty rings. -/
def emptyMem : Mem := ⟨Ring.zeroed 32 16 default, Ring.zeroed 32 16 default, 0, 0⟩

/-- The second prefix that is registered. -/
def secondPrefixId : PrefixId := ⟨1, by decide⟩

/-- Sharing the second prefix that is registered is visible. -/
theorem inferSubmitDecode_shared_second :
    (kvPrefixRegister (Ledger.init.run [.register 4096 10 2]).table 4096 10 2).2 =
        some secondPrefixId ∧
      EnqueuesShared someCtx (sharing 1) secondPrefixId emptyMem := by
  have hsecond : (kvPrefixRegister (Ledger.init.run [.register 4096 10 2]).table 4096 10 2).2 =
      some secondPrefixId := by decide +kernel
  have hreg : ∀ x : KVPrefixTable × Option PrefixId, x.2 = some secondPrefixId →
      ∃ t, x = (t, some secondPrefixId) := by
    rintro ⟨t, _⟩ rfl
    exact ⟨t, rfl⟩
  obtain ⟨t, ht⟩ := hreg _ hsecond
  have hctx : someCtx.Valid := ⟨rfl, rfl⟩
  refine ⟨hsecond, (inferSubmitDecode_shared_iff _ ht hctx rfl ?_).mpr ?_⟩
  · decide +kernel
  · decide +kernel

/-- Sharing the first prefix that is registered is not. -/
theorem inferSubmitDecode_first_unmarked :
    (kvPrefixRegister Ledger.init.table 4096 10 2).2 = some Ledger.firstPair.1 ∧
      someCtx.Valid ∧ hwFullTest emptyMem.cmdq.prod emptyMem.cmdq.cons 1 = false ∧
      ¬ EnqueuesShared someCtx (sharing 0) Ledger.firstPair.1 emptyMem := by
  have hroom : hwFullTest emptyMem.cmdq.prod emptyMem.cmdq.cons 1 = false := by decide +kernel
  refine ⟨by decide +kernel, ⟨rfl, rfl⟩, hroom, fun h => ?_⟩
  exact (enqueuesShared_iff (a := sharing 0) ⟨rfl, rfl⟩ rfl hroom).mp h rfl

namespace Submit

/-! ### A submitter and a consumer -/

/-- What the submitter, which is the producer of `cmdq`, and the consumer keep between their calls: the
requests with the descriptors accepted for them, and what was popped. -/
def Local : Side → Type
  | .producer => List (DecodeArgs × Option HwDesc)
  | .consumer => List (Option HwDesc)

/-- The calls of the two threads. -/
def Call : Side → Type
  | .producer => DecodeArgs
  | .consumer => Unit

/-- One submission. -/
def submitCall (ctx : Option InferHwCtx) (l : List (DecodeArgs × Option HwDesc)) (a : DecodeArgs) :
    Prog Access Mem (List (DecodeArgs × Option HwDesc)) := do
  let x ← inferSubmitDecode ctx a
  return l ++ [(a, x)]

/-- One pop. -/
def popCall (l : List (Option HwDesc)) : Prog Access Mem (List (Option HwDesc)) := do
  let d ← onCmdq hwRingPop
  return l ++ [d]

/-- The submitter on the context `ctx`, and the consumer. -/
def system (ctx : Option InferHwCtx) : System Side Access Mem Local Call where
  effect := Access.effect
  start
    | .producer, l, a => submitCall ctx l a
    | .consumer, l, _ => popCall l

/-- Both at rest, with the doorbell at the producer index. -/
def start (cmdq doneq : HwRing) (stop : BitVec 32) : Config Side Access Mem Local :=
  .rest ⟨cmdq, doneq, stop, cmdq.prod⟩ fun
    | .producer => ([] : List (DecodeArgs × Option HwDesc))
    | .consumer => ([] : List (Option HwDesc))

/-- The descriptors accepted. -/
def accepted (l : List (DecodeArgs × Option HwDesc)) : List HwDesc := l.flatMap (·.2.toList)

/-! ### The discipline -/

/-- The doorbell announces the first `m` descriptors published: all of them, or all but the last. -/
def Announces (s : Mem) (m : ℕ) : Prop :=
  s.doorbell = BitVec.ofNat 32 m ∧ m ≤ s.cmdq.published.length ∧ s.cmdq.published.length ≤ m + 1

/-- The ring is in order, and the doorbell announces only what is published. -/
structure Inv (s : Mem) : Prop where
  cmdq : s.cmdq.Inv
  announces : ∃ m, Announces s m

/-- What a thread relies on. -/
def RelyOn : Side → Mem → Mem → Prop
  | .producer, s, s' => Rely .producer s.cmdq s'.cmdq ∧ s'.doorbell = s.doorbell
  | .consumer, s, s' => Rely .consumer s.cmdq s'.cmdq

/-- What a thread may do: the submitter publishes at most one descriptor beyond those announced, and
stores the producer index to the doorbell. -/
def Permitted : Side → Access → Mem → Prop
  | .producer, .cmd o, s => ∃ m, s.doorbell = BitVec.ofNat 32 m ∧ m ≤ s.cmdq.published.length ∧
      May (·.length ≤ m + 1) .producer o s.cmdq
  | .producer, .storeDoorbell v, s => v = s.cmdq.prod
  | .consumer, .cmd o, s => May (unguarded _) .consumer o s.cmdq
  | _, _, _ => False

theorem permitted_inv {i : Side} {o : Access} {s : Mem} (hs : Inv s) (h : Permitted i o s) :
    Inv (o.effect s) := by
  obtain ⟨hring, m, hm⟩ := hs
  cases i with
  | producer =>
    cases o with
    | cmd o =>
      obtain ⟨m', hdoorbell, hle, hmay⟩ := h
      refine ⟨hmay.inv hring, ?_⟩
      rcases hmay.published with hsame | hguard
      · exact ⟨m, hm.1, by simpa only [Access.effect, hsame] using hm.2⟩
      · exact ⟨m', hdoorbell, hle.trans (o.published_le s.cmdq).length_le, hguard⟩
    | storeDoorbell v =>
      obtain rfl : v = s.cmdq.prod := h
      exact ⟨hring, s.cmdq.published.length, hring.prod_eq, le_rfl, Nat.le_succ _⟩
    | done | loadStop | storeStop => exact h.elim
  | consumer =>
    cases o with
    | cmd o =>
      have hmay : May (unguarded _) .consumer o s.cmdq := h
      have hpub : (o.effect s.cmdq).published = s.cmdq.published := hmay.rely_producer.published_eq
      exact ⟨hmay.inv hring, m, hm.1, by simpa only [Access.effect, hpub] using hm.2⟩
    | done | loadStop | storeStop | storeDoorbell => exact h.elim

theorem permitted_rely {i j : Side} {o : Access} {s : Mem} (hij : i ≠ j) (h : Permitted i o s) :
    RelyOn j s (o.effect s) := by
  cases i with
  | producer =>
    cases j with
    | producer => exact absurd rfl hij
    | consumer =>
      cases o with
      | cmd o =>
        obtain ⟨_, -, -, hmay⟩ := h
        exact hmay.rely_consumer
      | storeDoorbell v => exact Rely.refl .consumer s.cmdq
      | done | loadStop | storeStop => exact h.elim
  | consumer =>
    cases j with
    | consumer => exact absurd rfl hij
    | producer =>
      cases o with
      | cmd o => exact ⟨May.rely_producer (G := unguarded _) h, rfl⟩
      | done | loadStop | storeStop | storeDoorbell => exact h.elim

/-- The discipline of the submitter and the consumer. -/
def discipline : Discipline Side Access Mem where
  effect := Access.effect
  inv := Inv
  rely := RelyOn
  cond _ _ _ := True
  may := Permitted
  rely_refl i s := by
    cases i with
    | producer => exact ⟨Rely.refl .producer s.cmdq, rfl⟩
    | consumer => exact Rely.refl .consumer s.cmdq
  rely_trans i _ _ _ h h' := by
    cases i with
    | producer => exact ⟨h.1.trans h'.1, h'.2.trans h.2⟩
    | consumer => exact Rely.trans (i := .consumer) h h'
  inv_effect hs _ h := permitted_inv hs h
  rely_effect hij _ _ h := permitted_rely hij h

/-! ### The threads obey the discipline -/

/-- Between its calls the submitter has the doorbell at the producer index. -/
theorem doorbell_of_published {s : Mem} (hs : Inv s) {m : ℕ} (hdoorbell : s.doorbell = BitVec.ofNat 32 m)
    (hpub : s.cmdq.published.length = m) : s.doorbell = s.cmdq.prod := by
  rw [hdoorbell, hs.cmdq.prod_eq, hpub]

/-- **A push by the submitter**, which leaves the doorbell where it is. -/
theorem onCmdq_push_ok (d : HwDesc) {s : Mem} (hs : Inv s) (hdoorbell : s.doorbell = s.cmdq.prod) :
    discipline.Ok .producer
      (fun x s' => s'.cmdq.published = s.cmdq.published ++ (if x then [d] else []) ∧
        s'.doorbell = BitVec.ofNat 32 s.cmdq.published.length)
      (onCmdq (hwRingPush d)) s := by
  have hpush := push_ok (k := 16) (G := (·.length ≤ s.cmdq.published.length + 1)) (by decide)
    roomSound_hwRing (a := d) hs.cmdq (by simp)
  refine Discipline.ok_mono _ (Discipline.ok_zoom discipline _ .cmd Mem.cmdq
    (fun s' => s'.doorbell = BitVec.ofNat 32 s.cmdq.published.length ∧
      s.cmdq.published.length ≤ s'.cmdq.published.length)
    hpush ⟨hdoorbell.trans hs.cmdq.prod_eq, le_rfl⟩ (fun _ _ => rfl) (fun _ h => h.cmdq)
    (fun _ _ h => h.1) (fun _ _ _ _ => trivial) ?_ ?_ ?_) fun x s' _ h => ⟨h.1.1, h.2.1⟩
  · rintro o s' - ⟨hd, hle⟩ hmay
    exact ⟨_, hd, hle, hmay⟩
  · rintro s₁ s₂ ⟨hd, hle⟩ ⟨⟨-, -, -, hpub, -⟩, hsame⟩
    exact ⟨hsame.trans hd, by rwa [hpub]⟩
  · rintro o s₁ ⟨hd, hle⟩
    exact ⟨hd, hle.trans (o.published_le s₁.cmdq).length_le⟩

/-- **A submission.** -/
theorem inferSubmitDecode_rings (ctx : Option InferHwCtx) (a : DecodeArgs) {s : Mem} (hs : Inv s)
    (hdoorbell : s.doorbell = s.cmdq.prod) :
    discipline.Ok .producer
      (fun x s' => s'.doorbell = s'.cmdq.prod ∧
        s'.cmdq.published = s.cmdq.published ++ x.toList)
      (inferSubmitDecode ctx a) s := by
  have hnone : discipline.Ok .producer
      (fun x s' => s'.doorbell = s'.cmdq.prod ∧
        s'.cmdq.published = s.cmdq.published ++ Option.toList x) (.ret (none : Option HwDesc)) s :=
    fun s' hr _ => ⟨by rw [hr.2, hr.1.1, hdoorbell], by simpa using hr.1.published_eq⟩
  cases ctx with
  | none => exact hnone
  | some ctx =>
    simp only [inferSubmitDecode]
    split_ifs
    · exact hnone
    · refine Discipline.ok_bind _ hs (onCmdq_push_ok _ hs hdoorbell) ?_
      rintro x s₁ hs₁ ⟨hpub, hbell⟩
      cases x with
      | false =>
        rw [if_neg (by decide), List.append_nil] at hpub
        intro s₂ hr hs₂
        have hpub₂ : s₂.cmdq.published = s.cmdq.published := hr.1.published_eq.trans hpub
        refine ⟨doorbell_of_published hs₂ (hr.2.trans hbell) (by rw [hpub₂]), ?_⟩
        rw [hpub₂]
        exact (List.append_nil _).symm
      | true =>
        -- the producer index is loaded again; nobody else stores it
        intro s₂ h₂ _ _
        refine ⟨⟨_, h₂.2.trans hbell, ?_, trivial⟩, fun s₃ h₃ _ _ => ⟨h₃.1.1.symm, fun s₄ h₄ _ => ?_⟩⟩
        · rw [h₂.1.published_eq, hpub, List.length_append]
          exact Nat.le_add_right _ _
        · refine ⟨?_, h₄.1.published_eq.trans (h₃.1.published_eq.trans (h₂.1.published_eq.trans hpub))⟩
          rw [h₄.2, h₄.1.1]
          exact h₃.1.1.symm

/-- What the two threads know when they are at rest. -/
def Known (r₀ : HwRing) : (i : Side) → Local i → Mem → Prop
  | .producer, l, s => s.doorbell = s.cmdq.prod ∧
      s.cmdq.published = r₀.published ++ accepted l
  | .consumer, l, s => s.cmdq.taken = r₀.taken ++ (l : List (Option HwDesc)).reduceOption

section Run

variable {r₀ : HwRing}

theorem submitCall_ok (ctx : Option InferHwCtx) (l : List (DecodeArgs × Option HwDesc))
    (a : DecodeArgs) {s : Mem} (hs : Inv s) (hl : Known r₀ .producer l s) :
    discipline.Ok .producer (Known r₀ .producer) (submitCall ctx l a) s := by
  obtain ⟨hdoorbell, hpub⟩ := hl
  refine Discipline.ok_bind _ hs (inferSubmitDecode_rings ctx a hs hdoorbell) ?_
  rintro x s₁ - ⟨hbell, hpub₁⟩ s₂ hr -
  refine ⟨by rw [hr.2, hr.1.1, hbell], ?_⟩
  rw [hr.1.published_eq, hpub₁, hpub, List.append_assoc]
  simp [accepted]

theorem popCall_ok (l : List (Option HwDesc)) {s : Mem} (hs : Inv s) (hl : Known r₀ .consumer l s) :
    discipline.Ok .consumer (Known r₀ .consumer) (popCall l) s := by
  have hpop : (spsc 32 16 (unguarded HwDesc)).Ok .consumer
      (fun x r' => r'.taken = s.cmdq.taken ++ x.toList) hwRingPop s.cmdq :=
    consume_ok (by decide) emptySound_eqEmpty
  refine Discipline.ok_bind _ hs (Discipline.ok_component discipline _ .cmd Mem.cmdq hpop
    (fun _ _ => rfl) (fun _ h => h.cmdq) (fun _ _ h => h) (fun _ _ _ => trivial) fun _ _ _ h => h) ?_
  rintro d s₁ - htaken s₂ hr -
  have hl' : s.cmdq.taken = r₀.taken ++ l.reduceOption := hl
  change s₂.cmdq.taken = r₀.taken ++ (l ++ [d]).reduceOption
  rw [hr.2.1, htaken, hl', ← List.concat_eq_append, List.reduceOption_concat, List.append_assoc]

theorem good (hr : r₀.Inv) (ctx : Option InferHwCtx) (doneq : HwRing) (stop : BitVec 32)
    (es : List ((i : Side) × Call i)) :
    discipline.Good (Known r₀) ((system ctx).run (start r₀ doneq stop) es) := by
  refine Discipline.sound _ rfl (fun i l x s hs hl => ?_) ?_ ((system ctx).meets_true _ _)
  · cases i with
    | producer => exact submitCall_ok ctx l x hs hl
    | consumer => exact popCall_ok l hs hl
  · refine Discipline.good_rest _ ⟨hr, _, hr.prod_eq, le_rfl, Nat.le_succ _⟩ fun i s' hrely _ => ?_
    cases i with
    | producer =>
      refine ⟨hrely.2.trans hrely.1.1.symm, ?_⟩
      rw [hrely.1.published_eq]
      exact (List.append_nil _).symm
    | consumer => exact hrely.2.1.trans (List.append_nil _).symm

/-- What one submission, accepted or refused, does to the ring and the doorbell. -/
theorem submission (hr : r₀.Inv) (ctx : Option InferHwCtx) (doneq : HwRing) (stop : BitVec 32)
    (es es' : List ((i : Side) × Call i)) {l : List (DecodeArgs × Option HwDesc)} {a : DecodeArgs}
    {x : Option HwDesc}
    (hl : ((system ctx).run (start r₀ doneq stop) es).threads .producer = .ret l)
    (hl' : ((system ctx).run ((system ctx).run (start r₀ doneq stop) es) es').threads .producer =
      .ret (l ++ [(a, x)])) :
    let s := ((system ctx).run (start r₀ doneq stop) es).mem
    let s' := ((system ctx).run ((system ctx).run (start r₀ doneq stop) es) es').mem
    s.doorbell = s.cmdq.prod ∧ s'.doorbell = s'.cmdq.prod ∧
      s'.cmdq.published = s.cmdq.published ++ x.toList ∧
      s'.cmdq.prod = s.cmdq.prod + BitVec.ofNat 32 x.toList.length := by
  have hgood := good hr ctx doneq stop es
  have hgood' := good hr ctx doneq stop (es ++ es')
  rw [System.run_append] at hgood'
  obtain ⟨hbell, hpub⟩ : Known r₀ .producer l _ := hgood.rest hl
  obtain ⟨hbell', hpub'⟩ : Known r₀ .producer (l ++ [(a, x)]) _ := hgood'.rest hl'
  have hinv : Contents 16 _ _ _ _ _ := hgood.1.cmdq
  have hinv' : Contents 16 _ _ _ _ _ := hgood'.1.cmdq
  intro s s'
  have happend : s'.cmdq.published = s.cmdq.published ++ x.toList := by
    rw [hpub', hpub, List.append_assoc]
    simp [accepted]
  refine ⟨hbell, hbell', happend, ?_⟩
  rw [hinv'.prod_eq, hinv.prod_eq, happend, List.length_append, BitVec.ofNat_add]

end Run

/-- **The doorbell.** From any state of the ring whose indices fit it, with the doorbell at the producer
index, and in every interleaving of submissions on one context with a consumer: at every step the
doorbell announces the first `m` descriptors published, at most one less than all, and those of them
that were not popped lie completely written in their slots. A submission that fails leaves the published
descriptors, the producer index and the doorbell as they are, and none of its steps changes anything;
one that succeeds publishes one descriptor, advances the producer index by one and leaves the doorbell
there. -/
theorem inferSubmitDecode_doorbell (ctx : Option InferHwCtx) (tail head : BitVec 32)
    (slots : Fin (2 ^ 16) → HwDesc) (doneq : HwRing) (stop : BitVec 32)
    (hocc : (tail - head).toNat ≤ 2 ^ 16) (es : List ((i : Side) × Call i)) :
    let c := (system ctx).run (start (Ring.ofState tail head slots) doneq stop) es
    (∃ m, c.mem.doorbell = BitVec.ofNat 32 m ∧ m ≤ c.mem.cmdq.published.length ∧
      c.mem.cmdq.published.length ≤ m + 1 ∧
      ∀ n, c.mem.cmdq.taken.length ≤ n → n < m →
        c.mem.cmdq.published[n]? = some (c.mem.cmdq.slots (pos 16 n))) ∧
    (∀ (es' : List ((i : Side) × Call i)) (l : List (DecodeArgs × Option HwDesc)) (a : DecodeArgs)
      (x : Option HwDesc),
      c.threads .producer = .ret l →
      ((system ctx).run c es').threads .producer = .ret (l ++ [(a, x)]) →
      let c' := (system ctx).run c es'
      match x with
      | none => c'.mem.cmdq.published = c.mem.cmdq.published ∧
          c'.mem.cmdq.prod = c.mem.cmdq.prod ∧ c'.mem.doorbell = c.mem.doorbell
      | some d => c'.mem.cmdq.published = c.mem.cmdq.published ++ [d] ∧
          c'.mem.cmdq.prod = c.mem.cmdq.prod + 1 ∧ c'.mem.doorbell = c'.mem.cmdq.prod) ∧
    ∀ (a : DecodeArgs) (tr : List (Access × Mem)),
      Prog.Trace (inferSubmitDecode ctx a) tr none → ∀ y ∈ tr, y.1.effect y.2 = y.2 := by
  intro c
  have hr : (Ring.ofState tail head slots : HwRing).Inv := Ring.ofState_inv hocc
  obtain ⟨hring, m, hbell, hle, hlag⟩ := (good hr ctx doneq stop es).1
  refine ⟨⟨m, hbell, hle, hlag, fun n hn hnm => Contents.live hring n hn (hnm.trans_le hle)⟩,
    fun es' l a x hl hl' => ?_, fun a tr htr => inferSubmitDecode_refused htr⟩
  obtain ⟨hbell, hbell', hpub, hprod⟩ := submission hr ctx doneq stop es es' hl hl'
  cases x with
  | none =>
    have hsame := hprod.trans (BitVec.add_zero _)
    exact ⟨hpub.trans (List.append_nil _), hsame, hbell'.trans (hsame.trans hbell.symm)⟩
  | some d => exact ⟨hpub, hprod, hbell'⟩

/-- A submission to a ring whose indices are about to wrap. -/
theorem inferSubmitDecode_doorbell_wrapping :
    let c := (system (some someCtx)).run
      (start (Ring.ofState 0xffffffff 0xffffffff fun _ => default) (Ring.zeroed 32 16 default) 0)
      (List.replicate 7 ⟨.producer, sharing 1⟩)
    c.mem.cmdq.prod = 0 ∧ ∃ m, c.mem.doorbell = BitVec.ofNat 32 m ∧
      m ≤ c.mem.cmdq.published.length := by
  obtain ⟨⟨m, hbell, hle, -⟩, -⟩ := inferSubmitDecode_doorbell (some someCtx) 0xffffffff 0xffffffff
    (fun _ => default) (Ring.zeroed 32 16 default) 0 (by decide)
    (List.replicate 7 ⟨.producer, sharing 1⟩)
  dsimp only
  exact ⟨by decide +kernel, m, hbell, hle⟩

end Submit

end Hw

end RolloutRuntime
