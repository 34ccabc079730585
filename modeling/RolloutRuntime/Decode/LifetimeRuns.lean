import RolloutRuntime.Decode.Lifetime
import Mathlib.Algebra.Order.BigOperators.Group.Finset
import Mathlib.Algebra.Order.Group.Multiset

/-!
# Runs of the runtime

What the workers took is, all together, what left the command ring, and what they pushed is what entered
the completion ring; each worker pushes the completions of what it took, in order, and a sentinel is the
last thing it takes. So the host, which counts completions, counts at most one for each step it committed.

## Main definitions

* `Lifetime.Mem.Inv`: the rings with the records of the workers.
* `Lifetime.discipline`: what the threads may do and rely on.
* `Lifetime.Known`: what the threads know between their passes.

## Main results

* `Lifetime.runtime_lifetime`: in every run the host goes on to the shutdown only if all steps were
  committed, completed and polled once; no worker returns before; and for every worker that has not
  returned a sentinel is left.

## References

* `src/main.c` lines 113–265, `cu/worker.cu` lines 60–131.
-/

namespace RolloutRuntime

open Concurrency RingBuffer

namespace Lifetime

/-! ### Sums over the workers -/

theorem sum_update {N : ℕ} {β M : Type} [AddCommMonoid M] (g : β → M) (f : Fin N → β) (j : Fin N)
    {b : β} {a : M} (h : g b = g (f j) + a) :
    ∑ i, g (Function.update f j b i) = ∑ i, g (f i) + a := by
  have hrest : ∑ i ∈ Finset.univ.erase j, g (Function.update f j b i) =
      ∑ i ∈ Finset.univ.erase j, g (f i) := by
    refine Finset.sum_congr rfl fun i hi => ?_
    rw [Function.update_of_ne (Finset.ne_of_mem_erase hi)]
  rw [← Finset.add_sum_erase _ _ (Finset.mem_univ j), hrest, Function.update_self, h,
    ← Finset.add_sum_erase _ (fun i => g (f i)) (Finset.mem_univ j)]
  exact add_right_comm _ _ _

/-! ### The discipline -/

/-- What identifies a descriptor. -/
def descKey (d : Descriptor) : BitVec 64 × BitVec 64 := (d.seqId, d.rewardCookie)

variable {N : ℕ}

/-- Both rings are in order and agree with the records of the workers; the head of the command ring has
not wrapped; each worker pushed completions of what it took, in order, and none of a sentinel; and the
counter has counted the steps the workers counted. -/
structure Mem.Inv (s : Mem N) : Prop where
  ring : s.ring.Inv
  short : s.ring.taken.length < 2 ^ 32
  compRing : s.compRing.Inv
  got : (s.ring.taken : Multiset Descriptor) = ∑ i, (s.got i : Multiset Descriptor)
  pushed : (s.compRing.published : Multiset Completion) = ∑ i, (s.pushed i : Multiset Completion)
  keys : ∀ i, (s.pushed i).map Workers.key <+: (s.got i).map descKey
  real : ∀ i, ∀ c ∈ s.pushed i, c.seqId ≠ Workers.sentinel
  count : s.stepCount = BitVec.ofNat 64 (∑ i, s.counted i)

/-- What a worker relies on: the others leave its records alone, and a worker that is alone is the only
consumer of the command ring and the only producer of the completion ring. -/
structure WorkerRely (i : Fin N) (s s' : Mem N) : Prop where
  taken : s.ring.taken <+: s'.ring.taken
  published : s.ring.published <+: s'.ring.published
  got : s'.got i = s.got i
  pushed : s'.pushed i = s.pushed i
  counted : s'.counted i = s.counted i
  alone : N = 1 → Rely .consumer s.ring s'.ring ∧ Rely .producer s.compRing s'.compRing

/-- What a thread relies on. -/
def RelyOn : Thread N → Mem N → Mem N → Prop
  | .host, s, s' => Rely .producer s.ring s'.ring ∧ Rely .consumer s.compRing s'.compRing
  | .worker i, s, s' => WorkerRely i s s'

/-- What a thread may do. -/
def Permitted : Thread N → Access N → Mem N → Prop
  | .host, .dispatch o, s => Dispatch.RingMay .dispatcher o s.dispatch
  | .host, .poll o, s => May (unguarded _) .consumer o s.compRing
  | .worker i, .consume j o, s => i = j ∧ May (unguarded _) .consumer o s.ring ∧
      s.ring.taken.length + (takes o).length < 2 ^ 32
  | .worker i, .push j o, s => i = j ∧ May (unguarded _) .producer o s.compRing ∧
      (s.pushed i ++ publishes o).map Workers.key <+: (s.got i).map descKey ∧
      ∀ c ∈ publishes o, c.seqId ≠ Workers.sentinel
  | .worker i, .countStep j, _ => i = j
  | _, _, _ => False

theorem WorkerRely.refl (i : Fin N) (s : Mem N) : WorkerRely i s s :=
  ⟨List.prefix_rfl, List.prefix_rfl, rfl, rfl, rfl, fun _ => ⟨Rely.refl _ _, Rely.refl _ _⟩⟩

theorem WorkerRely.trans {i : Fin N} {s s' s'' : Mem N} (h : WorkerRely i s s')
    (h' : WorkerRely i s' s'') : WorkerRely i s s'' where
  taken := h.taken.trans h'.taken
  published := h.published.trans h'.published
  got := h'.got.trans h.got
  pushed := h'.pushed.trans h.pushed
  counted := h'.counted.trans h.counted
  alone hN := ⟨Rely.trans (i := .consumer) (h.alone hN).1 (h'.alone hN).1,
    Rely.trans (i := .producer) (h.alone hN).2 (h'.alone hN).2⟩

theorem taken_effect (o : Op 32 Descriptor) (r : CommandRing) :
    (o.effect r).taken = r.taken ++ takes o := by
  cases o <;> simp [Op.effect, takes]

theorem published_effect (o : Op 32 Completion) (r : CompletionRing) :
    (o.effect r).published = r.published ++ publishes o := by
  cases o <;> simp [Op.effect, publishes]

section Steps

variable {s : Mem N} {o : Access N}

theorem dispatch_taken {o : Dispatch.Access} (h : Dispatch.RingMay .dispatcher o s.dispatch) :
    Rely .consumer s.ring (o.effect s.dispatch).ring := by
  cases o with
  | ring o =>
    have hmay : May (unguarded _) .producer o s.ring := h
    exact hmay.rely_consumer
  | prepareSlot => exact Rely.refl _ _

theorem Mem.Inv.consume (hs : s.Inv) {i : Fin N} {o : Op 32 Descriptor}
    (hmay : May (unguarded _) .consumer o s.ring)
    (hshort : s.ring.taken.length + (takes o).length < 2 ^ 32) :
    (Access.effect (.consume i o) s).Inv := by
  refine ⟨hmay.inv hs.ring, ?_, hs.compRing, ?_, hs.pushed, fun j => ?_, hs.real, hs.count⟩
  · simpa [Access.effect, taken_effect] using hshort
  · have hsum := sum_update (fun l : List Descriptor => (l : Multiset Descriptor)) s.got i
      (b := s.got i ++ takes o) (a := (takes o : Multiset Descriptor)) (Multiset.coe_add _ _).symm
    simp only [Access.effect, taken_effect]
    rw [hsum, ← hs.got, Multiset.coe_add]
  · by_cases hj : j = i
    · subst hj
      simp only [Access.effect, Function.update_self, List.map_append]
      exact (hs.keys j).trans (List.prefix_append _ _)
    · simpa only [Access.effect, Function.update_of_ne hj] using hs.keys j

theorem Mem.Inv.push (hs : s.Inv) {i : Fin N} {o : Op 32 Completion}
    (hmay : May (unguarded _) .producer o s.compRing)
    (hkeys : (s.pushed i ++ publishes o).map Workers.key <+: (s.got i).map descKey)
    (hreal : ∀ c ∈ publishes o, c.seqId ≠ Workers.sentinel) :
    (Access.effect (.push i o) s).Inv := by
  refine ⟨hs.ring, hs.short, hmay.inv hs.compRing, hs.got, ?_, fun j => ?_, fun j c hc => ?_, hs.count⟩
  · have hsum := sum_update (fun l : List Completion => (l : Multiset Completion)) s.pushed i
      (b := s.pushed i ++ publishes o) (a := (publishes o : Multiset Completion))
      (Multiset.coe_add _ _).symm
    simp only [Access.effect, published_effect]
    rw [hsum, ← hs.pushed, Multiset.coe_add]
  · by_cases hj : j = i
    · subst hj
      simpa only [Access.effect, Function.update_self] using hkeys
    · simpa only [Access.effect, Function.update_of_ne hj] using hs.keys j
  · by_cases hj : j = i
    · subst hj
      simp only [Access.effect, Function.update_self] at hc
      exact (List.mem_append.mp hc).elim (hs.real j c) (hreal c)
    · simp only [Access.effect, Function.update_of_ne hj] at hc
      exact hs.real j c hc

theorem permitted_inv {i : Thread N} (hs : s.Inv) (h : Permitted i o s) : (o.effect s).Inv := by
  cases i with
  | host =>
    cases o with
    | dispatch o =>
      have hrely := dispatch_taken h
      have htaken : (o.effect s.dispatch).ring.taken = s.ring.taken := hrely.taken_eq
      have hring : (o.effect s.dispatch).ring.Inv :=
        Dispatch.ringDiscipline.inv_effect (i := .dispatcher) hs.ring trivial h
      refine ⟨hring, ?_, hs.compRing, ?_, hs.pushed, hs.keys, hs.real, hs.count⟩
      · simpa only [Access.effect, htaken] using hs.short
      · simpa only [Access.effect, htaken] using hs.got
    | poll o =>
      have hmay : May (unguarded _) .consumer o s.compRing := h
      have hpub := hmay.rely_producer.published_eq
      refine ⟨hs.ring, hs.short, hmay.inv hs.compRing, hs.got, ?_, hs.keys, hs.real, hs.count⟩
      simpa only [Access.effect, hpub] using hs.pushed
    | consume | push | countStep => exact h.elim
  | worker i =>
    cases o with
    | dispatch | poll => exact h.elim
    | consume j o =>
      obtain ⟨rfl, hmay, hshort⟩ := h
      exact hs.consume hmay hshort
    | push j o =>
      obtain ⟨rfl, hmay, hkeys, hreal⟩ := h
      exact hs.push hmay hkeys hreal
    | countStep j =>
      refine ⟨hs.ring, hs.short, hs.compRing, hs.got, hs.pushed, hs.keys, hs.real, ?_⟩
      have hsum := sum_update (fun n : ℕ => n) s.counted j (b := s.counted j + 1) (a := 1) rfl
      simp only [Access.effect]
      rw [hsum, hs.count, BitVec.ofNat_add]
      rfl

theorem permitted_rely {i j : Thread N} (hij : i ≠ j) (h : Permitted i o s) :
    RelyOn j s (o.effect s) := by
  cases i with
  | host =>
    cases j with
    | host => exact absurd rfl hij
    | worker j =>
      cases o with
      | consume | push | countStep => exact h.elim
      | dispatch o =>
        have hrely := dispatch_taken h
        exact ⟨hrely.taken_eq ▸ List.prefix_rfl, hrely.published_isPrefix, rfl, rfl, rfl,
          fun _ => ⟨hrely, Rely.refl _ _⟩⟩
      | poll o =>
        have hmay : May (unguarded _) .consumer o s.compRing := h
        exact ⟨List.prefix_rfl, List.prefix_rfl, rfl, rfl, rfl,
          fun _ => ⟨Rely.refl _ _, hmay.rely_producer⟩⟩
  | worker i =>
    cases o with
    | dispatch | poll => exact h.elim
    | consume k o =>
      obtain ⟨rfl, hmay, -⟩ := h
      cases j with
      | host => exact ⟨hmay.rely_producer, Rely.refl _ _⟩
      | worker j =>
        have hji : j ≠ i := fun hji => hij (by rw [hji])
        refine ⟨hmay.rely_producer.taken_isPrefix, hmay.rely_producer.published_eq ▸ List.prefix_rfl,
          Function.update_of_ne hji _ _, rfl, rfl, fun hN => ?_⟩
        subst hN
        exact absurd (Subsingleton.elim j i) hji
    | push k o =>
      obtain ⟨rfl, hmay, -⟩ := h
      cases j with
      | host => exact ⟨Rely.refl _ _, hmay.rely_consumer⟩
      | worker j =>
        have hji : j ≠ i := fun hji => hij (by rw [hji])
        refine ⟨List.prefix_rfl, List.prefix_rfl, rfl, Function.update_of_ne hji _ _, rfl,
          fun hN => ?_⟩
        subst hN
        exact absurd (Subsingleton.elim j i) hji
    | countStep k =>
      obtain rfl : i = k := h
      cases j with
      | host => exact ⟨Rely.refl _ _, Rely.refl _ _⟩
      | worker j =>
        have hji : j ≠ i := fun hji => hij (by rw [hji])
        exact ⟨List.prefix_rfl, List.prefix_rfl, rfl, rfl, Function.update_of_ne hji _ _,
          fun _ => ⟨Rely.refl _ _, Rely.refl _ _⟩⟩

end Steps

/-- The discipline of the host and `N` workers. -/
def discipline (N : ℕ) : Discipline (Thread N) (Access N) (Mem N) where
  effect := Access.effect
  inv := Mem.Inv
  rely := RelyOn
  cond := InTurn
  may := Permitted
  rely_refl i s := by
    cases i with
    | host => exact ⟨Rely.refl _ _, Rely.refl _ _⟩
    | worker i => exact WorkerRely.refl i s
  rely_trans i s s' s'' h h' := by
    cases i with
    | host => exact ⟨Rely.trans (i := .producer) h.1 h'.1, Rely.trans (i := .consumer) h.2 h'.2⟩
    | worker i => exact WorkerRely.trans h h'
  inv_effect hs _ h := permitted_inv hs h
  rely_effect hij _ _ h := permitted_rely hij h

/-! ### The workers obey the discipline -/

section Workers

variable {s s' : Mem N}

/-- What a worker took left the ring. -/
theorem Mem.Inv.got_subset (hs : s.Inv) (i : Fin N) : s.got i ⊆ s.ring.taken := by
  intro d hd
  have hd' : d ∈ ∑ i, (s.got i : Multiset Descriptor) := Multiset.mem_sum.mpr ⟨i, Finset.mem_univ i, hd⟩
  rw [← hs.got] at hd'
  exact hd'

/-- The rings obey the discipline of workers in turn. -/
theorem Mem.Inv.rings (hs : s.Inv) : s.rings.Inv := by
  refine ⟨hs.ring, hs.short, hs.compRing, fun c hc => ?_⟩
  have hmem : c ∈ ∑ i, (s.pushed i : Multiset Completion) := by
    rw [← hs.pushed]
    exact hc
  obtain ⟨i, -, hi⟩ := Multiset.mem_sum.mp hmem
  obtain ⟨d, hd, hkey⟩ := List.mem_map.mp ((hs.keys i).subset (List.mem_map_of_mem hi))
  exact ⟨d, hs.got_subset i hd, hkey.symm⟩

theorem WorkerRely.rings {i : Fin N} (h : WorkerRely i s s') :
    Workers.RelyOn (.worker i) s.rings s'.rings := ⟨h.taken, h.published⟩

/-- What a worker took, pushed and counted so far. -/
structure Recorded (i : Fin N) (s : Mem N) (ds : List Descriptor) (cs : List Completion) (n : ℕ) :
    Prop where
  got : s.got i = ds
  pushed : s.pushed i = cs
  counted : s.counted i = n

variable {i : Fin N} {ds : List Descriptor} {cs : List Completion} {n : ℕ}

theorem Recorded.rely (h : Recorded i s ds cs n) (hr : WorkerRely i s s') : Recorded i s' ds cs n :=
  ⟨hr.got.trans h.got, hr.pushed.trans h.pushed, hr.counted.trans h.counted⟩

theorem Recorded.consume (h : Recorded i s ds cs n) (o : Op 32 Descriptor) :
    Recorded i (Access.effect (.consume i o) s) (ds ++ takes o) cs n :=
  ⟨by simp [Access.effect, h.got], h.pushed, h.counted⟩

theorem Recorded.push (h : Recorded i s ds cs n) (o : Op 32 Completion) :
    Recorded i (Access.effect (.push i o) s) ds (cs ++ publishes o) n :=
  ⟨h.got, by simp [Access.effect, h.pushed], h.counted⟩

/-- **A poll of a worker.** What it returns is what the worker took. -/
theorem consume_recorded (h : Recorded i s ds cs n) :
    (discipline N).Ok (.worker i) (fun x s' => Recorded i s' (ds ++ x.toList) cs n)
      (ringConsume.zoom (.consume i) Mem.ring) s := by
  have hturns := Workers.worker_ringConsume_ok (s := s.rings) i
  have halone : (spsc 32 12 (unguarded _)).Ok .consumer _ ringConsume s.ring :=
    consume_ok (by decide) emptySound_orderedEmpty
  rw [Workers.onRing, ringConsume, consume_eq] at hturns
  rw [ringConsume, consume_eq] at halone
  rw [ringConsume, consume_eq]
  intro s₁ r₁ i₁ _
  have t₁ := (hturns s₁.rings r₁.rings i₁.rings trivial).2
  have a₁ := fun hN => (halone s₁.ring (r₁.alone hN).1 i₁.ring trivial).2
  refine ⟨⟨rfl, trivial, i₁.short⟩, ?_⟩
  intro s₂ r₂ i₂ _
  have t₂ := (t₁ s₂.rings r₂.rings i₂.rings trivial).2
  have a₂ := fun hN => (a₁ hN s₂.ring (r₂.alone hN).1 i₂.ring trivial).2
  refine ⟨⟨rfl, trivial, i₂.short⟩, ?_⟩
  have h₂ := (((h.rely r₁).consume .loadCons).rely r₂).consume .loadProd
  beta_reduce at t₂ a₂ ⊢
  by_cases hempty : orderedEmpty s₁.ring.cons s₂.ring.prod = true
  · rw [if_pos hempty]
    intro s₃ r₃ _
    simpa [takes] using h₂.rely r₃
  · have hempty' : ¬ orderedEmpty s₁.rings.ring.cons s₂.rings.ring.prod = true := hempty
    rw [if_neg hempty]
    rw [if_neg hempty'] at t₂
    simp only [if_neg hempty] at a₂
    intro s₃ r₃ i₃ _
    have t₃ := (t₂ s₃.rings r₃.rings i₃.rings trivial).2
    have a₃ := fun hN => (a₂ hN s₃.ring (r₃.alone hN).1 i₃.ring trivial).2
    refine ⟨⟨rfl, trivial, i₃.short⟩, ?_⟩
    intro s₄ r₄ i₄ hturn
    -- alone or in turn, the head is the one that was loaded
    have hhead : s₁.ring.cons + 1 = s₄.ring.cons + 1 := by
      by_cases hN : N = 1
      · exact (a₃ hN s₄.ring (r₄.alone hN).1 i₄.ring trivial).1.1
      · exact hturn hN
    obtain ⟨hold, hshort⟩ := (t₃ s₄.rings r₄.rings i₄.rings hhead).1
    refine ⟨⟨rfl, ⟨hhead, hold⟩, hshort⟩, ?_⟩
    intro s₅ r₅ _
    have h₅ := (((h₂.rely r₃).consume (.readSlot s₁.ring.cons)).rely r₄).consume
      (.storeCons (s₁.ring.cons + 1) (s₃.ring.slots (mask 12 s₁.ring.cons)))
    simpa [takes] using h₅.rely r₅

theorem push_eq (noRoom : BitVec 32 → BitVec 32 → BitVec 32 → Bool) (c : Completion) :
    (push ⟨false, noRoom, true⟩ c : Prog (Op 32 Completion) CompletionRing Bool) =
      .act .loadCons fun r => .act .loadProd fun r' =>
        if noRoom r'.prod r.cons 1 then .act .countOverflow fun _ => .ret false
        else .act (.writeSlot r'.prod c) fun _ => .act (.storeProd (r'.prod + 1) [c]) fun _ =>
          .ret true := by
  refine congrArg (Prog.act Op.loadCons) (funext fun r => congrArg (Prog.act Op.loadProd)
    (funext fun r' => ?_))
  change (if noRoom r'.prod r.cons 1 then .act .countOverflow fun _ => .ret none
    else .ret (some r'.prod) : Prog (Op 32 Completion) CompletionRing _) >>= _ = _
  split_ifs <;> rfl

/-- A step of a worker on the completion ring, alone or in turn, is a step of a single producer. -/
theorem may_push (hs : s.Inv) {o : Op 32 Completion}
    (halone : N = 1 → May (unguarded _) .producer o s.compRing)
    (hturn : InTurn (.worker i) (.push i o) s) (ho : o.ofProducer (Workers.OfTaken s.rings)) :
    May (unguarded _) .producer o s.compRing := by
  by_cases hN : N = 1
  · exact halone hN
  · exact Workers.may_of_inTurn (s := s.rings) hs.compRing (hturn hN) ho

/-- **An attempt of a worker to push** the completion of the next of the descriptors it took. -/
theorem push_recorded (hs : s.Inv) (h : Recorded i s ds cs n) {c : Completion}
    (hkeys : (cs ++ [c]).map Workers.key <+: ds.map descKey) (hreal : c.seqId ≠ Workers.sentinel) :
    (discipline N).Ok (.worker i)
      (fun ok s' => Recorded i s' ds (cs ++ if ok then [c] else []) n)
      ((compRingPush c).zoom (.push i) Mem.compRing) s := by
  have halone : (spsc 32 12 (unguarded _)).Ok .producer _ (compRingPush c) s.compRing :=
    push_ok (by decide) (roomSound_spaceTest (by decide) false true 1) hs.compRing trivial
  rw [compRingPush] at halone ⊢
  generalize spaceTest 12 = noRoom at halone ⊢
  rw [push_eq] at halone ⊢
  have hnone : cs.map Workers.key <+: ds.map descKey := by
    refine List.IsPrefix.trans ?_ hkeys
    rw [List.map_append]
    exact List.prefix_append _ _
  have hquiet {s : Mem N} (h : Recorded i s ds cs n) : (s.pushed i ++ []).map Workers.key <+:
      (s.got i).map descKey := by rwa [h.pushed, h.got, List.append_nil]
  intro s₁ r₁ i₁ c₁
  have a₁ := fun hN => halone s₁.compRing (r₁.alone hN).2 i₁.compRing trivial
  have h₁ := h.rely r₁
  refine ⟨⟨rfl, trivial, hquiet h₁, by simp [publishes]⟩, ?_⟩
  intro s₂ r₂ i₂ c₂
  have a₂ := fun hN => (a₁ hN).2 s₂.compRing (r₂.alone hN).2 i₂.compRing trivial
  have h₂ := (h₁.push .loadCons).rely r₂
  simp only [publishes, List.append_nil] at h₂
  refine ⟨⟨rfl, trivial, hquiet h₂, by simp [publishes]⟩, ?_⟩
  have h₂' := h₂.push .loadProd
  simp only [publishes, List.append_nil] at h₂'
  beta_reduce at a₂ ⊢
  by_cases hfull : noRoom s₂.compRing.prod s₁.compRing.cons 1 = true
  · rw [if_pos hfull]
    intro s₃ r₃ i₃ c₃
    have h₃ := h₂'.rely r₃
    refine ⟨⟨rfl, trivial, hquiet h₃, by simp [publishes]⟩, ?_⟩
    intro s₄ r₄ _
    exact (h₃.push .countOverflow).rely r₄
  · rw [if_neg hfull]
    simp only [if_neg hfull] at a₂
    intro s₃ r₃ i₃ c₃
    have a₃ := fun hN => (a₂ hN).2 s₃.compRing (r₃.alone hN).2 i₃.compRing trivial
    have h₃ := h₂'.rely r₃
    refine ⟨⟨rfl, may_push i₃ (fun hN => (a₃ hN).1) c₃ trivial, hquiet h₃, by simp [publishes]⟩, ?_⟩
    intro s₄ r₄ i₄ c₄
    have a₄ := fun hN => (a₃ hN).2 s₄.compRing (r₄.alone hN).2 i₄.compRing trivial
    have h₄ := (h₃.push (.writeSlot s₂.compRing.prod c)).rely r₄
    simp only [publishes, List.append_nil] at h₄
    have htaken : Workers.OfTaken s₄.rings c := by
      have hmem : Workers.key c ∈ (s₄.got i).map descKey := by
        rw [h₄.got]
        exact hkeys.subset (by simp)
      obtain ⟨d, hd, hkey⟩ := List.mem_map.mp hmem
      exact ⟨d, i₄.got_subset i hd, hkey.symm⟩
    refine ⟨⟨rfl, may_push i₄ (fun hN => (a₄ hN).1) c₄ ?_, ?_, ?_⟩, ?_⟩
    · simpa [Op.ofProducer] using htaken
    · rw [h₄.pushed, h₄.got]
      exact hkeys
    · simpa [publishes] using hreal
    · intro s₅ r₅ _
      exact (h₄.push (.storeProd (s₂.compRing.prod + 1) [c])).rely r₅

/-- The worker has completed the descriptors `ds`: it pushed their completions and counted them, and
there is no sentinel among them. -/
structure Completed (i : Fin N) (s : Mem N) (ds : List Descriptor) : Prop where
  real : ∀ d ∈ ds, d.seqId ≠ Workers.sentinel
  keys : (s.pushed i).map Workers.key = ds.map descKey
  counted : s.counted i = (s.pushed i).length

theorem Completed.rely {ds : List Descriptor} (h : Completed i s ds) (hr : WorkerRely i s s') :
    Completed i s' ds :=
  ⟨h.real, by rw [hr.pushed, h.keys], by rw [hr.counted, hr.pushed, h.counted]⟩

/-- What a worker knows between its passes: while it polls it has completed what it took; while it pushes,
all but the last one; and once it returned the last one was a sentinel. -/
def WorkerKnows (i : Fin N) : Workers.Worker → Mem N → Prop
  | .polling, s => Completed i s (s.got i)
  | .pushing c, s => ∃ ds d, s.got i = ds ++ [d] ∧ d.seqId ≠ Workers.sentinel ∧
      Workers.key c = descKey d ∧ Completed i s ds
  | .returned, s => ∃ ds d, s.got i = ds ++ [d] ∧ d.seqId = Workers.sentinel ∧ Completed i s ds

/-- **A pass of a worker.** -/
theorem decodeWorker_ok (l : Workers.Worker) (x : Workers.DecodeStepResult) (hs : s.Inv)
    (hl : WorkerKnows i l s) :
    (discipline N).Ok (.worker i) (WorkerKnows i) (decodeWorker i l x) s := by
  have hrec : Recorded i s (s.got i) (s.pushed i) (s.counted i) := ⟨rfl, rfl, rfl⟩
  cases l with
  | returned =>
    obtain ⟨ds, d, hgot, hd, hdone⟩ := hl
    exact fun s' hr _ => ⟨ds, d, by rw [hr.got, hgot], hd, hdone.rely hr⟩
  | polling =>
    refine (discipline N).ok_bind hs (consume_recorded hrec) ?_
    rintro y s₁ - h₁
    have hdone : Completed i s₁ (s.got i) :=
      ⟨hl.real, by rw [h₁.pushed, hl.keys], by rw [h₁.counted, h₁.pushed, hl.counted]⟩
    cases y with
    | none =>
      intro s₂ hr _
      have hgot : s₂.got i = s.got i := by rw [hr.got, h₁.got, Option.toList_none, List.append_nil]
      rw [WorkerKnows, hgot]
      exact hdone.rely hr
    | some d =>
      have hgot {s₂ : Mem N} (hr : WorkerRely i s₁ s₂) : s₂.got i = s.got i ++ [d] := by
        rw [hr.got, h₁.got, Option.toList_some]
      dsimp only
      split_ifs with hd
      · exact fun s₂ hr _ => ⟨_, d, hgot hr, hd, hdone.rely hr⟩
      · exact fun s₂ hr _ => ⟨_, d, hgot hr, hd, rfl, hdone.rely hr⟩
  | pushing c =>
    obtain ⟨ds, d, hgot, hd, hkey, hdone⟩ := hl
    have hkeys : (s.pushed i ++ [c]).map Workers.key = (s.got i).map descKey := by
      rw [List.map_append, hdone.keys, hgot, List.map_append, List.map_singleton, hkey,
        List.map_singleton]
    have hreal : c.seqId ≠ Workers.sentinel := by
      have hseq : c.seqId = d.seqId := congrArg Prod.fst hkey
      rwa [hseq]
    refine (discipline N).ok_bind hs (push_recorded hs hrec (hkeys ▸ List.prefix_rfl) hreal) ?_
    rintro y s₁ - h₁
    cases y with
    | false =>
      intro s₂ hr _
      simp only [Bool.false_eq_true, if_false, List.append_nil] at h₁
      refine ⟨ds, d, by rw [hr.got, h₁.got, hgot], hd, hkey, ?_⟩
      have hdone₁ : Completed i s₁ ds :=
        ⟨hdone.real, by rw [h₁.pushed, hdone.keys], by rw [h₁.counted, h₁.pushed, hdone.counted]⟩
      exact hdone₁.rely hr
    | true =>
      intro s₂ hr _ _
      refine ⟨rfl, fun s₃ hr' _ => ?_⟩
      have h₂ := h₁.rely hr
      have hgot₃ : s₃.got i = s.got i := by
        rw [hr'.got]
        exact h₂.got
      have hpushed₃ : s₃.pushed i = s.pushed i ++ [c] := by
        rw [hr'.pushed]
        exact h₂.pushed
      have hcounted₃ : s₃.counted i = s.counted i + 1 := by
        rw [hr'.counted]
        simp [discipline, Access.effect, h₂.counted]
      refine ⟨fun d' hd' => ?_, by rw [hpushed₃, hgot₃, hkeys], ?_⟩
      · rw [hgot₃, hgot] at hd'
        rcases List.mem_append.mp hd' with hd' | hd'
        · exact hdone.real d' hd'
        · rwa [List.mem_singleton.mp hd']
      · rw [hcounted₃, hpushed₃, List.length_append, List.length_singleton, hdone.counted]

end Workers

/-! ### The host obeys the discipline -/

section Host

variable {s : Mem N} {x : Args}

theorem Mem.Inv.length_le (hs : s.Inv) : s.compRing.taken.length ≤ s.ring.published.length := by
  have hcomp := hs.compRing.taken_le.length_le
  have hring := hs.ring.taken_le.length_le
  have hpushed := congrArg Multiset.card hs.pushed
  have hgot := congrArg Multiset.card hs.got
  rw [Multiset.coe_card, Multiset.card_sum] at hpushed hgot
  have hle : ∑ i, Multiset.card (s.pushed i : Multiset Completion) ≤
      ∑ i, Multiset.card (s.got i : Multiset Descriptor) := by
    refine Finset.sum_le_sum fun i _ => ?_
    have hle := (hs.keys i).length_le
    rwa [List.length_map, List.length_map] at hle
  omega

/-- **Polling.** What the host counts is what it took. -/
theorem runtimePoll_ok (hs : s.Inv) (maxPoll : ℕ) :
    (discipline N).Ok .host
      (fun n s' => s'.compRing.taken.length = s.compRing.taken.length + n ∧
        s'.ring.published = s.ring.published)
      (runtimePoll maxPoll) s := by
  induction maxPoll generalizing s with
  | zero => exact fun s' hr _ => ⟨by rw [hr.2.taken_eq, Nat.add_zero], hr.1.published_eq⟩
  | succ maxPoll ih =>
    have hpoll : (spsc 32 12 (unguarded _)).Ok .consumer _ compRingPoll s.compRing :=
      consume_ok (by decide) emptySound_orderedEmpty
    have hzoom := (discipline N).ok_zoom (i := .host) (spsc 32 12 (unguarded _)) .poll
      Mem.compRing (fun s' => s'.ring.published = s.ring.published) hpoll rfl (fun _ _ => rfl)
      (fun _ hs => hs.compRing) (fun _ _ hr => hr.2) (fun _ _ _ _ => trivial) (fun _ _ _ _ hm => hm)
      (fun _ _ hF hr => by rw [hr.1.published_eq, hF]) (fun _ _ hF => hF)
    refine (discipline N).ok_bind hs hzoom ?_
    rintro y s₁ hs₁ ⟨htaken, hpub⟩
    cases y with
    | none =>
      intro s₂ hr _
      rw [hr.2.taken_eq, htaken, hr.1.published_eq, hpub]
      simp
    | some c =>
      refine (discipline N).ok_bind hs₁ (ih hs₁) ?_
      rintro n s₂ - ⟨hn, hpub₂⟩ s₃ hr -
      rw [hr.2.taken_eq, hn, htaken, hr.1.published_eq, hpub₂, hpub, List.length_append,
        Option.toList_some, List.length_singleton]
      exact ⟨by omega, rfl⟩

/-- What the host knows between its passes. -/
def HostKnows (x : Args) : Host → Mem N → Prop
  | .starting, s => s.compRing.taken = [] ∧ s.ring.published = []
  | .waiting ok total, s => s.compRing.taken.length = total ∧
      Dispatch.Commits (x.dispatch, ok) s.ring.published
  | .sending sent, s => x.dispatch.steps ≤ s.compRing.taken.length ∧ sent ≤ N ∧
      s.ring.published = Dispatch.trajectory 1 x.kvBlocks x.dispatch.steps ++
        List.replicate sent sentinelDescriptor
  | .synchronizing, s => x.dispatch.steps ≤ s.compRing.taken.length ∧
      s.ring.published = Dispatch.trajectory 1 x.kvBlocks x.dispatch.steps ++
        List.replicate N sentinelDescriptor

theorem ok_dispatch {α : Type} {Q : α → Dispatch.Mem → Prop} {p : Prog Dispatch.Access Dispatch.Mem α}
    (h : Dispatch.ringDiscipline.Ok .dispatcher Q p s.dispatch) :
    (discipline N).Ok .host
      (fun a s' => Q a s'.dispatch ∧ s'.compRing.taken = s.compRing.taken)
      (p.zoom .dispatch Mem.dispatch) s :=
  (discipline N).ok_zoom (i := .host) Dispatch.ringDiscipline .dispatch Mem.dispatch
    (fun s' => s'.compRing.taken = s.compRing.taken) h rfl (fun _ _ => rfl) (fun _ hs => hs.ring)
    (fun _ _ hr => hr.1) (fun _ _ _ _ => trivial) (fun _ _ _ _ hm => hm)
    (fun _ _ hF hr => by rw [hr.2.taken_eq, hF]) (fun _ _ hF => hF)

theorem submitSentinel_ok (hs : s.Inv) :
    Dispatch.ringDiscipline.Ok .dispatcher
      (fun ok m => m.ring.published = s.ring.published ++ if ok then [sentinelDescriptor] else [])
      (Dispatch.onRing (submitDescriptors [sentinelDescriptor])) s.dispatch := by
  have hsubmit := commandQueue_lawful.give_ok ⟨[sentinelDescriptor], by decide⟩ hs.ring
  have hzoom := Dispatch.ringDiscipline.ok_component (i := .dispatcher) (s := s.dispatch)
    (spsc 32 12 (unguarded _)) .ring Dispatch.Mem.ring hsubmit (fun _ _ => rfl) (fun _ h => h)
    (fun _ _ h => h) (fun _ _ _ => trivial) fun _ _ _ h => h
  exact Dispatch.ringDiscipline.ok_mono hzoom fun _ _ _ h => h.1

/-- The host counts as many completions as it asked for steps only if its dispatch succeeded. -/
theorem HostKnows.accepted {ok : Bool} {total : ℕ} (hs : s.Inv) (h : HostKnows x (.waiting ok total) s)
    (htotal : x.dispatch.steps ≤ total) : ok = true := by
  obtain ⟨htaken, hcommits⟩ := h
  cases ok with
  | true => rfl
  | false =>
    obtain ⟨j, hj, hpub⟩ := hcommits
    have hle := hs.length_le
    have hlen := congrArg List.length hpub
    rw [List.length_take] at hlen
    have hlt : 32 * j < x.dispatch.steps := hj
    omega

/-- **A pass of the host.** -/
theorem host_ok (l : Host) (hs : s.Inv) (hl : HostKnows x l s) :
    (discipline N).Ok .host (HostKnows x) (host x l) s := by
  cases l with
  | starting =>
    obtain ⟨htaken, hpub⟩ := hl
    have hloop := Dispatch.dispatchLoop_commits 1 x.kvBlocks (n := x.dispatch.steps) le_rfl le_rfl
      (Or.inr ⟨0, by omega⟩) [] (s := s.dispatch) hs.ring (hpub.trans (by simp))
    refine (discipline N).ok_bind hs (ok_dispatch hloop) ?_
    rintro ok s₁ - ⟨hok, htaken₁⟩ s₂ hr -
    refine ⟨by rw [hr.2.taken_eq, htaken₁, htaken, List.length_nil], ?_⟩
    rw [hr.1.published_eq]
    cases ok with
    | true => exact hok
    | false => exact hok
  | waiting ok total =>
    rw [host]
    split_ifs with hlt
    · refine (discipline N).ok_bind hs (runtimePoll_ok hs 256) ?_
      rintro n s₁ - ⟨hn, hpub⟩ s₂ hr -
      refine ⟨by rw [hr.2.taken_eq, hn, hl.1], ?_⟩
      rw [hr.1.published_eq, hpub]
      exact hl.2
    · have hsteps : x.dispatch.steps ≤ total := Int.toNat_le.mpr (not_lt.mp hlt)
      obtain rfl := hl.accepted hs hsteps
      obtain ⟨htaken, hcommits⟩ := hl
      intro s' hr _
      refine ⟨by rw [hr.2.taken_eq, htaken]; exact hsteps, Nat.zero_le N, ?_⟩
      rw [hr.1.published_eq, List.replicate_zero, List.append_nil]
      exact hcommits
  | sending sent =>
    obtain ⟨hsteps, hsent, hpub⟩ := hl
    rw [host]
    split_ifs with hlt
    · refine (discipline N).ok_bind hs (ok_dispatch (submitSentinel_ok hs)) ?_
      rintro (_ | _) s₁ - ⟨hok, htaken⟩ s₂ hr -
      · refine ⟨by rw [hr.2.taken_eq, htaken]; exact hsteps, hsent, ?_⟩
        rw [hr.1.published_eq]
        exact hok.trans (by rw [if_neg (by decide), List.append_nil, hpub])
      · refine ⟨by rw [hr.2.taken_eq, htaken]; exact hsteps, hlt, ?_⟩
        rw [hr.1.published_eq]
        exact hok.trans (by rw [if_pos rfl, hpub, List.append_assoc, List.replicate_succ'])
    · obtain rfl : sent = N := by omega
      intro s' hr _
      exact ⟨by rw [hr.2.taken_eq]; exact hsteps, by rw [hr.1.published_eq, hpub]⟩
  | synchronizing =>
    obtain ⟨hsteps, hpub⟩ := hl
    intro s' hr _
    exact ⟨by rw [hr.2.taken_eq]; exact hsteps, by rw [hr.1.published_eq, hpub]⟩

end Host

/-! ### Runs -/

/-- What the threads know between their passes. -/
def Known (x : Args) : (i : Thread N) → Local i → Mem N → Prop
  | .host, l, s => HostKnows x l s
  | .worker i, l, s => WorkerKnows i l s

theorem system_good (N : ℕ) (x : Args) (z : Descriptor) (z' : Completion)
    (es : List ((i : Thread N) × Call i)) (hes : (system N x).Meets InTurn (init N z z') es) :
    (discipline N).Good (Known x) ((system N x).run (init N z z') es) := by
  refine Discipline.sound _ rfl (fun i l y s hs hl => ?_) ?_ hes
  · cases i with
    | host => exact host_ok l hs hl
    | worker i => exact decodeWorker_ok l y hs hl
  · refine Discipline.good_rest _ ⟨Ring.zeroed_inv z, Nat.two_pow_pos 32, Ring.zeroed_inv z', ?_, ?_,
      fun _ => List.prefix_rfl, fun _ _ hc => absurd hc List.not_mem_nil, ?_⟩ fun i s' hr _ => ?_
    · simp [Ring.zeroed]
    · simp [Ring.zeroed]
    · simp
    · cases i with
      | host => exact ⟨hr.2.taken_eq, hr.1.published_eq⟩
      | worker i =>
        have hgot : s'.got i = [] := hr.got
        have hpushed : s'.pushed i = [] := hr.pushed
        have hcounted : s'.counted i = 0 := hr.counted
        refine ⟨?_, ?_, ?_⟩
        · rw [hgot]
          exact fun d hd => absurd hd List.not_mem_nil
        · rw [hgot, hpushed]
          rfl
        · rw [hpushed, hcounted]
          rfl

section Results

variable {s : Mem N} {x : Args}

theorem trajectory_real {kvBlocks : BitVec 32} {n : ℕ} {d : Descriptor}
    (hd : d ∈ Dispatch.trajectory 1 kvBlocks n) : d.seqId ≠ Workers.sentinel := by
  obtain ⟨k, -, rfl⟩ := List.mem_map.mp hd
  change (1 : BitVec 64) ≠ Workers.sentinel
  decide

theorem length_trajectory (kvBlocks : BitVec 32) (n : ℕ) :
    (Dispatch.trajectory 1 kvBlocks n).length = n := by
  rw [Dispatch.trajectory, List.length_map, List.length_range]

/-- The keys of all that was pushed are keys of what was committed, as often. -/
theorem Mem.Inv.keys_le (hs : s.Inv) {k : ℕ}
    (hpub : s.ring.published = Dispatch.trajectory 1 x.kvBlocks x.dispatch.steps ++
      List.replicate k sentinelDescriptor) :
    (s.compRing.published.map Workers.key : Multiset (BitVec 64 × BitVec 64)) ≤
      (Dispatch.trajectory 1 x.kvBlocks x.dispatch.steps).map descKey := by
  have hpushed : (s.compRing.published.map Workers.key : Multiset (BitVec 64 × BitVec 64)) =
      ∑ i, ((s.pushed i).map Workers.key : Multiset (BitVec 64 × BitVec 64)) := by
    rw [← Multiset.map_coe, hs.pushed]
    exact map_sum (Multiset.mapAddMonoidHom Workers.key) _ _
  have hgot : (s.ring.taken.map descKey : Multiset (BitVec 64 × BitVec 64)) =
      ∑ i, ((s.got i).map descKey : Multiset (BitVec 64 × BitVec 64)) := by
    rw [← Multiset.map_coe, hs.got]
    exact map_sum (Multiset.mapAddMonoidHom descKey) _ _
  rw [Multiset.le_iff_count]
  intro a
  by_cases ha : a.1 = Workers.sentinel
  · -- no completion of a sentinel was pushed
    have hnone : a ∉ ∑ i, ((s.pushed i).map Workers.key : Multiset (BitVec 64 × BitVec 64)) := by
      intro hmem
      obtain ⟨i, -, hi⟩ := Multiset.mem_sum.mp hmem
      obtain ⟨c, hc, rfl⟩ := List.mem_map.mp hi
      exact hs.real i c hc ha
    rw [hpushed, Multiset.count_eq_zero.mpr hnone]
    exact Nat.zero_le _
  · have hsent : a ∉ (List.replicate k (descKey sentinelDescriptor) : Multiset _) := by
      intro hmem
      rw [List.eq_of_mem_replicate hmem] at ha
      exact ha rfl
    calc Multiset.count a (s.compRing.published.map Workers.key : Multiset _)
        ≤ Multiset.count a (s.ring.taken.map descKey : Multiset _) := by
          rw [hpushed, hgot]
          exact Multiset.count_le_of_le a (Finset.sum_le_sum fun i _ => (hs.keys i).sublist.subperm)
      _ ≤ Multiset.count a (s.ring.published.map descKey : Multiset _) :=
          Multiset.count_le_of_le a (hs.ring.taken_le.map descKey).sublist.subperm
      _ = Multiset.count a
          ((Dispatch.trajectory 1 x.kvBlocks x.dispatch.steps).map descKey : Multiset _) := by
          rw [hpub, List.map_append, List.map_replicate, ← Multiset.coe_add, Multiset.count_add,
            Multiset.count_eq_zero.mpr hsent, Nat.add_zero]

/-- Once the host has counted all steps, it has polled all of them, and nothing else was pushed. -/
theorem Mem.Inv.drained (hs : s.Inv) {k : ℕ} (hsteps : x.dispatch.steps ≤ s.compRing.taken.length)
    (hpub : s.ring.published = Dispatch.trajectory 1 x.kvBlocks x.dispatch.steps ++
      List.replicate k sentinelDescriptor) :
    (s.compRing.taken.map Workers.key).Perm
        ((Dispatch.trajectory 1 x.kvBlocks x.dispatch.steps).map descKey) ∧
      s.compRing.taken = s.compRing.published ∧ s.compRing.published.length = x.dispatch.steps := by
  have hle := hs.keys_le hpub
  have hcard := Multiset.card_le_card hle
  rw [Multiset.coe_card, Multiset.coe_card, List.length_map, List.length_map, length_trajectory] at hcard
  have hall : s.compRing.taken = s.compRing.published :=
    hs.compRing.taken_le.eq_of_length_le (by omega)
  rw [hall] at hsteps ⊢
  refine ⟨Multiset.coe_eq_coe.mp (Multiset.eq_of_le_of_card_le hle ?_), rfl, by omega⟩
  rw [Multiset.coe_card, Multiset.coe_card, List.length_map, List.length_map, length_trajectory]
  exact hsteps

/-- A worker returns only if a sentinel was committed. -/
theorem WorkerKnows.sentinel_mem {i : Fin N} (hs : s.Inv) (h : WorkerKnows i .returned s) :
    ∃ d ∈ s.ring.published, d.seqId = Workers.sentinel := by
  obtain ⟨ds, d, hgot, hd, -⟩ := h
  have hmem : d ∈ s.got i := by
    rw [hgot]
    exact List.mem_append_right _ (List.mem_singleton_self d)
  exact ⟨d, hs.ring.taken_le.subset (hs.got_subset i hmem), hd⟩

/-- The descriptors taken and not completed: one while the worker pushes, and the sentinel of a worker that
returned. -/
def heldCount : Workers.Worker → ℕ
  | .polling => 0
  | .pushing _ => 1
  | .returned => 1

/-- Those of them that are no sentinels. -/
def pushingCount : Workers.Worker → ℕ
  | .pushing _ => 1
  | _ => 0

/-- A worker that has not returned. -/
def running : Workers.Worker → Bool
  | .returned => false
  | _ => true

theorem WorkerKnows.counts {i : Fin N} {l : Workers.Worker} (h : WorkerKnows i l s) :
    (s.got i).length = (s.pushed i).length + heldCount l ∧
      (s.got i).countP (fun d => d.seqId ≠ Workers.sentinel) =
        (s.pushed i).length + pushingCount l ∧ s.counted i = (s.pushed i).length := by
  have hdone {ds : List Descriptor} (h : Completed i s ds) : ds.length = (s.pushed i).length ∧
      ds.countP (fun d => d.seqId ≠ Workers.sentinel) = (s.pushed i).length := by
    have hlen := congrArg List.length h.keys
    rw [List.length_map, List.length_map] at hlen
    refine ⟨hlen.symm, ?_⟩
    rw [List.countP_eq_length.mpr (by simpa using h.real), hlen]
  cases l with
  | polling =>
    obtain ⟨hlen, hreal⟩ := hdone h
    exact ⟨hlen, hreal, h.counted⟩
  | pushing c =>
    obtain ⟨ds, d, hgot, hd, -, h⟩ := h
    obtain ⟨hlen, hreal⟩ := hdone h
    rw [hgot, List.length_append, List.countP_append, hlen, hreal]
    exact ⟨rfl, by simp [hd, pushingCount], h.counted⟩
  | returned =>
    obtain ⟨ds, d, hgot, hd, h⟩ := h
    obtain ⟨hlen, hreal⟩ := hdone h
    rw [hgot, List.length_append, List.countP_append, hlen, hreal]
    exact ⟨rfl, by simp [hd, pushingCount], h.counted⟩

theorem Mem.Inv.countP_taken (hs : s.Inv) {p : Descriptor → Bool} :
    s.ring.taken.countP p = ∑ i, (s.got i).countP p := by
  have hsum := map_sum (Multiset.countPAddMonoidHom fun d => p d = true)
    (fun i => (s.got i : Multiset Descriptor)) Finset.univ
  rw [← hs.got] at hsum
  simpa [Multiset.coe_countP] using hsum

/-- **The end.** When all sentinels are sent and the workers are between passes, no worker is pushing, all
steps are counted, and for every worker that has not returned one sentinel is left in the ring. -/
theorem Mem.Inv.shutdown (hs : s.Inv) (hsteps : x.dispatch.steps ≤ s.compRing.taken.length)
    (hpub : s.ring.published = Dispatch.trajectory 1 x.kvBlocks x.dispatch.steps ++
      List.replicate N sentinelDescriptor)
    {l : Fin N → Workers.Worker} (hl : ∀ i, WorkerKnows i (l i) s) :
    (∀ i, pushingCount (l i) = 0) ∧ s.stepCount = BitVec.ofNat 64 x.dispatch.steps ∧
      s.ring.published.drop s.ring.taken.length =
        List.replicate (Finset.univ.filter fun i => running (l i)).card sentinelDescriptor := by
  obtain ⟨-, -, hlen⟩ := hs.drained hsteps hpub
  have hpushed : ∑ i, (s.pushed i).length = x.dispatch.steps := by
    rw [← hlen, ← Multiset.coe_card, hs.pushed, Multiset.card_sum]
    rfl
  have hgot : s.ring.taken.length = ∑ i, (s.got i).length := by
    rw [← Multiset.coe_card, hs.got, Multiset.card_sum]
    rfl
  -- the descriptors taken that are no sentinels are at most the steps, and all steps were pushed
  have hreal : ∑ i, ((s.pushed i).length + pushingCount (l i)) ≤ x.dispatch.steps := by
    calc ∑ i, ((s.pushed i).length + pushingCount (l i))
        = ∑ i, (s.got i).countP (fun d => d.seqId ≠ Workers.sentinel) :=
          Finset.sum_congr rfl fun i _ => (hl i).counts.2.1.symm
      _ = s.ring.taken.countP (fun d => d.seqId ≠ Workers.sentinel) := hs.countP_taken.symm
      _ ≤ s.ring.published.countP (fun d => d.seqId ≠ Workers.sentinel) :=
          hs.ring.taken_le.sublist.countP_le
      _ = x.dispatch.steps := by
          rw [hpub, List.countP_append, List.countP_eq_length.mpr
            (fun d hd => decide_eq_true (trajectory_real hd)), length_trajectory,
            List.countP_replicate, if_neg (by decide)]
          rfl
  have hnone : ∀ i, pushingCount (l i) = 0 := by
    rw [Finset.sum_add_distrib, hpushed] at hreal
    have hzero : ∑ i, pushingCount (l i) = 0 := by omega
    exact fun i => Finset.sum_eq_zero_iff.mp hzero i (Finset.mem_univ i)
  refine ⟨hnone, ?_, ?_⟩
  · rw [hs.count, ← hpushed]
    exact congrArg _ (Finset.sum_congr rfl fun i _ => (hl i).counts.2.2)
  · have hheld : ∑ i, heldCount (l i) + (Finset.univ.filter fun i => running (l i)).card = N := by
      have hone : ∀ i, heldCount (l i) + (if running (l i) = true then 1 else 0) = 1 := by
        intro i
        have hi := hnone i
        cases hli : l i with
        | polling => rfl
        | pushing c => simp [hli, pushingCount] at hi
        | returned => rfl
      rw [Finset.card_filter, ← Finset.sum_add_distrib, Finset.sum_congr rfl fun i _ => hone i]
      simp
    have htaken : s.ring.taken.length = x.dispatch.steps + ∑ i, heldCount (l i) := by
      rw [hgot, Finset.sum_congr rfl fun i _ => (hl i).counts.1, Finset.sum_add_distrib, hpushed]
    rw [htaken, hpub, ← List.drop_drop, List.drop_left' (length_trajectory _ _), List.drop_replicate]
    congr 1
    omega

end Results

/-- **The lifetime of the runtime.** For every number of workers, all arguments of the program, and every
run whose steps on the rings are in turn if there are several workers: while the host waits it has counted
what it polled, no worker has returned, and after a refused dispatch it has counted less than it waits for.
Once it sends sentinels it has polled every step of the trajectory once, and nothing is left in the
completion ring. Once all sentinels are sent, and the workers are between passes, none of them is pushing,
the counter has counted all steps, and the ring holds one sentinel for every worker that has not
returned. -/
theorem runtime_lifetime (N : ℕ) (x : Args) (z : Descriptor) (z' : Completion)
    (es : List ((i : Thread N) × Call i)) (hes : (system N x).Meets InTurn (init N z z') es) :
    let c := (system N x).run (init N z z') es
    (∀ (ok : Bool) (total : ℕ), c.threads .host = .ret (Host.waiting ok total) →
      total = c.mem.compRing.taken.length ∧ (ok = false → total < x.dispatch.steps) ∧
        ∀ i, c.threads (.worker i) ≠ .ret Workers.Worker.returned) ∧
    (∀ l : Host, c.threads .host = .ret l → (∃ sent, l = .sending sent) ∨ l = .synchronizing →
      (c.mem.compRing.taken.map Workers.key).Perm
          ((Dispatch.trajectory 1 x.kvBlocks x.dispatch.steps).map descKey) ∧
        c.mem.compRing.taken = c.mem.compRing.published) ∧
    (∀ l : Fin N → Workers.Worker, c.threads .host = .ret Host.synchronizing →
      (∀ i, c.threads (.worker i) = .ret (l i)) →
      (∀ i, l i = .polling ∨ l i = .returned) ∧
        c.mem.stepCount = BitVec.ofNat 64 x.dispatch.steps ∧
        c.mem.ring.published.drop c.mem.ring.taken.length =
          List.replicate (Finset.univ.filter fun i => running (l i)).card sentinelDescriptor) := by
  intro c
  have hgood := system_good N x z z' es hes
  have hs : c.mem.Inv := hgood.1
  refine ⟨fun ok total hhost => ?_, fun l hhost hl => ?_, fun l hhost hworkers => ?_⟩
  · have hknows : HostKnows x (.waiting ok total) c.mem := hgood.rest hhost
    refine ⟨hknows.1.symm, fun hok => ?_, fun i hi => ?_⟩
    · by_contra hge
      rw [hknows.accepted hs (not_lt.mp hge)] at hok
      exact absurd hok (by decide)
    · have hworker : WorkerKnows i .returned c.mem := hgood.rest hi
      obtain ⟨d, hd, hsent⟩ := hworker.sentinel_mem hs
      have hmem : d ∈ Dispatch.trajectory 1 x.kvBlocks x.dispatch.steps := by
        have hcommits := hknows.2
        cases ok with
        | true =>
          have hpub : c.mem.ring.published = Dispatch.trajectory 1 x.kvBlocks x.dispatch.steps :=
            hcommits
          rwa [hpub] at hd
        | false =>
          obtain ⟨j, -, hpub⟩ := hcommits
          rw [hpub] at hd
          exact List.mem_of_mem_take hd
      exact trajectory_real hmem hsent
  · have hknows : HostKnows x l c.mem := hgood.rest hhost
    obtain ⟨sent, rfl⟩ | rfl := hl
    · obtain ⟨hsteps, -, hpub⟩ := hknows
      exact ⟨(hs.drained hsteps hpub).1, (hs.drained hsteps hpub).2.1⟩
    · obtain ⟨hsteps, hpub⟩ := hknows
      exact ⟨(hs.drained hsteps hpub).1, (hs.drained hsteps hpub).2.1⟩
  · obtain ⟨hsteps, hpub⟩ : HostKnows x .synchronizing c.mem := hgood.rest hhost
    have hl : ∀ i, WorkerKnows i (l i) c.mem := fun i => hgood.rest (hworkers i)
    obtain ⟨hnone, hcount, hleft⟩ := hs.shutdown hsteps hpub hl
    refine ⟨fun i => ?_, hcount, hleft⟩
    have hi := hnone i
    cases hli : l i with
    | polling => exact .inl rfl
    | pushing c => simp [hli, pushingCount] at hi
    | returned => exact .inr rfl

/-- `n` steps of one thread. -/
def steps (i : Thread N) (x : Call i) (n : ℕ) : List ((i : Thread N) × Call i) :=
  List.replicate n ⟨i, x⟩

/-- One step to decode. -/
def oneStep : Args := ⟨1, 1, by decide⟩

/-- The host dispatches one step, the first of two workers decodes it, the host polls it and sends two
sentinels, and each worker gets one. -/
def twoWorkersRun : List ((i : Thread 2) × Call i) :=
  steps .host () 7 ++ steps (.worker ⟨0, by decide⟩) ⟨0, 0⟩ 11 ++ steps .host () 21 ++
    steps (.worker ⟨0, by decide⟩) ⟨0, 0⟩ 5 ++ steps (.worker ⟨1, by decide⟩) ⟨0, 0⟩ 5

instance (i : Thread N) (o : Access N) (s : Mem N) : Decidable (InTurn i o s) := by
  unfold InTurn
  split <;> infer_instance

/-- A run of two workers to the end. -/
theorem runtime_lifetime_two :
    let c := (system 2 oneStep).run (init 2 default default) twoWorkersRun
    (system 2 oneStep).Meets InTurn (init 2 default default) twoWorkersRun ∧
      c.threads .host = .ret Host.synchronizing ∧
      (∀ i, c.threads (.worker i) = .ret Workers.Worker.returned) ∧
      c.mem.stepCount = 1 ∧ c.mem.ring.published.drop c.mem.ring.taken.length = [] := by
  intro c
  have hmeets : (system 2 oneStep).Meets InTurn (init 2 default default) twoWorkersRun := by decide
  have hhost : c.threads .host = .ret Host.synchronizing := rfl
  have hworkers : ∀ i, c.threads (.worker i) = .ret Workers.Worker.returned :=
    Fin.forall_fin_two.mpr ⟨rfl, rfl⟩
  obtain ⟨-, hcount, hleft⟩ := (runtime_lifetime 2 oneStep default default twoWorkersRun hmeets).2.2
    (fun _ => .returned) hhost hworkers
  exact ⟨hmeets, hhost, hworkers, hcount, hleft⟩

end Lifetime

end RolloutRuntime
