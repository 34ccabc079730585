import RolloutRuntime.Concurrency.Program

/-!
# Rely-guarantee reasoning about programs of atomic steps

A *discipline* on a memory fixes an invariant, what each thread may do (`may`), what each thread
relies on the others to do (`rely`), and a condition that the schedule is assumed to meet at every
step (`cond`, trivially true for statements about all schedules). Its two laws say that a permitted
step keeps the invariant and respects what every other thread relies on.

`Discipline.Ok D i Q p s` says that thread `i`, running the program `p` from the memory `s`,
performs permitted steps only and ends with `Q`, whatever the other threads do in between within
what `i` relies on. A function of the source gets one such statement; calls compose by `ok_bind`,
and a function on one component of a larger memory is lifted by `ok_zoom` or `ok_component`.

## Main definitions

* `Discipline`, `Discipline.Ok`.
* `Discipline.assume`: a discipline under a further condition on the schedule.

## Main results

* `Discipline.ok_bind`, `Discipline.ok_mono`, `Discipline.ok_zoom`, `Discipline.ok_component`,
  `Discipline.ok_of_uses`, `Discipline.Ok.transfer`, `Discipline.Ok.recast`: the rules for programs.
* `Discipline.sound`: in every configuration reached by a schedule that meets the condition, the
  invariant holds and every thread is `Ok`.
* `Discipline.ok_run`, `Discipline.rely_run`: a run without interference ends with the postcondition, and
  does what the other threads rely on.
-/

namespace Concurrency

/-- An invariant with the permitted steps and the assumptions of every thread. -/
structure Discipline (ι Op σ : Type) where
  effect : Op → σ → σ
  inv : σ → Prop
  /-- What thread `i` relies on the other threads to do. -/
  rely : ι → σ → σ → Prop
  /-- What the schedule is assumed to meet at the steps of thread `i`. -/
  cond : ι → Op → σ → Prop
  /-- The steps thread `i` may make. -/
  may : ι → Op → σ → Prop
  rely_refl : ∀ i s, rely i s s
  rely_trans : ∀ i {s s' s''}, rely i s s' → rely i s' s'' → rely i s s''
  inv_effect : ∀ {i o s}, inv s → cond i o s → may i o s → inv (effect o s)
  rely_effect : ∀ {i j o s}, i ≠ j → inv s → cond i o s → may i o s → rely j s (effect o s)

namespace Discipline

variable {ι Op σ α β : Type} (D : Discipline ι Op σ) {i : ι}

/-- Thread `i` runs `p` from `s` with permitted steps only and ends with `Q`, whatever the other
threads do within what `i` relies on. -/
def Ok (i : ι) (Q : α → σ → Prop) : Prog Op σ α → σ → Prop
  | .ret a, s => ∀ s', D.rely i s s' → D.inv s' → Q a s'
  | .act o k, s => ∀ s', D.rely i s s' → D.inv s' → D.cond i o s' →
      D.may i o s' ∧ Ok i Q (k s') (D.effect o s')

/-! ### Rules -/

/-- Steps of the other threads do not invalidate `Ok`. -/
theorem ok_rely {Q : α → σ → Prop} {p : Prog Op σ α} {s s' : σ} (h : D.Ok i Q p s)
    (hr : D.rely i s s') : D.Ok i Q p s' := by
  cases p with
  | ret a => exact fun s'' hr' => h s'' (D.rely_trans i hr hr')
  | act o k => exact fun s'' hr' => h s'' (D.rely_trans i hr hr')

theorem ok_mono {Q Q' : α → σ → Prop} {p : Prog Op σ α} {s : σ} (h : D.Ok i Q p s)
    (hQ : ∀ a s, D.inv s → Q a s → Q' a s) : D.Ok i Q' p s := by
  induction p generalizing s with
  | ret a => exact fun s' hr hi => hQ a s' hi (h s' hr hi)
  | act o k ih =>
    intro s' hr hi hc
    obtain ⟨hm, hk⟩ := h s' hr hi hc
    exact ⟨hm, ih s' hk⟩

/-- **Sequential composition.** -/
theorem ok_bind {Q : α → σ → Prop} {Q' : β → σ → Prop} {p : Prog Op σ α} {f : α → Prog Op σ β}
    {s : σ} (hs : D.inv s) (h : D.Ok i Q p s)
    (hf : ∀ a s, D.inv s → Q a s → D.Ok i Q' (f a) s) : D.Ok i Q' (p >>= f) s := by
  induction p generalizing s with
  | ret a => exact hf a s hs (h s (D.rely_refl i s) hs)
  | act o k ih =>
    intro s' hr hi hc
    obtain ⟨hm, hk⟩ := h s' hr hi hc
    exact ⟨hm, ih s' (D.inv_effect hi hc hm) hk⟩

theorem Ok.post {D : Discipline ι Op σ} {Q : α → σ → Prop} {a : α} {s : σ}
    (h : D.Ok i Q (.ret a) s) (hs : D.inv s) : Q a s :=
  h s (D.rely_refl i s) hs

/-- **Component programs.** A program that is `Ok` for a discipline `D'` on the component `get s`
is `Ok` on the whole memory, provided the steps and assumptions of thread `i` are those of `i'` on
the component. A frame `F` that survives both the other threads and the steps of the program is
carried along. -/
theorem ok_zoom {ι' Op' τ : Type} (D' : Discipline ι' Op' τ) (emb : Op' → Op) (get : σ → τ)
    (F : σ → Prop) {i' : ι'} {Q : α → τ → Prop} {p : Prog Op' τ α} {s : σ}
    (h : D'.Ok i' Q p (get s)) (hF : F s)
    (heffect : ∀ o s, get (D.effect (emb o) s) = D'.effect o (get s))
    (hinv : ∀ s, D.inv s → D'.inv (get s))
    (hrely : ∀ s s', D.rely i s s' → D'.rely i' (get s) (get s'))
    (hcond : ∀ o s, F s → D.cond i (emb o) s → D'.cond i' o (get s))
    (hmay : ∀ o s, D.inv s → F s → D'.may i' o (get s) → D.may i (emb o) s)
    (hFrely : ∀ s s', F s → D.rely i s s' → F s')
    (hFeffect : ∀ o s, F s → F (D.effect (emb o) s)) :
    D.Ok i (fun a s => Q a (get s) ∧ F s) (p.zoom emb get) s := by
  induction p generalizing s with
  | ret a =>
    exact fun s' hr hi => ⟨h (get s') (hrely s s' hr) (hinv s' hi), hFrely s s' hF hr⟩
  | act o k ih =>
    intro s' hr hi hc
    have hF' := hFrely s s' hF hr
    obtain ⟨hm, hk⟩ := h (get s') (hrely s s' hr) (hinv s' hi) (hcond o s' hF' hc)
    refine ⟨hmay o s' hi hF' hm, ih (get s') ?_ (hFeffect o s' hF')⟩
    rwa [heffect]

/-- A component program that needs nothing from the rest of the memory. -/
theorem ok_component {ι' Op' τ : Type} (D' : Discipline ι' Op' τ) (emb : Op' → Op) (get : σ → τ)
    {i' : ι'} {Q : α → τ → Prop} {p : Prog Op' τ α} {s : σ} (h : D'.Ok i' Q p (get s))
    (heffect : ∀ o s, get (D.effect (emb o) s) = D'.effect o (get s))
    (hinv : ∀ s, D.inv s → D'.inv (get s))
    (hrely : ∀ s s', D.rely i s s' → D'.rely i' (get s) (get s'))
    (hcond : ∀ o s, D.cond i (emb o) s → D'.cond i' o (get s))
    (hmay : ∀ o s, D.inv s → D'.may i' o (get s) → D.may i (emb o) s) :
    D.Ok i (fun a s => Q a (get s)) (p.zoom emb get) s := by
  have hzoom := D.ok_zoom D' emb get (fun _ => True) h trivial heffect hinv hrely
    (fun o s _ => hcond o s) (fun o s hi _ => hmay o s hi) (fun _ _ _ _ => trivial)
    (fun _ _ _ => trivial)
  exact D.ok_mono hzoom fun _ _ _ hQ => hQ.1

/-- A program whose operations are all permitted where `F` holds. -/
theorem ok_of_uses {A : Op → Prop} {F : σ → Prop} (hA : ∀ o s, A o → F s → D.may i o s)
    (hFrely : ∀ s s', F s → D.rely i s s' → F s') (hFeffect : ∀ o s, A o → F s → F (D.effect o s))
    {p : Prog Op σ α} (h : p.Uses A) {s : σ} (hF : F s) : D.Ok i (fun _ => F) p s := by
  induction p generalizing s with
  | ret a => exact fun s' hr _ => hFrely s s' hF hr
  | act o k ih =>
    intro s' hr _ _
    have hF' := hFrely s s' hF hr
    exact ⟨hA o s' h.1 hF', ih s' (h.2 s') (hFeffect o s' h.1 hF')⟩

/-- A program that is `Ok` as a thread of one system is `Ok` as a thread of another that relies on more and
is permitted more. -/
theorem Ok.recast {ι' : Type} {D : Discipline ι Op σ} {Q : α → σ → Prop} {p : Prog Op σ α} {s : σ}
    (h : D.Ok i Q p s) (D' : Discipline ι' Op σ) (i' : ι') (heffect : D'.effect = D.effect)
    (hinv : ∀ s, D'.inv s → D.inv s) (hrely : ∀ s s', D'.rely i' s s' → D.rely i s s')
    (hcond : ∀ o s, D'.cond i' o s → D.cond i o s) (hmay : ∀ o s, D.may i o s → D'.may i' o s) :
    D'.Ok i' Q p s := by
  induction p generalizing s with
  | ret a => exact fun s' hr hi => h s' (hrely s s' hr) (hinv s' hi)
  | act o k ih =>
    intro s' hr hi hc
    obtain ⟨hm, hk⟩ := h s' (hrely s s' hr) (hinv s' hi) (hcond o s' hc)
    refine ⟨hmay o s' hm, ih s' ?_⟩
    rwa [heffect]

/-- A program that is `Ok` for one discipline is `Ok` for another that assumes more of the schedule and
differs in nothing else that concerns the thread. -/
theorem Ok.transfer {D : Discipline ι Op σ} {Q : α → σ → Prop} {p : Prog Op σ α} {s : σ}
    (h : D.Ok i Q p s) (D' : Discipline ι Op σ) (heffect : D'.effect = D.effect)
    (hinv : ∀ s, D'.inv s → D.inv s) (hrely : ∀ s s', D'.rely i s s' → D.rely i s s')
    (hcond : ∀ o s, D'.cond i o s → D.cond i o s) (hmay : ∀ o s, D.may i o s → D'.may i o s) :
    D'.Ok i Q p s :=
  h.recast D' i heffect hinv hrely hcond hmay

/-- The discipline under a further condition on the schedule. -/
def assume (C : ι → Op → σ → Prop) : Discipline ι Op σ where
  effect := D.effect
  inv := D.inv
  rely := D.rely
  cond i o s := D.cond i o s ∧ C i o s
  may := D.may
  rely_refl := D.rely_refl
  rely_trans := D.rely_trans
  inv_effect hs hc hm := D.inv_effect hs hc.1 hm
  rely_effect hij hs hc hm := D.rely_effect hij hs hc.1 hm

/-- A further condition that always holds can be dropped. -/
theorem ok_of_assume {C : ι → Op → σ → Prop} (hC : ∀ i o s, C i o s) {Q : α → σ → Prop}
    {p : Prog Op σ α} {s : σ} (h : (D.assume C).Ok i Q p s) : D.Ok i Q p s := by
  induction p generalizing s with
  | ret a => exact h
  | act o k ih =>
    intro s' hr hi hc
    obtain ⟨hm, hk⟩ := h s' hr hi ⟨hc, hC i o s'⟩
    exact ⟨hm, ih s' hk⟩

/-- A run without interference ends with the postcondition and the invariant. -/
theorem ok_run (hcond : ∀ o s, D.cond i o s) {Q : α → σ → Prop} {p : Prog Op σ α} {s : σ}
    (hs : D.inv s) (h : D.Ok i Q p s) :
    D.inv (p.run D.effect s).2 ∧ Q (p.run D.effect s).1 (p.run D.effect s).2 := by
  induction p generalizing s with
  | ret a => exact ⟨hs, h.post hs⟩
  | act o k ih =>
    obtain ⟨hm, hk⟩ := h s (D.rely_refl i s) hs (hcond o s)
    exact ih s (D.inv_effect hs (hcond o s) hm) hk

/-- The other threads see of it what they rely on. -/
theorem rely_run (hcond : ∀ o s, D.cond i o s) {j : ι} (hij : i ≠ j) {Q : α → σ → Prop}
    {p : Prog Op σ α} {s : σ} (hs : D.inv s) (h : D.Ok i Q p s) : D.rely j s (p.run D.effect s).2 := by
  induction p generalizing s with
  | ret a => exact D.rely_refl j s
  | act o k ih =>
    obtain ⟨hm, hk⟩ := h s (D.rely_refl i s) hs (hcond o s)
    have hstep := D.rely_effect hij hs (hcond o s) hm
    exact D.rely_trans j hstep (ih s (D.inv_effect hs (hcond o s) hm) hk)

/-! ### Soundness -/

section Sound

variable {L C : ι → Type} {P : (i : ι) → L i → σ → Prop}

/-- The invariant holds and every thread is `Ok`, with `P i` at rest. -/
def Good (D : Discipline ι Op σ) (P : (i : ι) → L i → σ → Prop) (c : Config ι Op σ L) : Prop :=
  D.inv c.mem ∧ ∀ i, D.Ok i (P i) (c.threads i) c.mem

theorem good_rest {s : σ} {l : (i : ι) → L i} (hs : D.inv s)
    (h : ∀ i s', D.rely i s s' → D.inv s' → P i (l i) s') :
    D.Good P (Config.rest s l : Config ι Op σ L) :=
  ⟨hs, fun i => h i⟩

/-- A thread at rest satisfies its local condition. -/
theorem Good.rest {D : Discipline ι Op σ} {c : Config ι Op σ L} (h : D.Good P c) {i : ι} {l : L i}
    (hl : c.threads i = .ret l) : P i l c.mem := by
  have hi := h.2 i
  rw [hl] at hi
  exact hi.post h.1

theorem Good.may {D : Discipline ι Op σ} {c : Config ι Op σ L} (h : D.Good P c) {i : ι} {o : Op}
    (ho : c.next i = some o) (hc : D.cond i o c.mem) : D.may i o c.mem := by
  obtain ⟨k, hk⟩ := Config.next_eq_some.mp ho
  have hi := h.2 i
  rw [hk] at hi
  exact (hi c.mem (D.rely_refl i c.mem) h.1 hc).1

variable [DecidableEq ι] {S : System ι Op σ L C}

/-- One step of any thread, meeting the condition, keeps all threads `Ok`. -/
theorem good_step (heffect : S.effect = D.effect)
    (hstart : ∀ i l x s, D.inv s → P i l s → D.Ok i (P i) (S.start i l x) s)
    {c : Config ι Op σ L} (h : D.Good P c) (e : (i : ι) × C i)
    (hc : ∀ o, c.next e.1 = some o → D.cond e.1 o c.mem) : D.Good P (S.step c e) := by
  obtain ⟨hi, hok⟩ := h
  obtain ⟨i, x⟩ := e
  have hokᵢ := hok i
  cases hp : c.threads i with
  | ret l =>
    rw [hp] at hokᵢ
    rw [S.step_ret hp]
    refine ⟨hi, fun j => ?_⟩
    by_cases hj : j = i
    · subst hj
      simpa only [Function.update_self] using hstart j l x c.mem hi (hokᵢ.post hi)
    · simpa only [Function.update_of_ne hj] using hok j
  | act o k =>
    rw [hp] at hokᵢ
    have hcond : D.cond i o c.mem := hc o (Config.next_eq_some.mpr ⟨k, hp⟩)
    obtain ⟨hm, hk⟩ := hokᵢ c.mem (D.rely_refl i c.mem) hi hcond
    rw [S.step_act hp, heffect]
    refine ⟨D.inv_effect hi hcond hm, fun j => ?_⟩
    by_cases hj : j = i
    · subst hj
      simpa only [Function.update_self] using hk
    · have hr := D.rely_effect (Ne.symm hj) hi hcond hm
      simpa only [Function.update_of_ne hj] using D.ok_rely (hok j) hr

/-- **Soundness.** Every configuration reached by a schedule that meets the condition satisfies
the invariant, and every thread in it is `Ok`. -/
theorem sound (heffect : S.effect = D.effect)
    (hstart : ∀ i l x s, D.inv s → P i l s → D.Ok i (P i) (S.start i l x) s)
    {c : Config ι Op σ L} (h : D.Good P c) {es : List ((i : ι) × C i)}
    (hes : S.Meets D.cond c es) : D.Good P (S.run c es) := by
  induction es generalizing c with
  | nil => exact h
  | cons e es ih => exact ih (D.good_step heffect hstart h e hes.1) hes.2

end Sound

end Discipline

end Concurrency
