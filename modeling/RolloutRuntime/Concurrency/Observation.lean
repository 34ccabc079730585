import RolloutRuntime.Concurrency.RelyGuarantee

/-!
# What a thread observes

A record that is updated at every operation of one thread, from the memory the operation is performed
on, tells what that thread observed in a run: it can say what the memory was like when a call loaded an
index, or what happened in every iteration of a loop. The record is no part of the memory and no thread
reads it.

In a run that obeys a discipline, the record is related to the local state of its thread by following
the programs of that thread alone.

## Main definitions

* `System.observe`: the record of a thread after a schedule.
* `Discipline.Sees`: whatever the other threads do within what a thread relies on, its program ends
  with a local state, a memory and a record that are related.

## Main results

* `Discipline.sees_bind`, `Discipline.Sees.mono`, `Discipline.Sees.recast`, `Discipline.sees_of_ok`:
  rules.
* `Discipline.sees_sound`: in every run the record is related to the local state of its thread.
-/

namespace Concurrency

variable {ι Op σ γ α β : Type} {L C : ι → Type}

namespace System

variable [DecidableEq ι] (S : System ι Op σ L C) (i : ι) (upd : Op → σ → γ → γ)

/-- The record of thread `i` after one step, of whichever thread. -/
def observeStep (c : Config ι Op σ L) (h : γ) (e : (i : ι) × C i) : γ :=
  if e.1 = i then
    match c.next i with
    | none => h
    | some o => upd o c.mem h
  else h

/-- The record of thread `i` after a schedule. -/
def observe : Config ι Op σ L → γ → List ((i : ι) × C i) → γ
  | _, h, [] => h
  | c, h, e :: es => observe (S.step c e) (observeStep i upd c h e) es

variable {S i upd}

theorem observeStep_of_ne {c : Config ι Op σ L} {h : γ} {e : (i : ι) × C i} (hi : e.1 ≠ i) :
    observeStep i upd c h e = h :=
  if_neg hi

theorem observeStep_ret {c : Config ι Op σ L} {h : γ} {l : L i} (hl : c.threads i = .ret l) (x : C i) :
    observeStep i upd c h ⟨i, x⟩ = h := by
  simp only [observeStep, Config.next, hl, if_true]

theorem observeStep_act {c : Config ι Op σ L} {h : γ} {o : Op} {k : σ → Prog Op σ (L i)}
    (hk : c.threads i = .act o k) (x : C i) : observeStep i upd c h ⟨i, x⟩ = upd o c.mem h := by
  simp only [observeStep, Config.next, hk, if_true]

end System

namespace Discipline

variable (D : Discipline ι Op σ) (i : ι) (upd : Op → σ → γ → γ)

/-- Thread `i` runs a program from a memory and with a record, and ends with `W`. -/
inductive Sees (W : α → σ → γ → Prop) : Prog Op σ α → σ → γ → Prop
  | ret {a : α} {s : σ} {h : γ} (hret : ∀ s', D.rely i s s' → D.inv s' → W a s' h) : Sees W (.ret a) s h
  | act {o : Op} {k : σ → Prog Op σ α} {s : σ} {h : γ}
      (hact : ∀ s', D.rely i s s' → D.inv s' → D.cond i o s' →
        Sees W (k s') (D.effect o s') (upd o s' h)) : Sees W (.act o k) s h

variable {D i upd} {W : α → σ → γ → Prop}

theorem Sees.rely {p : Prog Op σ α} {s s' : σ} {h : γ} (hp : D.Sees i upd W p s h)
    (hr : D.rely i s s') : D.Sees i upd W p s' h := by
  cases hp with
  | ret hret => exact .ret fun s'' hr' hi => hret s'' (D.rely_trans i hr hr') hi
  | act hact => exact .act fun s'' hr' hi hc => hact s'' (D.rely_trans i hr hr') hi hc

theorem Sees.post {a : α} {s : σ} {h : γ} (hp : D.Sees i upd W (.ret a) s h) (hi : D.inv s) :
    W a s h := by
  cases hp with
  | ret hret => exact hret s (D.rely_refl i s) hi

theorem Sees.next {o : Op} {k : σ → Prog Op σ α} {s : σ} {h : γ} (hp : D.Sees i upd W (.act o k) s h)
    (hi : D.inv s) (hc : D.cond i o s) : D.Sees i upd W (k s) (D.effect o s) (upd o s h) := by
  cases hp with
  | act hact => exact hact s (D.rely_refl i s) hi hc

/-- **Sequencing.** The first program is `Ok`, so the invariant holds where the second starts. -/
theorem sees_bind {Q : α → σ → Prop} {W' : β → σ → γ → Prop} {p : Prog Op σ α}
    {f : α → Prog Op σ β} {s : σ} {h : γ} (hs : D.inv s) (hok : D.Ok i Q p s)
    (hp : D.Sees i upd W p s h)
    (hf : ∀ a s h, D.inv s → Q a s → W a s h → D.Sees i upd W' (f a) s h) :
    D.Sees i upd W' (p >>= f) s h := by
  induction hp with
  | @ret a s h hret => exact hf a s h hs (hok.post hs) (hret s (D.rely_refl i s) hs)
  | @act o k s h hact ih =>
    refine .act fun s' hr hi hc => ?_
    obtain ⟨hm, hk⟩ := hok s' hr hi hc
    exact ih s' hr hi hc (D.inv_effect hi hc hm) hk

/-- A weaker end, given what the program can return. -/
theorem Sees.mono {R : α → Prop} {W' : α → σ → γ → Prop} {p : Prog Op σ α} {s : σ} {h : γ}
    (hp : D.Sees i upd W p s h) (hR : p.Returns R) (hW : ∀ a s h, R a → W a s h → W' a s h) :
    D.Sees i upd W' p s h := by
  induction hp with
  | ret hret =>
    cases hR with
    | ret ha => exact .ret fun s' hr hi => hW _ _ _ ha (hret s' hr hi)
  | act hact ih =>
    cases hR with
    | act hk => exact .act fun s' hr hi hc => ih s' hr hi hc (hk s')

/-- What a program sees as a thread of one system it sees as a thread of another that relies on more. -/
theorem Sees.recast {ι' : Type} {p : Prog Op σ α} {s : σ} {h : γ} (hp : D.Sees i upd W p s h)
    (D' : Discipline ι' Op σ) (i' : ι') (heffect : D'.effect = D.effect)
    (hinv : ∀ s, D'.inv s → D.inv s) (hrely : ∀ s s', D'.rely i' s s' → D.rely i s s')
    (hcond : ∀ o s, D'.cond i' o s → D.cond i o s) : D'.Sees i' upd W p s h := by
  induction hp with
  | ret hret => exact .ret fun s' hr hi => hret s' (hrely _ s' hr) (hinv s' hi)
  | act _ ih =>
    refine .act fun s' hr hi hc => ?_
    rw [heffect]
    exact ih s' (hrely _ s' hr) (hinv s' hi) (hcond _ s' hc)

/-- A program whose operations leave the record alone. -/
theorem sees_of_ok {A : Op → Prop} (hA : ∀ o s h, A o → upd o s h = h) {Q : α → σ → Prop}
    {p : Prog Op σ α} {s : σ} {h : γ} (hok : D.Ok i Q p s) (huses : p.Uses A) :
    D.Sees i upd (fun a s h' => Q a s ∧ h' = h) p s h := by
  induction p generalizing s with
  | ret a => exact .ret fun s' hr hi => ⟨hok s' hr hi, rfl⟩
  | act o k ih =>
    refine .act fun s' hr hi hc => ?_
    rw [hA o s' h huses.1]
    exact ih s' (hok s' hr hi hc).2 (huses.2 s')

section Sound

variable [DecidableEq ι] {S : System ι Op σ L C} {P : (i : ι) → L i → σ → Prop} {W : L i → σ → γ → Prop}

/-- One step of any thread keeps the record related to the local state. -/
theorem sees_step (heffect : S.effect = D.effect)
    (hsees : ∀ l x s h, D.inv s → P i l s → W l s h → D.Sees i upd W (S.start i l x) s h)
    {c : Config ι Op σ L} (hgood : D.Good P c) {h : γ}
    (hc : D.Sees i upd W (c.threads i) c.mem h) (e : (i : ι) × C i)
    (hcond : ∀ o, c.next e.1 = some o → D.cond e.1 o c.mem) :
    D.Sees i upd W ((S.step c e).threads i) (S.step c e).mem (System.observeStep i upd c h e) := by
  obtain ⟨j, x⟩ := e
  by_cases hj : j = i
  · subst hj
    cases hp : c.threads j with
    | ret l =>
      rw [hp] at hc
      rw [S.step_ret hp, System.observeStep_ret hp]
      simpa only [Function.update_self] using
        hsees l x c.mem h hgood.1 (hgood.rest hp) (hc.post hgood.1)
    | act o k =>
      rw [hp] at hc
      rw [S.step_act hp, System.observeStep_act hp, heffect]
      simpa only [Function.update_self] using
        hc.next hgood.1 (hcond o (Config.next_eq_some.mpr ⟨k, hp⟩))
  · rw [System.observeStep_of_ne hj]
    cases hp : c.threads j with
    | ret l =>
      rw [S.step_ret hp]
      simpa only [Function.update_of_ne (Ne.symm hj)] using hc
    | act o k =>
      have ho : c.next j = some o := Config.next_eq_some.mpr ⟨k, hp⟩
      have hr := D.rely_effect hj hgood.1 (hcond o ho) (hgood.may ho (hcond o ho))
      rw [S.step_act hp, heffect]
      simpa only [Function.update_of_ne (Ne.symm hj)] using hc.rely hr

/-- **Soundness.** In every run that obeys the discipline, the record of a thread is related to its local
state. -/
theorem sees_sound (heffect : S.effect = D.effect)
    (hstart : ∀ i l x s, D.inv s → P i l s → D.Ok i (P i) (S.start i l x) s)
    (hsees : ∀ l x s h, D.inv s → P i l s → W l s h → D.Sees i upd W (S.start i l x) s h)
    {c : Config ι Op σ L} (hgood : D.Good P c) {h : γ}
    (hc : D.Sees i upd W (c.threads i) c.mem h) {es : List ((i : ι) × C i)}
    (hes : S.Meets D.cond c es) :
    D.Sees i upd W ((S.run c es).threads i) (S.run c es).mem (S.observe i upd c h es) := by
  induction es generalizing c h with
  | nil => exact hc
  | cons e es ih =>
    exact ih (D.good_step heffect hstart hgood e hes.1) (sees_step heffect hsees hgood hc e hes.1) hes.2

end Sound

end Discipline

end Concurrency
