import Mathlib.Data.Fintype.Basic
import RolloutRuntime.Concurrency.Program

/-!
# Progress of a system of threads

Where all threads rest, a configuration is given by the memory and the local states. A *place* is such a
pair, and a schedule *leads* from one place to another. Schedules are put together from calls that the
threads make alone, one after the other; that every run can be continued to some end is then a statement
about places only, since every run can be continued until all threads rest.

## Main definitions

* `System.Leads`: from one place the threads can go to another.
* `System.Arrives`: a run from a configuration comes to a place.

## Main results

* `System.leads_call`: a call that one thread makes alone.
* `System.exists_arrives`: every run can be continued until all threads rest.
-/

namespace Concurrency

namespace System

variable {ι Op σ : Type} {L C : ι → Type} [DecidableEq ι] (S : System ι Op σ L C)

/-- From one place the threads can go to another. -/
def Leads (l : (i : ι) → L i) (s : σ) (l' : (i : ι) → L i) (s' : σ) : Prop :=
  ∃ es, S.run (.rest s l) es = .rest s' l'

/-- A run from `c` comes to a place. -/
def Arrives (c : Config ι Op σ L) (l : (i : ι) → L i) (s : σ) : Prop :=
  ∃ es, S.run c es = .rest s l

variable {S} {l l₁ l₂ : (i : ι) → L i} {s s₁ s₂ : σ} {c : Config ι Op σ L}

theorem Leads.refl : S.Leads l s l s := ⟨[], rfl⟩

theorem Leads.trans (h : S.Leads l s l₁ s₁) (h' : S.Leads l₁ s₁ l₂ s₂) : S.Leads l s l₂ s₂ := by
  obtain ⟨es, hes⟩ := h
  obtain ⟨es', hes'⟩ := h'
  refine ⟨es ++ es', ?_⟩
  rw [S.run_append, hes, hes']

theorem Arrives.leads (h : S.Arrives c l s) (h' : S.Leads l s l₁ s₁) : S.Arrives c l₁ s₁ := by
  obtain ⟨es, hes⟩ := h
  obtain ⟨es', hes'⟩ := h'
  refine ⟨es ++ es', ?_⟩
  rw [S.run_append, hes, hes']

/-- **A call** that thread `i` makes alone. -/
theorem leads_call {i : ι} (x : C i) {a : L i} (h : (S.start i (l i) x).run S.effect s = (a, s₁)) :
    S.Leads l s (Function.update l i a) s₁ := by
  obtain ⟨es, hes⟩ := S.exists_schedule_call x (Config.rest s l) (i := i) rfl
  refine ⟨es, ?_⟩
  have hrun : (S.start i (l i) x).run S.effect (Config.rest s l : Config ι Op σ L).mem = (a, s₁) := h
  rw [hes, hrun]
  refine congrArg (Config.mk s₁) (funext fun j => ?_)
  by_cases hj : j = i
  · subst hj
    rw [Function.update_self, Function.update_self]
  · rw [Function.update_of_ne hj, Function.update_of_ne hj]
    rfl

theorem exists_schedule_rest_of_finset (x : (i : ι) → C i) (c : Config ι Op σ L) (T : Finset ι) :
    ∃ es, ∀ i ∈ T, ∃ a, (S.run c es).threads i = .ret a := by
  induction T using Finset.induction_on with
  | empty => exact ⟨[], fun i hi => absurd hi (Finset.notMem_empty i)⟩
  | insert i T _ ih =>
    obtain ⟨es, hes⟩ := ih
    obtain ⟨es', -, hself, hother⟩ := S.exists_schedule_rest i (x i) (S.run c es)
    refine ⟨es ++ es', fun j hj => ?_⟩
    rw [S.run_append]
    by_cases hji : j = i
    · subst hji
      exact ⟨_, hself⟩
    · obtain ⟨a, ha⟩ := hes j (Finset.mem_of_mem_insert_of_ne hj hji)
      exact ⟨a, (hother j hji).trans ha⟩

/-- **Every run can be continued until all threads rest.** -/
theorem exists_arrives [Fintype ι] (x : (i : ι) → C i) (c : Config ι Op σ L) :
    ∃ l s, S.Arrives c l s := by
  obtain ⟨es, hes⟩ := exists_schedule_rest_of_finset (S := S) x c Finset.univ
  choose l hl using fun i => hes i (Finset.mem_univ i)
  exact ⟨l, (S.run c es).mem, es, congrArg (Config.mk (S.run c es).mem) (funext hl)⟩

end System

end Concurrency
