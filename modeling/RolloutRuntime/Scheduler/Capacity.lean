import RolloutRuntime.Scheduler.Passes
import Mathlib.Order.Interval.Finset.Nat

/-!
# Requests for few tokens

The worker admits at most one request in an iteration, and a request for `T` tokens leaves its slot `T`
iterations after the one that admitted it. So at most `T` slots are active at the top of the loop, and if
no request asks for more than 255 tokens there is always a free slot. If all requests ask for the same
number of tokens, they are reported in the order in which they were taken.

## Main definitions

* `Scheduler.Limited`: no request of the record asks for more than `T` tokens.
* `Scheduler.Answers`: a notification is that of a request.

## Main results

* `Scheduler.Passes.card_activeSlots_le`: at most `T` slots are active.
* `Scheduler.Passes.exists_admits`: every request taken is admitted.
* `Scheduler.Passes.reports_in_order`: requests for the same number of tokens are reported in order.

## References

* `cu/gpu_scheduler.cu` lines 35–78.
-/

namespace RolloutRuntime

namespace Scheduler

/-- No request of the record asks for more than `T` tokens. -/
def Limited (T : ℕ) (log : List Iteration) : Prop :=
  ∀ it ∈ log, ∀ req, it.request = some req → req.maxTokens.toNat ≤ T

section Record

variable {T j k k' : ℕ} {log : List Iteration} {st : GpuRolloutState} {it : Iteration} {i i' : Slot}
  {req req' : RolloutRequest}

/-- An iteration admits one request to one slot. -/
theorem Since.unique (h : Since log k i req) (h' : Since log k i' req') : i = i' ∧ req = req' := by
  obtain ⟨it, hk, hreq, hslot⟩ := h
  obtain ⟨it', hk', hreq', hslot'⟩ := h'
  obtain rfl : it = it' := Option.some.inj (hk.symm.trans hk')
  exact ⟨Option.some.inj (hslot.symm.trans hslot'), Option.some.inj (hreq.symm.trans hreq')⟩

theorem Since.limit_le (h : Since log k i req) (hlim : Limited T log) : req.maxTokens.toNat ≤ T := by
  obtain ⟨it, hk, hreq, -⟩ := h
  exact hlim it (List.mem_of_getElem? hk) req hreq

namespace Passes

/-- **Few slots are active.** Every active slot was given away in one of the last `T` iterations, and no
two in the same one. -/
theorem card_activeSlots_le (h : Passes log st) (hlim : Limited T log) : (activeSlots st).card ≤ T := by
  have hholder := h.held.2.holder
  choose! since req hsince hle hlimit using hholder
  have hmaps : ∀ i ∈ activeSlots st, since i ∈ Finset.Ico (log.length - T) log.length := by
    intro i hi
    have hactive := mem_activeSlots.mp hi
    have hlt := (hsince i hactive).lt
    have hT := (hsince i hactive).limit_le hlim
    have hage := (hlimit i hactive).1
    rw [Finset.mem_Ico]
    omega
  have hinj : Set.InjOn since (activeSlots st) := by
    intro i hi i' hi' heq
    have hi₁ := hsince i (mem_activeSlots.mp hi)
    have hi₂ := hsince i' (mem_activeSlots.mp hi')
    rw [← heq] at hi₂
    exact (hi₁.unique hi₂).1
  have hcard := Finset.card_le_card_of_injOn since hmaps hinj
  rw [Nat.card_Ico] at hcard
  omega

/-- There is a free slot at the top of the loop. -/
theorem findFreeSlot_ne_none (h : Passes log st) (hlim : Limited 255 log) : findFreeSlot st ≠ none := by
  intro hnone
  have hall := (findFreeSlot_eq_none h.held.1.agrees).mp hnone
  have hcard := h.card_activeSlots_le hlim
  rw [hall, Finset.card_univ, Fintype.card_fin] at hcard
  omega

/-- **No request is lost.** -/
theorem exists_admits (h : Passes log st) (hlim : Limited 255 log) (hk : log[k]? = some it)
    (hreq : it.request = some req) : ∃ i, Since log k i req := by
  obtain ⟨hbefore, -⟩ := h.exists_before hk
  have hlim' : Limited 255 (log.take k) := fun it hit => hlim it (List.mem_of_mem_take hit)
  obtain ⟨⟨i, st'⟩, hfind⟩ := Option.ne_none_iff_exists'.mp (hbefore.findFreeSlot_ne_none hlim')
  exact ⟨i, it, hk, hreq, by rw [hfind]; rfl⟩

end Passes

end Record

/-! ### Requests for the same number of tokens -/

/-- The notification `d` is that of the request `req`, from whichever slot. -/
def Answers (d : RolloutDone) (req : RolloutRequest) : Prop := ∃ i, d = completed i req

/-- Every request of the record asks for `T` tokens. -/
def Alike (T : ℕ) (log : List Iteration) : Prop :=
  ∀ it ∈ log, ∀ req, it.request = some req → req.maxTokens.toNat = T

section Alike

variable {T j k : ℕ} {log : List Iteration} {st : GpuRolloutState} {it it' : Iteration} {i : Slot}
  {req : RolloutRequest}

theorem Alike.limited (h : Alike T log) (hT : T ≤ 255) : Limited 255 log :=
  fun it hit req hreq => (h it hit req hreq).le.trans hT

theorem Alike.since (h : Alike T log) (hsince : Since log k i req) : req.maxTokens.toNat = T := by
  obtain ⟨it, hk, hreq, -⟩ := hsince
  exact h it (List.mem_of_getElem? hk) req hreq

namespace Passes

theorem reports_early (h : Passes log st) (halike : Alike T log) (hj : log[j]? = some it) (hlt : j < T) :
    it.reports = [] := by
  refine List.eq_nil_iff_forall_not_mem.mpr fun d hd => ?_
  obtain ⟨k, i, req, hsince, hjk, -⟩ := h.exists_since hj hd
  have hlimit := halike.since hsince
  omega

/-- Iteration `k + T` reports what iteration `k` took. -/
theorem reports_late (h : Passes log st) (halike : Alike T log) (hT : T ≤ 255)
    (hk : log[k]? = some it) (hj : log[k + T]? = some it') :
    List.Forall₂ Answers it'.reports it.request.toList := by
  have hkey : ∀ d ∈ it'.reports, ∃ i req, Since log k i req ∧ d = completed i req := by
    intro d hd
    obtain ⟨k', i, req, hsince, hjk, hd⟩ := h.exists_since hj hd
    have hlimit := halike.since hsince
    obtain rfl : k' = k := by omega
    exact ⟨i, req, hsince, hd⟩
  rcases hreq : it.request with _ | req
  · have hnil : it'.reports = [] := by
      refine List.eq_nil_iff_forall_not_mem.mpr fun d hd => ?_
      obtain ⟨i, req, ⟨it₁, hk₁, hreq₁, -⟩, -⟩ := hkey d hd
      obtain rfl : it = it₁ := Option.some.inj (hk.symm.trans hk₁)
      exact absurd (hreq.symm.trans hreq₁) (by simp)
    rw [hnil]
    exact .nil
  · obtain ⟨i, hsince⟩ := h.exists_admits (halike.limited hT) hk hreq
    have hlimit := halike.since hsince
    have honly := h.reports_since hsince hj (Nat.le_add_right k T) (by omega)
    rw [if_pos (by omega)] at honly
    have hall : reportsOf i it'.reports = it'.reports := by
      refine List.filter_eq_self.mpr fun d hd => ?_
      obtain ⟨i', req', hsince', rfl⟩ := hkey d hd
      obtain ⟨rfl, rfl⟩ := hsince.unique hsince'
      exact decide_eq_true rfl
    rw [← hall, honly]
    exact .cons ⟨i, rfl⟩ .nil

/-- **Requests for the same number of tokens are reported in order**, all but those of the last `T`
iterations. -/
theorem reports_in_order (h : Passes log st) (halike : Alike T log) (hT : T ≤ 255) :
    List.Forall₂ Answers (log.flatMap Iteration.reports)
      ((log.take (log.length - T)).filterMap Iteration.request) := by
  induction h with
  | nil => simp
  | @snoc log st h x ih =>
    have halike' : Alike T log := fun it hit => halike it (List.mem_append_left _ hit)
    have hsnoc := h.snoc x
    set it : Iteration := ⟨st, x, (pass st x).2⟩
    have hlast : (log ++ [it])[log.length]? = some it := by simp
    rw [List.flatMap_append, List.length_append, List.length_singleton, List.flatMap_singleton]
    by_cases hlt : log.length < T
    · have hnil := hsnoc.reports_early halike hlast hlt
      have hzero : log.length + 1 - T = log.length - T := by omega
      rw [hnil, List.append_nil, hzero, List.take_append_of_le_length (Nat.sub_le _ _)]
      exact ih halike'
    · obtain ⟨k, hk⟩ : ∃ k, log.length = k + T := ⟨log.length - T, by omega⟩
      have hkt : log.length + 1 - T = k + 1 := by omega
      have hk' : log.length - T = k := by omega
      rw [hk'] at ih
      obtain ⟨itk, hitk⟩ : ∃ itk, (log ++ [it])[k]? = some itk :=
        ⟨_, List.getElem?_eq_getElem (by simp; omega)⟩
      rw [hkt, List.take_add_one, hitk, List.take_append_of_le_length (by omega),
        List.filterMap_append, Option.toList_some, List.filterMap_cons]
      refine List.rel_append (ih halike') ?_
      have hlate := hsnoc.reports_late halike hT hitk (by rw [← hk]; exact hlast)
      cases hreq : itk.request with
      | none => rwa [hreq] at hlate
      | some req => rwa [hreq] at hlate

end Passes

end Alike

end Scheduler

end RolloutRuntime
