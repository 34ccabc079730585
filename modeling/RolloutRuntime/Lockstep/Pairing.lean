import Mathlib.Data.Finset.Card
import Mathlib.Data.Finset.Dedup
import Mathlib.Data.List.Forall2
import Mathlib.Data.List.Infix

/-!
# Two lists read in lockstep

Two sequences of events are matched in lockstep when the event number `r` of the one is compared with the
event number `r` of the other and no other. Of the keys that occur in both, the matching finds those with
the same number in both.

## Main definitions

* `Lockstep.matched`: the keys that a matching in lockstep finds.

## Main results

* `Lockstep.map_fst_zip_le`, `Lockstep.map_snd_zip_le`: each sequence is used in order, and no
  element twice.
* `Lockstep.forall₂_filterMap`: the elements that a partial function keeps, beside its values.
* `Lockstep.length_matched_eq_card_iff`: when a matching in lockstep finds every common key.
-/

namespace Lockstep

variable {α β κ : Type}

theorem map_fst_zip_le (l : List α) (l' : List β) : (l.zip l').map Prod.fst <+: l := by
  induction l generalizing l' with
  | nil => simp
  | cons a l ih =>
    cases l' with
    | nil => simp
    | cons b l' => simpa using ih l'

theorem map_snd_zip_le (l : List α) (l' : List β) : (l.zip l').map Prod.snd <+: l' := by
  induction l generalizing l' with
  | nil => simp
  | cons a l ih =>
    cases l' with
    | nil => simp
    | cons b l' => simpa using ih l'

/-- The elements that a partial function keeps, beside its values at them. -/
theorem forall₂_filterMap (f : α → Option β) (l : List α) :
    List.Forall₂ (fun a b => a ∈ l ∧ f a = some b) (l.filter fun a => (f a).isSome)
      (l.filterMap f) := by
  induction l with
  | nil => exact .nil
  | cons a l ih =>
    have htail := ih.imp fun _ _ h => (⟨List.mem_cons_of_mem a h.1, h.2⟩ : _ ∧ _)
    cases ha : f a with
    | none => simpa [ha] using htail
    | some b => simpa [ha] using htail

section Keys

variable [DecidableEq κ] {ks ls : List κ}

/-- The keys that a matching in lockstep finds. -/
def matched (ks ls : List κ) : List κ := ((ks.zip ls).filter fun p => p.1 = p.2).map Prod.fst

theorem mem_matched {k : κ} : k ∈ matched ks ls ↔ ∃ r : ℕ, ks[r]? = some k ∧ ls[r]? = some k := by
  rw [matched, List.mem_map]
  constructor
  · rintro ⟨⟨a, b⟩, hmem, rfl⟩
    obtain ⟨hzip, heq⟩ := List.mem_filter.mp hmem
    obtain rfl : a = b := by simpa using heq
    obtain ⟨r, hr⟩ := List.mem_iff_getElem?.mp hzip
    exact ⟨r, List.getElem?_zip_eq_some.mp hr⟩
  · rintro ⟨r, hr⟩
    have hzip : (k, k) ∈ ks.zip ls := List.mem_of_getElem? (List.getElem?_zip_eq_some.mpr hr)
    exact ⟨(k, k), List.mem_filter.mpr ⟨hzip, by simp⟩, rfl⟩

theorem matched_nodup (h : ks.Nodup) : (matched ks ls).Nodup :=
  h.sublist ((List.filter_sublist.map _).trans (map_fst_zip_le ks ls).sublist)

theorem matched_subset : (matched ks ls).toFinset ⊆ ks.toFinset ∩ ls.toFinset := by
  intro k hk
  obtain ⟨r, ha, hb⟩ := mem_matched.mp (List.mem_toFinset.mp hk)
  rw [Finset.mem_inter, List.mem_toFinset, List.mem_toFinset]
  exact ⟨List.mem_of_getElem? ha, List.mem_of_getElem? hb⟩

/-- **Lockstep finds the common keys with equal numbers.** For two sequences without repetition, every
common key is found exactly if each common key has the same number in both. -/
theorem length_matched_eq_card_iff (hks : ks.Nodup) (hls : ls.Nodup) :
    (matched ks ls).length = (ks.toFinset ∩ ls.toFinset).card ↔
      ∀ (i j : ℕ) (k : κ), ks[i]? = some k → ls[j]? = some k → i = j := by
  rw [← List.toFinset_card_of_nodup (matched_nodup hks)]
  constructor
  · intro hcard i j k hi hj
    have hall := Finset.eq_of_subset_of_card_le matched_subset hcard.ge
    have hk : k ∈ ks.toFinset ∩ ls.toFinset := by
      rw [Finset.mem_inter, List.mem_toFinset, List.mem_toFinset]
      exact ⟨List.mem_of_getElem? hi, List.mem_of_getElem? hj⟩
    rw [← hall, List.mem_toFinset, mem_matched] at hk
    obtain ⟨r, hr, hr'⟩ := hk
    have hir := (List.getElem?_inj (List.getElem?_eq_some_iff.mp hi).1 hks).mp (hi.trans hr.symm)
    have hjr := (List.getElem?_inj (List.getElem?_eq_some_iff.mp hj).1 hls).mp (hj.trans hr'.symm)
    rw [hir, hjr]
  · intro hrank
    congr 1
    refine Finset.Subset.antisymm matched_subset fun k hk => ?_
    rw [Finset.mem_inter, List.mem_toFinset, List.mem_toFinset, List.mem_iff_getElem?,
      List.mem_iff_getElem?] at hk
    obtain ⟨⟨i, hi⟩, j, hj⟩ := hk
    obtain rfl := hrank i j k hi hj
    exact List.mem_toFinset.mpr (mem_matched.mpr ⟨i, hi, hj⟩)

end Keys

end Lockstep
