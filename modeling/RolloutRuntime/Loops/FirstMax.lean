import RolloutRuntime.Loops.Counted
import Mathlib.Order.WithBot

/-!
# Scans for the first of the largest values

A loop that goes through values and keeps one until it finds a larger one ends with the first of the largest
values.

## Main definitions

* `Loops.IsFirstMax f n i`: `i` is the first index below `n` with the largest value of `f`.

## Main results

* `Loops.IsFirstMax.succ`: one more value.
* `Loops.forRange_firstMax`: a scan that keeps the value with a label.
* `Loops.forRange_firstMax_bot`: the same from `⊥` on.
* `Loops.forRange_firstMax_index`: a scan that keeps the index alone.
-/

namespace Loops

variable {α ι : Type} [LinearOrder α]

/-- `i` is the first index below `n` with the largest value. -/
def IsFirstMax (f : ℕ → α) (n i : ℕ) : Prop := i < n ∧ (∀ j < n, f j ≤ f i) ∧ ∀ j < i, f j < f i

section IsFirstMax

variable {f : ℕ → α} {n i j : ℕ}

theorem isFirstMax_one (f : ℕ → α) : IsFirstMax f 1 0 := by
  refine ⟨Nat.one_pos, fun j hj => ?_, fun j hj => absurd hj (Nat.not_lt_zero j)⟩
  rw [Nat.lt_one_iff.mp hj]

theorem IsFirstMax.le (h : IsFirstMax f n i) (hj : f i ≤ f j) : i ≤ j := by
  by_contra hlt
  exact absurd (h.2.2 j (Nat.lt_of_not_le hlt)) (not_lt.mpr hj)

/-- **One more value**: the scan changes to it only if it is larger. -/
theorem IsFirstMax.succ (h : IsFirstMax f n i) : IsFirstMax f (n + 1) (if f i < f n then n else i) := by
  obtain ⟨hi, hle, hlt⟩ := h
  split_ifs with hn
  · refine ⟨Nat.lt_succ_self n, fun j hj => ?_, fun j hj => (hle j hj).trans_lt hn⟩
    rcases Nat.lt_succ_iff_lt_or_eq.mp hj with hj | rfl
    · exact (hle j hj).trans hn.le
    · exact le_rfl
  · refine ⟨Nat.lt_succ_of_lt hi, fun j hj => ?_, hlt⟩
    rcases Nat.lt_succ_iff_lt_or_eq.mp hj with hj | rfl
    · exact hle j hj
    · exact not_lt.mp hn

end IsFirstMax

/-- **A scan that keeps the largest value so far and its label.** -/
theorem forRange_firstMax (f : ℕ → α) (g : ℕ → ι) (n : ℕ) :
    ∃ i, IsFirstMax f (n + 1) i ∧
      forRange n (fun k b => if b.1 < f (k + 1) then (f (k + 1), g (k + 1)) else b) (f 0, g 0) =
        (f i, g i) := by
  refine forRange_induct (fun k b => ∃ i, IsFirstMax f (k + 1) i ∧ b = (f i, g i)) ?_ ?_
  · exact ⟨0, isFirstMax_one f, rfl⟩
  · rintro k - _ ⟨i, hi, rfl⟩
    refine ⟨_, hi.succ, ?_⟩
    split_ifs <;> rfl

/-- A scan that begins with no value at all takes the first one. -/
theorem forRange_firstMax_bot (f : ℕ → α) (g : ℕ → ι) (n : ℕ) (label : ι) :
    ∃ i, IsFirstMax f (n + 1) i ∧
      forRange (n + 1) (fun k b => if b.1 < (f k : WithBot α) then ((f k : WithBot α), g k) else b)
          (⊥, label) = ((f i : WithBot α), g i) := by
  refine forRange_induct
    (fun k b => k = 0 ∧ b = (⊥, label) ∨ ∃ i, IsFirstMax f k i ∧ b = ((f i : WithBot α), g i))
    (Or.inl ⟨rfl, rfl⟩) ?_ |>.resolve_left (fun h => absurd h.1 n.succ_ne_zero)
  rintro k - _ (⟨rfl, rfl⟩ | ⟨i, hi, rfl⟩)
  · exact Or.inr ⟨0, isFirstMax_one f, if_pos (WithBot.bot_lt_coe _)⟩
  · refine Or.inr ⟨_, hi.succ, ?_⟩
    simp only [WithBot.coe_lt_coe]
    split_ifs <;> rfl

/-- A scan that keeps the index and looks its value up. -/
theorem forRange_firstMax_index (f : ℕ → α) (n : ℕ) :
    IsFirstMax f (n + 1) (forRange n (fun k i => if f i < f (k + 1) then k + 1 else i) 0) :=
  forRange_induct (fun k i => IsFirstMax f (k + 1) i) (isFirstMax_one f) fun _ _ _ hi => hi.succ

end Loops
