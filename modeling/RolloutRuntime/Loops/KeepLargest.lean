import Mathlib.Data.List.Sort
import Mathlib.Order.BoundedOrder.Basic

/-!
# Keeping the largest values

The `n` largest of the values seen so far are kept in decreasing order by inserting each new value and
dropping what is then the last one. A value may go before or after the values it is equal to, and only the
first `n` places of the list matter.

## Main results

* `KeepLargest.orderedInsert_eq_insertIdx`: where a value goes.
* `KeepLargest.take_orderedInsert_take`: only the first `n` places matter.
* `KeepLargest.take_padded_snoc`: one more value.
* `KeepLargest.take_padded`: fewer than `n` values, with the least one for those that are missing.
-/

namespace KeepLargest

variable {α : Type}

/-- A value goes before the first value that it comes before, or to the end. -/
theorem orderedInsert_eq_insertIdx (r : α → α → Prop) [DecidableRel r] {v : α} {l : List α} {p : ℕ}
    (hp : p ≤ l.length) (hat : ∀ h : p < l.length, r v l[p])
    (hbefore : ∀ k, ∀ h : k < l.length, k < p → ¬ r v l[k]) : l.orderedInsert r v = l.insertIdx p v := by
  induction l generalizing p with
  | nil =>
    obtain rfl : p = 0 := Nat.le_zero.mp hp
    rfl
  | cons a l ih =>
    cases p with
    | zero =>
      have hva : r v a := hat (Nat.succ_pos _)
      rw [List.orderedInsert_cons, if_pos hva, List.insertIdx_zero]
    | succ p =>
      have hva : ¬ r v a := hbefore 0 (Nat.succ_pos _) (Nat.succ_pos p)
      have hrest : l.orderedInsert r v = l.insertIdx p v :=
        ih (Nat.le_of_succ_le_succ hp) (fun h => hat (Nat.succ_lt_succ h))
          fun k h hk => hbefore (k + 1) (Nat.succ_lt_succ h) (Nat.succ_lt_succ hk)
      rw [List.orderedInsert_cons, if_neg hva, hrest, List.insertIdx_succ_cons]

theorem take_orderedInsert_take (r : α → α → Prop) [DecidableRel r] (v : α) (n : ℕ) (l : List α) :
    ((l.take n).orderedInsert r v).take n = (l.orderedInsert r v).take n := by
  induction l generalizing n with
  | nil => simp
  | cons a l ih =>
    cases n with
    | zero => simp
    | succ n =>
      rw [List.take_succ_cons, List.orderedInsert_cons, List.orderedInsert_cons]
      split_ifs with hva
      · rw [List.take_succ_cons, List.take_succ_cons]
        cases n with
        | zero => rfl
        | succ n => rw [List.take_succ_cons, List.take_succ_cons, List.take_take, min_eq_left n.le_succ]
      · rw [List.take_succ_cons, List.take_succ_cons, ih]

variable [LinearOrder α]

/-- In a decreasing list it does not matter on which side of equal values a value goes. -/
theorem orderedInsert_gt_eq_ge {v : α} {l : List α} (hl : l.Pairwise (· ≥ ·)) :
    l.orderedInsert (· > ·) v = l.orderedInsert (· ≥ ·) v := by
  induction l with
  | nil => rfl
  | cons a l ih =>
    obtain ⟨hle, htail⟩ := List.pairwise_cons.mp hl
    rw [List.orderedInsert_cons, List.orderedInsert_cons]
    rcases lt_trichotomy v a with hlt | rfl | hgt
    · rw [if_neg hlt.not_gt, if_neg hlt.not_ge, ih htail]
    · rw [if_neg (lt_irrefl v), if_pos (le_refl v), ih htail]
      cases l with
      | nil => rfl
      | cons b l => rw [List.orderedInsert_cons, if_pos (hle b List.mem_cons_self)]
    · rw [if_pos hgt, if_pos hgt.le]

variable [OrderBot α]

/-- The values in decreasing order, and `n` times the least value after them. -/
def padded (n : ℕ) (values : List α) : List α :=
  values.insertionSort (· ≥ ·) ++ List.replicate n ⊥

theorem pairwise_padded (n : ℕ) (values : List α) : (padded n values).Pairwise (· ≥ ·) := by
  refine List.pairwise_append.mpr ⟨List.pairwise_insertionSort _ _, ?_, fun a _ b hb => ?_⟩
  · exact List.pairwise_replicate.mpr (Or.inr le_rfl)
  · rw [List.eq_of_mem_replicate hb]
    exact bot_le

theorem perm_padded (n : ℕ) (values : List α) : (padded n values).Perm (values ++ List.replicate n ⊥) :=
  (List.perm_insertionSort _ _).append_right _

/-- **One more value** of which to keep the largest `n`. -/
theorem take_padded_snoc (n : ℕ) (values : List α) (v : α) :
    (((padded n values).take n).orderedInsert (· > ·) v).take n = (padded n (values ++ [v])).take n := by
  rw [take_orderedInsert_take, orderedInsert_gt_eq_ge (pairwise_padded n values)]
  congr 1
  refine List.Perm.eq_of_pairwise' ((pairwise_padded n values).orderedInsert v _)
    (pairwise_padded n (values ++ [v])) ?_
  calc
    ((padded n values).orderedInsert (· ≥ ·) v).Perm (v :: padded n values) :=
      List.perm_orderedInsert _ _ _
    List.Perm _ (v :: (values ++ List.replicate n ⊥)) := (perm_padded n values).cons v
    List.Perm _ (values ++ [v] ++ List.replicate n ⊥) := by
      rw [List.append_assoc]
      exact List.perm_middle.symm
    List.Perm _ (padded n (values ++ [v])) := (perm_padded n _).symm

/-- The largest `n`, or all of them with the least value for those that are missing. -/
theorem take_padded (n : ℕ) (values : List α) :
    (padded n values).take n =
      (values.insertionSort (· ≥ ·)).take n ++ List.replicate (n - values.length) ⊥ := by
  rw [padded, List.take_append, List.length_insertionSort, List.take_replicate,
    min_eq_left (Nat.sub_le _ _)]

end KeepLargest
