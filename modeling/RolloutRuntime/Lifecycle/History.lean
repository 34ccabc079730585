import Mathlib.Data.List.Basic

/-!
# Histories of a state machine

An object is in one of the states of a machine. It is moved from state to state along a table of
transitions, and it is put back to the start state by resets. Its history is the list of these events,
newest first. A history is *lawful* if every move is in the table and leaves the state the object was in.

## Main definitions

* `Event`, `current`, `Lawful`: events, the state after a history, and lawful histories.
* `sinceReset`, `IsPath`: the moves since the last reset, and paths in the table.
* `visited`: the states entered since the object was last in the start state.

## Main results

* `Lawful.isPath`: the moves since the last reset are a path from the start state.
* `Lawful.enters_between`: between two moves out of a state the object enters it.
* `Lawful.sublist_visited`: if every transition extends what a state must have behind it, then every
  object has behind it what its state must have.
-/

namespace Lifecycle

variable {S : Type}

/-- What happens to an object. -/
inductive Event (S : Type)
  | reset
  | moved (src dst : S)

variable (valid : S → S → Prop) (start : S)

/-- The event puts the object into the state. -/
def Event.Enters (a : S) : Event S → Prop
  | .reset => start = a
  | .moved _ dst => dst = a

/-- The state after a history. -/
def current : List (Event S) → S
  | [] => start
  | .reset :: _ => start
  | .moved _ dst :: _ => dst

/-- Every move is in the table and leaves the state the object was in. -/
def Lawful : List (Event S) → Prop
  | [] => True
  | .reset :: l => Lawful l
  | .moved src dst :: l => src = current start l ∧ valid src dst ∧ Lawful l

/-- The moves since the last reset, oldest first. -/
def sinceReset : List (Event S) → List (S × S)
  | [] => []
  | .reset :: _ => []
  | .moved src dst :: l => sinceReset l ++ [(src, dst)]

/-- The moves are in the table, and each leaves the state that the one before it entered. -/
def IsPath : S → List (S × S) → S → Prop
  | a, [], b => a = b
  | a, (src, dst) :: l, b => src = a ∧ valid src dst ∧ IsPath dst l b

/-- The states entered since the object was last in the start state, oldest first. -/
def visited [DecidableEq S] : List (Event S) → List S
  | [] => []
  | .reset :: _ => []
  | .moved _ dst :: l => if dst = start then [] else visited l ++ [dst]

variable {valid start}

theorem IsPath.snoc {a src dst : S} {l : List (S × S)} (h : IsPath valid a l src) (hv : valid src dst) :
    IsPath valid a (l ++ [(src, dst)]) dst := by
  induction l generalizing a with
  | nil =>
    obtain rfl : a = src := h
    exact ⟨rfl, hv, rfl⟩
  | cons x l ih =>
    obtain ⟨hsrc, hx, hrest⟩ := h
    exact ⟨hsrc, hx, ih hrest⟩

/-- **The moves since the last reset are a path** from the start state to the current one. -/
theorem Lawful.isPath {l : List (Event S)} (h : Lawful valid start l) :
    IsPath valid start (sinceReset l) (current start l) := by
  induction l with
  | nil => rfl
  | cons e l ih =>
    cases e with
    | reset => rfl
    | moved src dst =>
      obtain ⟨rfl, hv, hl⟩ := h
      exact (ih hl).snoc hv

theorem Lawful.of_append {l l' : List (Event S)} (h : Lawful valid start (l ++ l')) :
    Lawful valid start l' := by
  induction l with
  | nil => exact h
  | cons e l ih =>
    cases e with
    | reset => exact ih h
    | moved src dst => exact ih h.2.2

/-- The object is in the state that the newest event which enters one put it into. -/
theorem enters_of_current {a : S} {l l' : List (Event S)} (h : current start (l ++ l') = a)
    (h' : current start l' ≠ a) : ∃ e ∈ l, e.Enters start a := by
  cases l with
  | nil => exact absurd h h'
  | cons e l =>
    refine ⟨e, List.mem_cons_self, ?_⟩
    cases e <;> exact h

/-- **At most one move out of a state succeeds between two entries into it:** between two moves out of a
state the object enters it. -/
theorem Lawful.enters_between (hirrefl : ∀ a, ¬ valid a a) {a b c : S} {l₁ l₂ l₃ : List (Event S)}
    (h : Lawful valid start (l₃ ++ .moved a c :: (l₂ ++ .moved a b :: l₁))) :
    ∃ e ∈ l₂, e.Enters start a := by
  obtain ⟨hcur, -, hrest⟩ := h.of_append
  obtain ⟨-, hv, -⟩ := hrest.of_append
  refine enters_of_current hcur.symm fun hb => ?_
  obtain rfl : b = a := hb
  exact hirrefl b hv

/-- **What lies behind a state.** If every transition extends what its source must have behind it to
what its target must have behind it, an object has visited what its state must have behind it. -/
theorem Lawful.sublist_visited [DecidableEq S] (behind : S → List S) (hstart : behind start = [])
    (hstep : ∀ a b, valid a b → b ≠ start → (behind b).Sublist (behind a ++ [b])) {l : List (Event S)}
    (h : Lawful valid start l) : (behind (current start l)).Sublist (visited start l) := by
  induction l with
  | nil =>
    rw [current, hstart]
    exact List.nil_sublist _
  | cons e l ih =>
    cases e with
    | reset =>
      rw [current, hstart]
      exact List.nil_sublist _
    | moved src dst =>
      obtain ⟨rfl, hv, hl⟩ := h
      simp only [current, visited]
      by_cases hdst : dst = start
      · rw [hdst, hstart]
        exact List.nil_sublist _
      · rw [if_neg hdst]
        exact (hstep _ dst hv hdst).trans ((ih hl).append_right [dst])

end Lifecycle
