import RolloutRuntime.Bitmap.Words
import Mathlib.Data.Finset.Max
import Mathlib.Data.Fintype.Basic

/-!
# Allocators of ids

An allocator hands out ids below `n` and takes them back. The *reference allocator* keeps the finite set
of the ids in use: it hands out the smallest id that is not in use, refuses exactly if all ids are, and
taking back an id that is not in use changes nothing. Other allocators are compared with it by the
events of a sequence of calls: which ids were handed out, which calls were refused, which ids were
freed.

An allocator on a bitmap scans for the lowest bit of the right polarity. Whether a set bit stands for an
id in use or for a free one, it refines the reference allocator as soon as its bitmap represents the set
of the ids in use.

## Main definitions

* `Allocator`, `Allocator.events`, `Allocator.Refines`.
* `reference`: the reference allocator.
* `Represents`: the bitmap of a set of ids, for either polarity.

## Main results

* `Allocator.refines_of_simulation`: the simulation rule.
* `Allocator.Refines.freed_between`: between two times an id is handed out it is freed.
* `Represents.scan`, `Represents.take`, `Represents.give`: what the operations on a bitmap do to the set
  it represents.
* `Allocator.OnBitmap.refines`: allocators on a bitmap refine the reference allocator.
-/

namespace Bitmap

variable {n : ℕ}

/-! ### Allocators -/

/-- An allocator of ids below `n`. A refused allocation leaves the state alone. -/
structure Allocator (n : ℕ) where
  State : Type
  init : State
  alloc : State → Option (Fin n × State)
  free : State → Fin n → State

/-- The calls of an allocator. -/
inductive Call (n : ℕ)
  | alloc
  | free (i : Fin n)

/-- What happens in a call. -/
inductive Event (n : ℕ)
  | handed (i : Fin n)
  | refused
  | freed (i : Fin n)

namespace Allocator

/-- The event of one call, and the state after it. -/
def call (A : Allocator n) (s : A.State) : Call n → Event n × A.State
  | .alloc =>
    match A.alloc s with
    | none => (.refused, s)
    | some (i, s') => (.handed i, s')
  | .free i => (.freed i, A.free s i)

/-- The events of a sequence of calls. -/
def events (A : Allocator n) : A.State → List (Call n) → List (Event n)
  | _, [] => []
  | s, c :: cs => (A.call s c).1 :: A.events (A.call s c).2 cs

/-- The allocator shows the same events as `B` in every sequence of calls. -/
def Refines (A B : Allocator n) : Prop :=
  ∀ cs, A.events A.init cs = B.events B.init cs

/-- Both allocators refuse, or both hand out the same id and stay related. -/
inductive SameAlloc {A B : Allocator n} (R : A.State → B.State → Prop) :
    Option (Fin n × A.State) → Option (Fin n × B.State) → Prop
  | refused : SameAlloc R none none
  | handed (i : Fin n) {s : A.State} {t : B.State} (h : R s t) : SameAlloc R (some (i, s)) (some (i, t))

/-- **Simulation.** -/
theorem refines_of_simulation {A B : Allocator n} (R : A.State → B.State → Prop)
    (hinit : R A.init B.init) (halloc : ∀ s t, R s t → SameAlloc R (A.alloc s) (B.alloc t))
    (hfree : ∀ s t i, R s t → R (A.free s i) (B.free t i)) : A.Refines B := by
  have hevents : ∀ (cs : List (Call n)) (s : A.State) (t : B.State), R s t →
      A.events s cs = B.events t cs := by
    intro cs
    induction cs with
    | nil => exact fun _ _ _ => rfl
    | cons c cs ih =>
      intro s t h
      cases c with
      | free i => exact congrArg _ (ih _ _ (hfree s t i h))
      | alloc =>
        have hsame := halloc s t h
        simp only [events, call]
        revert hsame
        generalize A.alloc s = x
        generalize B.alloc t = y
        intro hsame
        cases hsame with
        | refused => exact congrArg _ (ih s t h)
        | handed i h' => exact congrArg _ (ih _ _ h')
  exact fun cs => hevents cs A.init B.init hinit

end Allocator

/-! ### The reference allocator -/

/-- The smallest id that is not in use. -/
def leastUnused (used : Finset (Fin n)) : Option (Fin n) :=
  if h : usedᶜ.Nonempty then some (usedᶜ.min' h) else none

theorem leastUnused_eq_some {used : Finset (Fin n)} {i : Fin n} :
    leastUnused used = some i ↔ i ∉ used ∧ ∀ j < i, j ∈ used := by
  rw [leastUnused]
  constructor
  · intro h
    split_ifs at h with hne
    obtain rfl := Option.some_inj.mp h
    refine ⟨Finset.mem_compl.mp (Finset.min'_mem _ hne), fun j hj => ?_⟩
    by_contra hmem
    exact absurd hj (Finset.min'_le _ j (Finset.mem_compl.mpr hmem)).not_gt
  · rintro ⟨hi, hbelow⟩
    have hmem : i ∈ usedᶜ := Finset.mem_compl.mpr hi
    rw [dif_pos ⟨i, hmem⟩, Option.some_inj]
    refine le_antisymm (Finset.min'_le _ i hmem) (Finset.le_min' _ _ i fun j hj => ?_)
    by_contra hlt
    exact Finset.mem_compl.mp hj (hbelow j (not_le.mp hlt))

theorem leastUnused_eq_none {used : Finset (Fin n)} : leastUnused used = none ↔ used = Finset.univ := by
  rw [leastUnused]
  split_ifs with h
  · simp only [false_iff]
    rintro rfl
    simp at h
  · rw [Finset.not_nonempty_iff_eq_empty, Finset.compl_eq_empty_iff] at h
    simpa using h

/-- The reference allocator: its state is the set of the ids in use. -/
def reference (n : ℕ) : Allocator n where
  State := Finset (Fin n)
  init := ∅
  alloc used := (leastUnused used).map fun i => (i, insert i used)
  free used i := used.erase i

theorem reference_freed_before (cs : List (Call n)) (used : Finset (Fin n)) {i : Fin n} (hi : i ∈ used)
    {l l' : List (Event n)} (h : (reference n).events used cs = l ++ .handed i :: l') :
    .freed i ∈ l := by
  induction cs generalizing used l with
  | nil => simp [Allocator.events] at h
  | cons c cs ih =>
    change ((reference n).call used c).1 :: (reference n).events ((reference n).call used c).2 cs = _ at h
    cases l with
    | nil =>
      -- the first call cannot hand out an id in use
      obtain ⟨hcall, -⟩ := List.cons.inj h
      cases c with
      | free j => cases hcall
      | alloc =>
        rcases hleast : leastUnused used with _ | j
        · simp [Allocator.call, reference, hleast] at hcall
        · obtain rfl : j = i := by simpa [Allocator.call, reference, hleast] using hcall
          exact absurd hi (leastUnused_eq_some.mp hleast).1
    | cons e l =>
      obtain ⟨rfl, hrest⟩ := List.cons.inj h
      cases c with
      | free j =>
        by_cases hj : j = i
        · subst hj
          exact List.mem_cons_self
        · have hmem : i ∈ used.erase j := Finset.mem_erase.mpr ⟨Ne.symm hj, hi⟩
          exact List.mem_cons_of_mem _ (ih _ hmem hrest)
      | alloc =>
        refine List.mem_cons_of_mem _ (ih _ ?_ hrest)
        rcases hleast : leastUnused used with _ | j
        · simpa [Allocator.call, reference, hleast] using hi
        · simp only [Allocator.call, reference, hleast, Option.map_some]
          exact Finset.mem_insert_of_mem hi

/-- From any state, an id that is handed out twice is freed in between. -/
theorem reference_freed_between (cs : List (Call n)) (used : Finset (Fin n)) {i : Fin n}
    {l₁ l₂ l₃ : List (Event n)}
    (h : (reference n).events used cs = l₁ ++ .handed i :: (l₂ ++ .handed i :: l₃)) : .freed i ∈ l₂ := by
  induction cs generalizing used l₁ with
  | nil => simp [Allocator.events] at h
  | cons c cs ih =>
    change ((reference n).call used c).1 :: (reference n).events ((reference n).call used c).2 cs = _ at h
    cases l₁ with
    | cons e l₁ => exact ih _ (List.cons.inj h).2
    | nil =>
      obtain ⟨hcall, hrest⟩ := List.cons.inj h
      refine reference_freed_before cs _ ?_ hrest
      cases c with
      | free j => cases hcall
      | alloc =>
        rcases hleast : leastUnused used with _ | j
        · simp [Allocator.call, reference, hleast] at hcall
        · obtain rfl : j = i := by simpa [Allocator.call, reference, hleast] using hcall
          simp only [Allocator.call, reference, hleast, Option.map_some]
          exact Finset.mem_insert_self _ _

/-- **No id is handed out twice** without a free in between. -/
theorem Allocator.Refines.freed_between {A : Allocator n} (h : A.Refines (reference n))
    (cs : List (Call n)) {i : Fin n} {l₁ l₂ l₃ : List (Event n)}
    (hcs : A.events A.init cs = l₁ ++ .handed i :: (l₂ ++ .handed i :: l₃)) : .freed i ∈ l₂ :=
  reference_freed_between cs _ ((h cs).symm.trans hcs)

/-! ### Bitmaps -/

/-- The ids whose bit is `polarity` are those in use. -/
def Represents (polarity : Bool) (b : Words n) (used : Finset (Fin (n * 64))) : Prop :=
  ∀ i, bit b i = polarity ↔ i ∈ used

/-- The bitmap whose set bits are the ids that are not in use. -/
def unusedBits (polarity : Bool) (b : Words n) : Words n := if polarity then compl b else b

/-- Mark an id as used. -/
def markUsed (polarity : Bool) (b : Words n) (i : Fin (n * 64)) : Words n :=
  if polarity then setBit b i else clearBit b i

/-- Mark an id as unused. -/
def markUnused (polarity : Bool) (b : Words n) (i : Fin (n * 64)) : Words n :=
  if polarity then clearBit b i else setBit b i

@[simp] theorem unusedBits_true (b : Words n) : unusedBits true b = compl b := rfl

@[simp] theorem unusedBits_false (b : Words n) : unusedBits false b = b := rfl

namespace Represents

variable {polarity : Bool} {b : Words n} {used : Finset (Fin (n * 64))}

theorem bit_unusedBits (h : Represents polarity b used) (i : Fin (n * 64)) :
    bit (unusedBits polarity b) i = true ↔ i ∉ used := by
  rw [← h i]
  cases polarity <;> simp [unusedBits]

/-- The scan finds the smallest id that is not in use. -/
theorem scan (h : Represents polarity b used) :
    lowestBit (unusedBits polarity b) = leastUnused used := by
  have hbit := h.bit_unusedBits
  rcases hleast : leastUnused used with _ | i
  · rw [lowestBit_eq_none_iff]
    intro i
    rw [← Bool.not_eq_true, hbit i, not_not, leastUnused_eq_none.mp hleast]
    exact Finset.mem_univ i
  · obtain ⟨hi, hbelow⟩ := leastUnused_eq_some.mp hleast
    rw [lowestBit_eq_some_iff]
    refine ⟨(hbit i).mpr hi, fun j hj => ?_⟩
    rw [← Bool.not_eq_true, hbit j, not_not]
    exact hbelow j hj

theorem take (h : Represents polarity b used) (i : Fin (n * 64)) :
    Represents polarity (markUsed polarity b i) (insert i used) := by
  intro j
  rw [Finset.mem_insert, ← h j]
  cases polarity <;> simp [markUsed]
  by_cases hj : j = i <;> simp [hj]

theorem give (h : Represents polarity b used) (i : Fin (n * 64)) :
    Represents polarity (markUnused polarity b i) (used.erase i) := by
  intro j
  rw [Finset.mem_erase, ← h j]
  cases polarity <;> simp [markUnused]

end Represents

theorem represents_zero : Represents true (fun _ : Fin n => 0) ∅ := by
  intro i
  rw [bit_zero]
  simp

theorem represents_ones : Represents false (fun _ : Fin n => ~~~0) ∅ := by
  intro i
  simp only [bit_ones, Bool.true_eq_false, Finset.notMem_empty]

/-- The allocator works on a bitmap of the given polarity: it hands out what the scan finds and marks
it, and marks what is freed. -/
structure Allocator.OnBitmap (A : Allocator (n * 64)) (polarity : Bool) (bitmap : A.State → Words n) :
    Prop where
  init : Represents polarity (bitmap A.init) ∅
  alloc : ∀ s, ∃ take : Fin (n * 64) → A.State,
    A.alloc s = (lowestBit (unusedBits polarity (bitmap s))).map (fun i => (i, take i)) ∧
      ∀ i, bitmap (take i) = markUsed polarity (bitmap s) i
  free : ∀ s i, bitmap (A.free s i) = markUnused polarity (bitmap s) i

/-- **Allocators on a bitmap** refine the reference allocator. -/
theorem Allocator.OnBitmap.refines {A : Allocator (n * 64)} {polarity : Bool}
    {bitmap : A.State → Words n} (h : A.OnBitmap polarity bitmap) : A.Refines (reference (n * 64)) := by
  refine refines_of_simulation (fun s used => Represents polarity (bitmap s) used) h.init ?_ ?_
  · intro s used hrep
    obtain ⟨take, halloc, htake⟩ := h.alloc s
    rw [halloc, hrep.scan]
    simp only [reference]
    rcases leastUnused used with _ | i
    · exact .refused
    · refine .handed i ?_
      rw [htake]
      exact hrep.take i
  · intro s used i hrep
    rw [h.free]
    exact hrep.give i

end Bitmap
