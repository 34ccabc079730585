import RolloutRuntime.RingBuffer.Contents
import Mathlib.Data.List.Rotate

/-!
# Ring buffers that overwrite

A log of `2 ^ k` slots with one free-running index has no consumer to wait for: the element published at
position `n` goes to the slot `n mod 2 ^ k` and replaces the one published a ring size before. The slots
then hold the newest elements, but a reader that goes through them from slot 0 sees these in the order in
which they were published only up to a rotation by the number of elements published.

## Main definitions

* `Latest`: the slots of a log after given elements were published.
* `slots`: the first slots of a log, from slot 0 on.

## Main results

* `Latest.push`: publishing one more element.
* `Latest.slots_eq`: up to a ring size of elements the slots hold them in order.
* `Latest.slots_eq_rotate`, `Latest.slots_eq_iff`: from a ring size on they hold the newest ones, rotated.
-/

namespace RingBuffer

variable {k : ℕ} {α : Type}

/-- The first `n` slots, from slot 0 on. -/
def slots (mem : Fin (2 ^ k) → α) (n : ℕ) (h : n ≤ 2 ^ k) : List α :=
  List.ofFn fun i : Fin n => mem (Fin.castLE h i)

@[simp] theorem length_slots (mem : Fin (2 ^ k) → α) (n : ℕ) (h : n ≤ 2 ^ k) :
    (slots mem n h).length = n := by
  simp [slots]

/-- The slots of a log after the elements `es` were published: each of the last `2 ^ k` is still there. -/
def Latest (k : ℕ) (mem : Fin (2 ^ k) → α) (es : List α) : Prop :=
  ∀ i (h : i < es.length), es.length ≤ i + 2 ^ k → mem (pos k i) = es[i]

namespace Latest

variable {mem : Fin (2 ^ k) → α} {es : List α}

theorem nil (mem : Fin (2 ^ k) → α) : Latest k mem [] := fun _ h => absurd h (Nat.not_lt_zero _)

theorem push (h : Latest k mem es) (a : α) :
    Latest k (Function.update mem (pos k es.length) a) (es ++ [a]) := by
  intro i hi hlast
  rw [List.length_append, List.length_singleton] at hi hlast
  rcases Nat.lt_succ_iff_lt_or_eq.mp hi with hlt | rfl
  · -- an older element sits in another slot, less than a ring size away
    have hne : pos k i ≠ pos k es.length := pos_ne_pos hlt (by omega)
    rw [Function.update_of_ne hne, List.getElem_append_left hlt]
    exact h i hlt (by omega)
  · simp

/-- **Before the first overwriting.** -/
theorem slots_eq (h : Latest k mem es) (hle : es.length ≤ 2 ^ k) : slots mem es.length hle = es := by
  apply List.ext_getElem
  · simp
  · intro i _ hi
    have hpos : Fin.castLE hle ⟨i, hi⟩ = pos k i := by
      ext
      exact (Nat.mod_eq_of_lt (hi.trans_le hle)).symm
    simp only [slots, List.getElem_ofFn, hpos]
    exact h i hi (by omega)

/-- The slot that a position of the last `2 ^ k` has: position `n - 2 ^ k + j`, for `j` counted from the
rotation. -/
theorem pos_of_rotated {n p : ℕ} (hp : p < 2 ^ k) (hn : 2 ^ k ≤ n) :
    (n - 2 ^ k + (p + (2 ^ k - n % 2 ^ k)) % 2 ^ k) % 2 ^ k = p := by
  have hm : n % 2 ^ k < 2 ^ k := Nat.mod_lt _ (Nat.two_pow_pos k)
  have hsub : (n - 2 ^ k) % 2 ^ k = n % 2 ^ k := (Nat.mod_eq_sub_mod hn).symm
  rw [Nat.add_mod, Nat.mod_mod, hsub, Nat.add_mod_mod,
    show n % 2 ^ k + (p + (2 ^ k - n % 2 ^ k)) = p + 2 ^ k by omega, Nat.add_mod_right,
    Nat.mod_eq_of_lt hp]

/-- **From a ring size on.** The slots hold the last `2 ^ k` elements, rotated. -/
theorem slots_eq_rotate (h : Latest k mem es) (hle : 2 ^ k ≤ es.length) :
    slots mem (2 ^ k) le_rfl =
      (es.drop (es.length - 2 ^ k)).rotate (2 ^ k - es.length % 2 ^ k) := by
  have hlen : (es.drop (es.length - 2 ^ k)).length = 2 ^ k := by
    rw [List.length_drop, Nat.sub_sub_self hle]
  apply List.ext_getElem
  · rw [length_slots, List.length_rotate, hlen]
  · intro p hp _
    rw [length_slots] at hp
    have hj : (p + (2 ^ k - es.length % 2 ^ k)) % 2 ^ k < 2 ^ k := Nat.mod_lt _ (Nat.two_pow_pos k)
    have hpos : pos k (es.length - 2 ^ k + (p + (2 ^ k - es.length % 2 ^ k)) % 2 ^ k) = ⟨p, hp⟩ :=
      Fin.ext (pos_of_rotated hp hle)
    rw [List.getElem_rotate, List.getElem_drop]
    simp only [slots, List.getElem_ofFn, hlen]
    rw [← h _ (by omega) (by omega), hpos]
    rfl

/-- A reader that starts at slot 0 sees the newest elements in order exactly if these are unchanged by a
rotation by the number of elements published. -/
theorem slots_eq_iff (h : Latest k mem es) (hle : 2 ^ k ≤ es.length) :
    slots mem (2 ^ k) le_rfl = es.drop (es.length - 2 ^ k) ↔
      (es.drop (es.length - 2 ^ k)).rotate es.length = es.drop (es.length - 2 ^ k) := by
  rw [h.slots_eq_rotate hle]
  set newest := es.drop (es.length - 2 ^ k) with hnewest
  have hlen : newest.length = 2 ^ k := by
    rw [hnewest, List.length_drop, Nat.sub_sub_self hle]
  -- the two rotations together go round a number of times
  have hround : newest.rotate (es.length + (2 ^ k - es.length % 2 ^ k)) = newest := by
    have hm : es.length % 2 ^ k < 2 ^ k := Nat.mod_lt _ (Nat.two_pow_pos k)
    have hdiv := Nat.div_add_mod es.length (2 ^ k)
    have hsum : es.length + (2 ^ k - es.length % 2 ^ k) = newest.length * (es.length / 2 ^ k + 1) := by
      rw [hlen, Nat.mul_add, Nat.mul_one]
      omega
    rw [hsum, List.rotate_length_mul]
  constructor
  · intro hback
    rw [Nat.add_comm, ← List.rotate_rotate, hback] at hround
    exact hround
  · intro hforth
    rw [← List.rotate_rotate, hforth] at hround
    exact hround

end Latest

end RingBuffer
