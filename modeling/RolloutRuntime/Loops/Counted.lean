import Mathlib.Algebra.BigOperators.Group.Finset.Sigma
import Mathlib.Data.Nat.ModEq
import Mathlib.Logic.Function.Basic
import Mathlib.Tactic.Common

/-!
# Counted loops

A loop with a counter that goes up from 0 is the iteration of its body; one that starts elsewhere and goes
up in larger steps is such a loop too. An array is a function of its indices here, and writing to it is
`Function.update`.

## Main definitions

* `Loops.forRange n body`: `for (i = 0; i < n; i++)`.
* `Loops.forRangeOpt n body`: the same with a body that may fail.
* `Loops.forStride start stop step body`: `for (i = start; i < stop; i += step)`.

## Main results

* `Loops.forRange_induct`: the invariant rule.
* `Loops.forRange_add`, `Loops.forRange_update`: loops that sum, and loops that write to each index.
* `Loops.forRange_write_of_eq`, `Loops.forRange_write_of_ne`: loops that may write to some index.
* `Loops.forStride_add`, `Loops.forStride_update`: the same in steps.
* `Loops.mem_lane_iff`: the share of a lane.
* `Loops.sum_range_stride`: the sums of lanes that share out indices among them.
* `Loops.forRange_forStride_update`: lanes that share out the indices of an array among them.
-/

namespace Loops

variable {σ α : Type}

/-- `for (i = 0; i < n; i++)`. -/
def forRange : ℕ → (ℕ → σ → σ) → σ → σ
  | 0, _, s => s
  | n + 1, body, s => body n (forRange n body s)

/-- The number of iterations of `for (i = start; i < stop; i += step)`. -/
def strides (start stop step : ℕ) : ℕ := (stop - start + step - 1) / step

/-- `for (i = start; i < stop; i += step)`. -/
def forStride (start stop step : ℕ) (body : ℕ → σ → σ) (s : σ) : σ :=
  forRange (strides start stop step) (fun k => body (start + k * step)) s

/-- `for (i = 0; i < n; i++)` with a body that may fail. -/
def forRangeOpt : ℕ → (ℕ → σ → Option σ) → σ → Option σ
  | 0, _, s => some s
  | n + 1, body, s => (forRangeOpt n body s).bind (body n)

section Range

variable {n : ℕ} {body : ℕ → σ → σ} {s : σ}

@[simp] theorem forRange_zero (body : ℕ → σ → σ) (s : σ) : forRange 0 body s = s := rfl

theorem forRange_succ (n : ℕ) (body : ℕ → σ → σ) (s : σ) :
    forRange (n + 1) body s = body n (forRange n body s) := rfl

/-- **The invariant rule.** -/
theorem forRange_induct (I : ℕ → σ → Prop) (hzero : I 0 s)
    (hstep : ∀ i < n, ∀ s, I i s → I (i + 1) (body i s)) : I n (forRange n body s) := by
  induction n with
  | zero => exact hzero
  | succ n ih =>
    exact hstep n (Nat.lt_succ_self n) _ (ih fun i hi => hstep i (Nat.lt_succ_of_lt hi))

theorem forRangeOpt_eq_some {bodyOpt : ℕ → σ → Option σ} (h : ∀ i < n, ∀ s, bodyOpt i s = some (body i s)) :
    forRangeOpt n bodyOpt s = some (forRange n body s) := by
  induction n with
  | zero => rfl
  | succ n ih =>
    rw [forRangeOpt, ih fun i hi => h i (Nat.lt_succ_of_lt hi), Option.bind_some,
      h n (Nat.lt_succ_self n), forRange_succ]

theorem forRange_add [AddCommMonoid α] (n : ℕ) (f : ℕ → α) (a : α) :
    forRange n (fun i acc => acc + f i) a = a + ∑ i ∈ Finset.range n, f i := by
  induction n with
  | zero => simp
  | succ n ih => rw [forRange_succ, ih, Finset.sum_range_succ, add_assoc]

/-- A loop that writes to each index once, from what it finds there. -/
theorem forRange_update (n : ℕ) (f : ℕ → α → α) (a : ℕ → α) (j : ℕ) :
    forRange n (fun i a => Function.update a i (f i (a i))) a j = if j < n then f j (a j) else a j := by
  induction n with
  | zero => simp
  | succ n ih =>
    rw [forRange_succ]
    by_cases hj : j = n
    · subst hj
      rw [Function.update_self, ih, if_neg (lt_irrefl j), if_pos (Nat.lt_succ_self j)]
    · have hiff : j < n + 1 ↔ j < n := by omega
      rw [Function.update_of_ne hj, ih]
      simp only [hiff]

section Write

variable {p : ℕ → Prop} [DecidablePred p] {g : ℕ → ℕ} {f : ℕ → α → α} {a : ℕ → α}

/-- A loop that may write to an index in each iteration leaves the other indices as they are. -/
theorem forRange_write_of_ne {j : ℕ} (h : ∀ i < n, p i → g i ≠ j) :
    forRange n (fun i a => if p i then Function.update a (g i) (f i (a (g i))) else a) a j = a j := by
  induction n with
  | zero => rfl
  | succ n ih =>
    have hrest := ih fun i hi => h i (Nat.lt_succ_of_lt hi)
    rw [forRange_succ]
    split_ifs with hp
    · rw [Function.update_of_ne (h n (Nat.lt_succ_self n) hp).symm, hrest]
    · exact hrest

/-- An index that one iteration only writes to is written to from what was there before. -/
theorem forRange_write_of_eq (hinj : ∀ i < n, ∀ i' < n, p i → p i' → g i = g i' → i = i') {i : ℕ}
    (hi : i < n) (hp : p i) :
    forRange n (fun i a => if p i then Function.update a (g i) (f i (a (g i))) else a) a (g i) =
      f i (a (g i)) := by
  induction n with
  | zero => exact absurd hi (Nat.not_lt_zero i)
  | succ n ih =>
    have hlast := Nat.lt_succ_self n
    rw [forRange_succ]
    rcases Nat.lt_succ_iff_lt_or_eq.mp hi with hlt | rfl
    · have hrest := ih (fun k hk k' hk' => hinj k (Nat.lt_succ_of_lt hk) k' (Nat.lt_succ_of_lt hk')) hlt
      split_ifs with hpn
      · rw [Function.update_of_ne fun h => hlt.ne (hinj i hi n hlast hp hpn h), hrest]
      · exact hrest
    · have hfresh : ∀ k < i, p k → g k ≠ g i := fun k hk hpk h =>
        hk.ne (hinj k (Nat.lt_succ_of_lt hk) i hi hpk hp h)
      rw [if_pos hp, Function.update_self, forRange_write_of_ne hfresh]

end Write

end Range

section Stride

variable {start stop step : ℕ}

/-- The iterations of a loop in steps are those that begin below its end. -/
theorem lt_strides_iff (hstep : 0 < step) {k : ℕ} :
    k < strides start stop step ↔ start + k * step < stop := by
  rw [strides, Nat.lt_iff_add_one_le, Nat.le_div_iff_mul_le hstep, Nat.add_mul, Nat.one_mul]
  omega

theorem le_strides_mul (hstep : 0 < step) : stop ≤ start + strides start stop step * step :=
  Nat.le_of_not_lt fun h => absurd ((lt_strides_iff hstep).mpr h) (lt_irrefl _)

theorem strides_eq_zero (h : stop ≤ start) : strides start stop step = 0 := by
  rw [strides, Nat.sub_eq_zero_of_le h, Nat.zero_add]
  exact Nat.div_eq_zero_iff.mpr (by omega)

theorem strides_eq_succ (hstep : 0 < step) (h : start < stop) :
    strides start stop step = strides (start + step) stop step + 1 := by
  have hsub : stop - start + step - 1 = stop - start - 1 + step := by omega
  rw [strides, strides, hsub, Nat.add_div_right _ hstep]
  rcases Nat.le_total (start + step) stop with hle | hge
  · have hrest : stop - (start + step) + step - 1 = stop - start - 1 := by omega
    rw [hrest]
  · rw [Nat.div_eq_of_lt (by omega), Nat.div_eq_of_lt (by omega)]

theorem strides_le (hstep : 0 < step) : strides start stop step ≤ stop := by
  refine Nat.le_of_not_lt fun h => ?_
  have hlt := (lt_strides_iff hstep).mp h
  have hle := Nat.le_mul_of_pos_right stop hstep
  omega

theorem forStride_add [AddCommMonoid α] (start stop step : ℕ) (f : ℕ → α) (a : α) :
    forStride start stop step (fun i acc => acc + f i) a =
      a + ∑ k ∈ Finset.range (strides start stop step), f (start + k * step) :=
  forRange_add _ _ _

/-- The sums of `m` lanes that share out `m * n` indices among them. -/
theorem sum_range_stride [AddCommMonoid α] (m n : ℕ) (f : ℕ → α) :
    ∑ l ∈ Finset.range m, ∑ j ∈ Finset.range n, f (l + j * m) = ∑ i ∈ Finset.range (n * m), f i := by
  rw [Finset.sum_comm]
  induction n with
  | zero => simp
  | succ n ih =>
    rw [Finset.sum_range_succ, ih, Nat.succ_mul, Finset.sum_range_add]
    simp only [Nat.add_comm]

theorem exists_lt_strides_iff (hstep : 0 < step) {j : ℕ} :
    (∃ k < strides start stop step, start + k * step = j) ↔
      start ≤ j ∧ j < stop ∧ (j - start) % step = 0 := by
  constructor
  · rintro ⟨k, hk, rfl⟩
    refine ⟨Nat.le_add_right _ _, (lt_strides_iff hstep).mp hk, ?_⟩
    rw [Nat.add_sub_cancel_left, Nat.mul_mod_left]
  · rintro ⟨hle, hlt, hmod⟩
    have hj : start + (j - start) / step * step = j := by
      rw [Nat.div_mul_cancel (Nat.dvd_of_mod_eq_zero hmod)]
      omega
    refine ⟨(j - start) / step, ?_, hj⟩
    rw [lt_strides_iff hstep, hj]
    exact hlt

/-- **The share of a lane**: every `lanes`-th unit from its own on. -/
theorem mem_lane_iff {lanes unit lane i : ℕ} (hunit : 0 < unit) (hlane : lane < lanes) :
    lane * unit ≤ i ∧ (i - lane * unit) % (lanes * unit) = 0 ↔ i % unit = 0 ∧ i / unit % lanes = lane := by
  constructor
  · rintro ⟨hle, hmod⟩
    obtain ⟨k, hk⟩ := Nat.dvd_of_mod_eq_zero hmod
    have hi : i = (lane + lanes * k) * unit := by
      rw [Nat.add_mul, Nat.mul_right_comm, ← hk]
      omega
    rw [hi, Nat.mul_mod_left, Nat.mul_div_cancel _ hunit, Nat.add_mul_mod_self_left, Nat.mod_eq_of_lt hlane]
    exact ⟨rfl, rfl⟩
  · rintro ⟨hmod, rfl⟩
    obtain ⟨j, rfl⟩ := Nat.dvd_of_mod_eq_zero hmod
    have hj : j - j % lanes = j / lanes * lanes := by
      have hdiv := Nat.div_add_mod' j lanes
      omega
    have hsub : unit * j - j % lanes * unit = j / lanes * (lanes * unit) := by
      rw [Nat.mul_comm unit, ← Nat.sub_mul, hj, Nat.mul_assoc]
    rw [Nat.mul_div_cancel_left _ hunit, hsub, Nat.mul_mod_left, Nat.mul_comm unit]
    exact ⟨Nat.mul_le_mul_right unit (Nat.mod_le j lanes), rfl⟩

/-- A loop in steps that writes to each of its indices, from what it finds there. -/
theorem forStride_update (hstep : 0 < step) (f : ℕ → α → α) (a : ℕ → α) (j : ℕ) :
    forStride start stop step (fun i a => Function.update a i (f i (a i))) a j =
      if start ≤ j ∧ j < stop ∧ (j - start) % step = 0 then f j (a j) else a j := by
  have hwrite : forStride start stop step (fun i a => Function.update a i (f i (a i))) a =
      forRange (strides start stop step)
        (fun k a => if True then Function.update a (start + k * step) (f (start + k * step)
          (a (start + k * step))) else a) a := by
    simp only [if_true]
    rfl
  have hinj : ∀ k < strides start stop step, ∀ k' < strides start stop step, True → True →
      start + k * step = start + k' * step → k = k' :=
    fun k _ k' _ _ _ h => Nat.eq_of_mul_eq_mul_right hstep (Nat.add_left_cancel h)
  rw [hwrite]
  by_cases hj : start ≤ j ∧ j < stop ∧ (j - start) % step = 0
  · rw [if_pos hj]
    obtain ⟨k, hk, rfl⟩ := (exists_lt_strides_iff hstep).mpr hj
    exact forRange_write_of_eq (f := fun k => f (start + k * step)) hinj hk trivial
  · rw [if_neg hj]
    refine forRange_write_of_ne (f := fun k => f (start + k * step)) fun k hk _ h => ?_
    exact hj ((exists_lt_strides_iff hstep).mp ⟨k, hk, h⟩)

/-- The loops of `step` lanes that share out the indices below `stop` among them write to each of these
once. -/
theorem forRange_forStride_update (hstep : 0 < step) (f : ℕ → α → α) (a : ℕ → α) (j : ℕ) :
    forRange step
        (fun lane a => forStride lane stop step (fun i a => Function.update a i (f i (a i))) a) a j =
      if j < stop then f j (a j) else a j := by
  have hloop : ∀ n ≤ step, ∀ j, forRange n
      (fun lane a => forStride lane stop step (fun i a => Function.update a i (f i (a i))) a) a j =
        if j < stop ∧ j % step < n then f j (a j) else a j := by
    intro n
    induction n with
    | zero => simp
    | succ n ih =>
      intro hn j
      -- lane `n` has the indices that leave the remainder `n`
      have hlane : n ≤ j ∧ j < stop ∧ (j - n) % step = 0 ↔ j < stop ∧ j % step = n := by
        have hmem := mem_lane_iff Nat.one_pos (show n < step by omega) (i := j)
        rw [Nat.mul_one, Nat.mul_one, Nat.mod_one, Nat.div_one] at hmem
        rw [and_left_comm, hmem, eq_self_iff_true, true_and]
      rw [forRange_succ, forStride_update hstep, ih (by omega)]
      by_cases hj : j < stop
      · rcases lt_trichotomy (j % step) n with hlt | heq | hgt
        · rw [if_neg (fun h => hlt.ne (hlane.mp h).2), if_pos ⟨hj, hlt⟩, if_pos ⟨hj, by omega⟩]
        · rw [if_pos (hlane.mpr ⟨hj, heq⟩), if_neg (fun h => h.2.ne heq), if_pos ⟨hj, by omega⟩]
        · rw [if_neg (fun h => hgt.ne' (hlane.mp h).2), if_neg (by omega), if_neg (by omega)]
      · rw [if_neg (fun h => hj h.2.1), if_neg (fun h => hj h.1), if_neg (fun h => hj h.1)]
  have hiff : j < stop ∧ j % step < step ↔ j < stop := and_iff_left (Nat.mod_lt j hstep)
  rw [hloop step le_rfl]
  simp only [hiff]

end Stride

end Loops
