import RolloutRuntime.RingBuffer.Spsc

/-!
# Ring programs without interference

What the programs of the two ends of a ring do when no other thread steps in between. These equations
let a run of a system be computed call by call.

## Main results

* `consume_run`, `reserve_run_of_room`, `reserve_run_of_noRoom`, `push_run_of_room`, `push_run`,
  `submit_run_of_room`.
* `run_of_ok`, `producer_run_of_ok`: what the discipline says of such a run.
-/

namespace RingBuffer

open Concurrency

variable {w k : ℕ} {α : Type}

theorem consume_run (e : BitVec w → BitVec w → Bool) (r : Ring w k α) :
    (consume e).run Op.effect r = if e r.cons r.prod then (none, r) else
      (some (r.slots (mask k r.cons)),
        { r with cons := r.cons + 1, taken := r.taken ++ [r.slots (mask k r.cons)] }) := by
  simp only [consume, Prog.load_bind, Prog.run_act, Op.effect]
  by_cases h : e r.cons r.prod = true
  · rw [if_pos h, if_pos h]
    rfl
  · rw [if_neg h, if_neg h]
    rfl

theorem loadIndices_run (b : Bool) (r : Ring w k α) :
    (loadIndices b).run Op.effect r = ((r.prod, r.cons), r) := by
  cases b <;> rfl

theorem reserve_run_of_room {P : Producer w} {n : BitVec w} {r : Ring w k α}
    (h : P.noRoom r.prod r.cons n = false) :
    (reserve P n).run Op.effect r = (some r.prod, r) := by
  rw [reserve, Prog.run_bind, loadIndices_run]
  simp [h]

theorem reserve_run_of_noRoom {P : Producer w} (hP : P.counts = false) {n : BitVec w} {r : Ring w k α}
    (h : P.noRoom r.prod r.cons n = true) : (reserve P n).run Op.effect r = (none, r) := by
  rw [reserve, Prog.run_bind, loadIndices_run]
  simp [h, hP]

theorem push_run_of_room {P : Producer w} {a : α} {r : Ring w k α}
    (h : P.noRoom r.prod r.cons 1 = false) :
    (push P a).run Op.effect r =
      (true, { r with
        slots := Function.update r.slots (mask k r.prod) a
        prod := r.prod + 1
        published := r.published ++ [a] }) := by
  rw [push, Prog.run_bind, reserve_run_of_room h]
  rfl

theorem push_run {P : Producer w} (hP : P.counts = false) (a : α) (r : Ring w k α) :
    (push P a).run Op.effect r = if P.noRoom r.prod r.cons 1 then (false, r) else
      (true, { r with
        slots := Function.update r.slots (mask k r.prod) a
        prod := r.prod + 1
        published := r.published ++ [a] }) := by
  by_cases h : P.noRoom r.prod r.cons 1 = true
  · rw [if_pos h, push, Prog.run_bind, reserve_run_of_noRoom hP h]
    rfl
  · rw [if_neg h]
    exact push_run_of_room (Bool.not_eq_true _ ▸ h)

theorem submit_run_of_room {P : Producer w} {ds : List α} {r : Ring w k α}
    (h : P.noRoom r.prod r.cons (BitVec.ofNat w ds.length) = false) :
    ((submit P ds).run Op.effect r).1 = true := by
  rw [submit, Prog.run_bind, acquire, Prog.run_bind, reserve_run_of_room h]
  simp only [Prog.pure_eq, Prog.run_ret, Option.map_some, Prog.run_bind]

section Ok

variable {G : List α → Prop} {β : Type} {i : Side} {Q : β → Ring w k α → Prop}
  {p : Prog (Op w α) (Ring w k α) β} {r : Ring w k α}

/-- A program that obeys the discipline ends with its postcondition. -/
theorem run_of_ok (hr : r.Inv) (h : (spsc w k G).Ok i Q p r) :
    ∃ b r', p.run Op.effect r = (b, r') ∧ r'.Inv ∧ Q b r' :=
  ⟨_, _, rfl, (spsc w k G).ok_run (fun _ _ => trivial) hr h⟩

theorem taken_run_of_ok (hr : r.Inv) (h : (spsc w k G).Ok .producer Q p r) :
    (p.run Op.effect r).2.taken = r.taken := by
  induction p generalizing r with
  | ret b => rfl
  | act o f ih =>
    obtain ⟨hm, hf⟩ := h r ((spsc w k G).rely_refl _ r) hr trivial
    have htaken : (o.effect r).taken = r.taken := by
      cases o <;> first | rfl | exact hm.elim
    rw [Prog.run_act]
    exact (ih r ((spsc w k G).inv_effect hr trivial hm) hf).trans htaken

/-- A program of the producer end ends with its postcondition and takes nothing out of the ring. -/
theorem producer_run_of_ok (hr : r.Inv) (h : (spsc w k G).Ok .producer Q p r) :
    ∃ b r', p.run Op.effect r = (b, r') ∧ r'.Inv ∧ r'.taken = r.taken ∧ Q b r' :=
  ⟨_, _, rfl, ((spsc w k G).ok_run (fun _ _ => trivial) hr h).1, taken_run_of_ok hr h,
    ((spsc w k G).ok_run (fun _ _ => trivial) hr h).2⟩

end Ok

end RingBuffer
