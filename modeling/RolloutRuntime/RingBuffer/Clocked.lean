import RolloutRuntime.RingBuffer.Contents

/-!
# Clocked ring buffers

A clocked ring buffer keeps `2 ^ w` slots and two pointers of `w + 1` bits. The low bits of a pointer
address a slot and the top bit tells how often the pointer has gone round: the ring is empty if the
pointers are equal, and full if they differ in the top bit alone. In one clock cycle an element may be
pushed and another popped, each under a valid/ready handshake.

The pointers are indices in the sense of `RolloutRuntime.RingBuffer.Contents`, with one bit more than
the slots need.

## Main definitions

* `ClockedRing`, `ClockedRing.step`: the state of the ring and one clock cycle.
* `ClockedRing.run`, `ClockedRing.pushedIn`, `ClockedRing.poppedIn`: a sequence of cycles.
* `ClockedRing.Holds`: the state of the ring after given lists were pushed and popped.
* `ClockedRing.ExactFifo`: what is asked of a queue.

## Main results

* `ClockedRing.Holds.empty_iff`, `ClockedRing.Holds.full_iff`: the two flags.
* `ClockedRing.Holds.step`: one clock cycle, also with a push and a pop together.
* `ClockedRing.Holds.run`: a sequence of cycles.
* `ClockedRing.Holds.exactFifo`: the ring is such a queue.
-/

namespace RingBuffer

variable {w : ℕ} {α : Type}

/-- The state of a clocked ring of `2 ^ w` slots. -/
structure ClockedRing (w : ℕ) (α : Type) where
  head : BitVec (w + 1)
  tail : BitVec (w + 1)
  mem : Fin (2 ^ w) → α

namespace ClockedRing

/-- The slot a pointer addresses, by its low bits. -/
def slot (p : BitVec (w + 1)) : Fin (2 ^ w) := (p.extractLsb' 0 w).toFin

variable (r : ClockedRing w α)

/-- The state after reset; the slots keep what they held. -/
def reset (mem : Fin (2 ^ w) → α) : ClockedRing w α := ⟨0, 0, mem⟩

def empty : Bool := r.head == r.tail

def full : Bool :=
  r.head.extractLsb' 0 w == r.tail.extractLsb' 0 w && r.head.getLsbD w != r.tail.getLsbD w

def pushReady : Bool := !r.full

def popValid : Bool := !r.empty

/-- The element offered to the consumer. -/
def popData : α := r.mem (slot r.head)

/-- The element pushed in this cycle, if any. -/
def pushed (a : α) (pushValid : Bool) : List α := if pushValid && r.pushReady then [a] else []

/-- The element popped in this cycle, if any. -/
def popped (popReady : Bool) : List α := if r.popValid && popReady then [r.popData] else []

/-- One clock cycle. -/
def step (a : α) (pushValid popReady : Bool) : ClockedRing w α where
  head := if r.popValid && popReady then r.head + 1 else r.head
  tail := if pushValid && r.pushReady then r.tail + 1 else r.tail
  mem := if pushValid && r.pushReady then Function.update r.mem (slot r.tail) a else r.mem

/-- The inputs of one clock cycle. -/
structure Cycle (α : Type) where
  data : α
  pushValid : Bool
  popReady : Bool

/-- The state after a sequence of cycles. -/
def run (cycles : List (Cycle α)) : ClockedRing w α :=
  cycles.foldl (fun r c => r.step c.data c.pushValid c.popReady) r

/-- The elements pushed in a sequence of cycles. -/
def pushedIn (r : ClockedRing w α) : List (Cycle α) → List α
  | [] => []
  | c :: cycles =>
    r.pushed c.data c.pushValid ++ (r.step c.data c.pushValid c.popReady).pushedIn cycles

/-- The elements popped in a sequence of cycles. -/
def poppedIn (r : ClockedRing w α) : List (Cycle α) → List α
  | [] => []
  | c :: cycles => r.popped c.popReady ++ (r.step c.data c.pushValid c.popReady).poppedIn cycles

/-- The state of the ring after `pushed` was pushed and `popped` was popped. -/
def Holds (pushed popped : List α) : Prop := Contents w r.tail r.head r.mem pushed popped

end ClockedRing

/-! ### Pointers -/

theorem slot_eq_pos (p : BitVec (w + 1)) : ClockedRing.slot p = pos w p.toNat := by
  apply Fin.ext
  simp [ClockedRing.slot, pos]

theorem slot_ofNat (n : ℕ) : ClockedRing.slot (BitVec.ofNat (w + 1) n) = pos w n := by
  rw [slot_eq_pos, BitVec.toNat_ofNat]
  exact Fin.ext (Nat.mod_mod_of_dvd n (Nat.pow_dvd_pow 2 (Nat.le_succ w)))

/-- A number below `2 * P` is its remainder by `P`, plus `P` if it is not below `P`. -/
theorem eq_mod_add_of_lt_two_mul {a P : ℕ} (h : a < 2 * P) :
    a = a % P + if P ≤ a then P else 0 := by
  by_cases hP : P ≤ a
  · rw [if_pos hP, Nat.mod_eq_sub_mod hP, Nat.mod_eq_of_lt (by omega)]
    omega
  · rw [if_neg hP, Nat.mod_eq_of_lt (by omega), Nat.add_zero]

/-- The top bit of a pointer tells whether the pointer is in its second round. -/
theorem getLsbD_top (p : BitVec (w + 1)) : p.getLsbD w = decide (2 ^ w ≤ p.toNat) := by
  have hlt := p.isLt
  rw [Nat.pow_succ] at hlt
  have hpos := Nat.two_pow_pos w
  rw [BitVec.getLsbD, Nat.testBit_eq_decide_div_mod_eq]
  by_cases h : 2 ^ w ≤ p.toNat
  · have hdiv : p.toNat / 2 ^ w = 1 := Nat.div_eq_of_lt_le (by omega) (by omega)
    simp [hdiv, h]
  · rw [Nat.div_eq_of_lt (by omega)]
    simp [h]

/-- Two pointers differ in the top bit alone exactly if they are a ring size apart. -/
theorem full_iff_sub (r : ClockedRing w α) :
    r.full = true ↔ (r.tail - r.head).toNat = 2 ^ w := by
  have hpos := Nat.two_pow_pos w
  have hhead := r.head.isLt
  have htail := r.tail.isLt
  have hmul : 2 ^ (w + 1) = 2 * 2 ^ w := by rw [Nat.pow_succ, Nat.mul_comm]
  rw [hmul] at hhead htail
  have ha := eq_mod_add_of_lt_two_mul hhead
  have hb := eq_mod_add_of_lt_two_mul htail
  have hlow : r.head.extractLsb' 0 w = r.tail.extractLsb' 0 w ↔
      r.head.toNat % 2 ^ w = r.tail.toNat % 2 ^ w := by
    rw [← BitVec.toNat_inj]
    simp
  have hsub := eq_mod_add_of_lt_two_mul (a := 2 * 2 ^ w - r.head.toNat + r.tail.toNat)
    (P := 2 * 2 ^ w) (by omega)
  rw [BitVec.toNat_sub, hmul, ClockedRing.full, Bool.and_eq_true, beq_iff_eq, hlow, bne_iff_ne,
    getLsbD_top, getLsbD_top, ne_eq, decide_eq_decide]
  have hma := Nat.mod_lt r.head.toNat hpos
  have hmb := Nat.mod_lt r.tail.toNat hpos
  generalize r.head.toNat % 2 ^ w = x at *
  generalize r.tail.toNat % 2 ^ w = y at *
  generalize (2 * 2 ^ w - r.head.toNat + r.tail.toNat) % (2 * 2 ^ w) = z at *
  by_cases h : 2 ^ w ≤ r.head.toNat <;> by_cases h' : 2 ^ w ≤ r.tail.toNat <;>
    simp only [h, h', if_true, if_false, iff_true, iff_false, not_true, not_false_iff, and_true,
      and_false, false_iff] at ha hb ⊢ <;>
    split_ifs at hsub <;> omega

/-! ### Runs -/

namespace ClockedRing

variable {r : ClockedRing w α} {pushed popped : List α}

theorem reset_holds (mem : Fin (2 ^ w) → α) : (reset mem).Holds [] [] := Contents.zero mem

namespace Holds

theorem full_iff (h : r.Holds pushed popped) :
    r.full = true ↔ pushed.length = popped.length + 2 ^ w := by
  rw [full_iff_sub, Contents.occupancy h (Nat.lt_succ_self w)]
  have hpos := Nat.two_pow_pos w
  omega

theorem empty_iff (h : r.Holds pushed popped) :
    r.empty = true ↔ pushed.length = popped.length := by
  rw [empty, beq_iff_eq, eq_comm]
  exact Contents.prod_eq_cons_iff h (Nat.lt_succ_self w)

theorem push (h : r.Holds pushed popped) (a : α) (pushValid : Bool) :
    (r.step a pushValid false).Holds (pushed ++ r.pushed a pushValid) popped := by
  by_cases hfire : (pushValid && r.pushReady) = true
  · have hroom : pushed.length < popped.length + 2 ^ w := by
      have hne : ¬ r.full = true := by simp_all [pushReady]
      have hbound := h.bound
      rw [h.full_iff] at hne
      omega
    have hslot : slot r.tail = pos w pushed.length := by rw [h.prod_eq, slot_ofNat]
    have hw := Contents.write h le_rfl hroom a
    have hroom' : pushed.length + [a].length ≤ popped.length + 2 ^ w := hroom
    have hp := Contents.publish hw hroom' fun j hj => by
      obtain rfl : j = 0 := by simpa using hj
      simp
    simpa [Holds, step, ClockedRing.pushed, hfire, hslot] using hp
  · simpa [Holds, step, ClockedRing.pushed, hfire] using h

theorem popData (h : r.Holds pushed popped) (hvalid : r.popValid = true) :
    pushed[popped.length]? = some r.popData := by
  have hne : ¬ r.empty = true := by simpa [popValid] using hvalid
  have hle := h.length_le
  rw [h.empty_iff] at hne
  rw [h.live _ le_rfl (by omega), ClockedRing.popData, h.cons_eq, slot_ofNat]

/-- **One clock cycle.** The push is decided on the room before the pop, and the pop on the elements
before the push. -/
theorem step (h : r.Holds pushed popped) (a : α) (pushValid popReady : Bool) :
    (r.step a pushValid popReady).Holds (pushed ++ r.pushed a pushValid)
      (popped ++ r.popped popReady) := by
  have hpush := h.push a pushValid
  by_cases hfire : (r.popValid && popReady) = true
  · obtain ⟨hvalid, rfl⟩ : r.popValid = true ∧ popReady = true := by simpa using hfire
    have hold := h.popData hvalid
    have hlt : popped.length < pushed.length := by
      by_contra hge
      rw [List.getElem?_eq_none (by omega)] at hold
      exact absurd hold (by simp)
    have hold' : (pushed ++ r.pushed a pushValid)[popped.length]? = some r.popData := by
      rw [List.getElem?_append_left hlt, hold]
    have htake := Contents.take hpush hold'
    simpa [Holds, ClockedRing.step, ClockedRing.popped, hvalid] using htake
  · simpa [Holds, ClockedRing.step, ClockedRing.popped, hfire] using hpush

/-- **A sequence of cycles.** -/
theorem run (h : r.Holds pushed popped) (cycles : List (Cycle α)) :
    (r.run cycles).Holds (pushed ++ r.pushedIn cycles) (popped ++ r.poppedIn cycles) := by
  induction cycles generalizing r pushed popped with
  | nil => simpa [ClockedRing.run, pushedIn, poppedIn] using h
  | cons c cycles ih =>
    have hstep := ih (h.step c.data c.pushValid c.popReady)
    rw [List.append_assoc, List.append_assoc] at hstep
    exact hstep

end Holds

/-- What is asked of a queue of `2 ^ w` places after `pushed` was pushed and `popped` was popped: the
wrapping difference of its pointers is the number of elements in it, the flags are right about it, and
elements come out in the order in which they went in. -/
structure ExactFifo (r : ClockedRing w α) (pushed popped : List α) : Prop where
  occupancy : popped.length + (r.tail - r.head).toNat = pushed.length
  bound : (r.tail - r.head).toNat ≤ 2 ^ w
  full_iff : r.full = true ↔ (r.tail - r.head).toNat = 2 ^ w
  empty_iff : r.empty = true ↔ (r.tail - r.head).toNat = 0
  order : popped <+: pushed

theorem Holds.exactFifo (h : r.Holds pushed popped) : r.ExactFifo pushed popped := by
  have hsub := Contents.occupancy h (Nat.lt_succ_self w)
  have hle := h.length_le
  have hbound := h.bound
  refine ⟨by omega, by omega, full_iff_sub r, ?_, h.taken_le⟩
  rw [h.empty_iff, hsub]
  omega

end ClockedRing

end RingBuffer
