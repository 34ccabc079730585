import Mathlib.Data.List.Basic
import Mathlib.Data.List.Infix
import Mathlib.Data.Nat.ModEq
import Mathlib.Tactic.Common

/-!
# Ring buffers with free-running indices

A ring buffer keeps `2 ^ k` slots and two indices that are only ever incremented and wrap at
`2 ^ w`, with `k < w`: the producer index counts the elements published so far and the consumer
index those taken so far, both modulo `2 ^ w`. An element published at position `n` lies in the slot
`n mod 2 ^ k`.

The predicate `Contents` ties the two indices and the slots to the lists of all elements published
and taken since the ring was empty. It says what a ring buffer is for, so every ring of a
development, whatever its element type, tests and word size, is verified against it.

## Main definitions

* `pos k n`: the slot of position `n`; `mask k i`: the slot `i & (2 ^ k - 1)` of an index.
* `Contents`: the indices and slots of a ring after given lists were published and taken.

## Main results

* `pos_ne_pos`: positions less than a ring size apart have distinct slots.
* `toNat_ofNat_sub_ofNat`: a wrapping difference of two indices is the difference of their counts.
* `Contents.occupancy`, `Contents.write`, `Contents.publish`, `Contents.oldest`, `Contents.take`,
  `Contents.taken_append_pending`.
-/

namespace RingBuffer

variable {w k : ℕ} {α : Type}

/-! ### Positions, slots and indices -/

/-- The slot of position `n` in a ring of `2 ^ k` slots. -/
def pos (k n : ℕ) : Fin (2 ^ k) := ⟨n % 2 ^ k, Nat.mod_lt _ (Nat.two_pow_pos k)⟩

/-- The slot `i & (2 ^ k - 1)` of an index. -/
def mask (k : ℕ) (i : BitVec w) : Fin (2 ^ k) :=
  ⟨(i &&& BitVec.ofNat w (2 ^ k - 1)).toNat, by
    have hm : (BitVec.ofNat w (2 ^ k - 1)).toNat ≤ 2 ^ k - 1 := by
      rw [BitVec.toNat_ofNat]
      exact Nat.mod_le _ _
    have hand : (i &&& BitVec.ofNat w (2 ^ k - 1)).toNat ≤ (BitVec.ofNat w (2 ^ k - 1)).toNat := by
      rw [BitVec.toNat_and]
      exact Nat.and_le_right
    have := Nat.two_pow_pos k
    omega⟩

theorem mask_val (hk : k ≤ w) (i : BitVec w) : (mask k i : ℕ) = i.toNat % 2 ^ k := by
  have hlt : 2 ^ k - 1 < 2 ^ w := by
    have := Nat.pow_le_pow_right (n := 2) (by decide) hk
    have := Nat.two_pow_pos k
    omega
  simp only [mask, BitVec.toNat_and, BitVec.toNat_ofNat, Nat.mod_eq_of_lt hlt]
  exact Nat.and_two_pow_sub_one_eq_mod _ _

theorem mask_eq_pos (hk : k ≤ w) (i : BitVec w) : mask k i = pos k i.toNat :=
  Fin.ext (mask_val hk i)

/-- The slot of an index is the slot of the position it counts. -/
theorem mask_ofNat (hk : k ≤ w) (n : ℕ) : mask k (BitVec.ofNat w n) = pos k n := by
  rw [mask_eq_pos hk, BitVec.toNat_ofNat]
  exact Fin.ext (Nat.mod_mod_of_dvd n (Nat.pow_dvd_pow 2 hk))

theorem mask_add_one (hk : k ≤ w) {i : BitVec w} {n : ℕ} (h : mask k i = pos k n) :
    mask k (i + 1) = pos k (n + 1) := by
  have hi : i.toNat % 2 ^ k = n % 2 ^ k := by
    rw [← mask_val hk, h]
    rfl
  have hone : (i + 1) = BitVec.ofNat w (i.toNat + 1) := by
    apply BitVec.eq_of_toNat_eq
    simp
  rw [hone, mask_ofNat hk]
  exact Fin.ext (Nat.ModEq.add_right 1 hi)

theorem mask_and (hk : k ≤ w) (i : BitVec w) :
    mask k (i &&& BitVec.ofNat w (2 ^ k - 1)) = mask k i := by
  apply Fin.ext
  rw [mask_val hk]
  exact Nat.mod_eq_of_lt (mask k i).isLt

/-- Positions less than a ring size apart have distinct slots. -/
theorem pos_ne_pos {m n : ℕ} (hlt : m < n) (hn : n < m + 2 ^ k) : pos k m ≠ pos k n := by
  intro h
  have hmod : m % 2 ^ k = n % 2 ^ k := congrArg Fin.val h
  have hdvd : 2 ^ k ∣ n - m := (Nat.modEq_iff_dvd' hlt.le).mp hmod
  have := Nat.le_of_dvd (by omega) hdvd
  omega

/-- A wrapping difference of two indices is the difference of their counts. -/
theorem toNat_ofNat_sub_ofNat {m n : ℕ} (hle : m ≤ n) (hlt : n - m < 2 ^ w) :
    (BitVec.ofNat w n - BitVec.ofNat w m).toNat = n - m := by
  obtain ⟨d, rfl⟩ := Nat.exists_eq_add_of_le hle
  have hsub : BitVec.ofNat w (m + d) - BitVec.ofNat w m = BitVec.ofNat w d := by
    rw [BitVec.ofNat_add, BitVec.add_comm, BitVec.add_sub_cancel]
  rw [hsub, BitVec.toNat_ofNat, Nat.add_sub_cancel_left, Nat.mod_eq_of_lt (by omega)]

/-- Below another value of its width, an index can be advanced without a wrap. -/
theorem toNat_add_one_of_lt {a b : BitVec w} (h : a < b) : (a + 1).toNat = a.toNat + 1 := by
  have hlt : a.toNat < b.toNat := h
  have hb := b.isLt
  have hw : 1 < 2 ^ w := by omega
  rw [BitVec.toNat_add]
  change (a.toNat + 1 % 2 ^ w) % 2 ^ w = _
  rw [Nat.mod_eq_of_lt hw, Nat.mod_eq_of_lt (by omega)]

/-! ### The contents of a ring -/

/-- The indices and slots of a ring of `2 ^ k` slots after `published` was published and `taken` was
taken: the indices count the two lists, what was taken is an initial segment of what was published,
and every element published and not yet taken lies in its slot. -/
structure Contents (k : ℕ) (prod cons : BitVec w) (slots : Fin (2 ^ k) → α)
    (published taken : List α) : Prop where
  prod_eq : prod = BitVec.ofNat w published.length
  cons_eq : cons = BitVec.ofNat w taken.length
  taken_le : taken <+: published
  bound : published.length ≤ taken.length + 2 ^ k
  live : ∀ n, taken.length ≤ n → n < published.length → published[n]? = some (slots (pos k n))

/-- The elements in the slots from the consumer index up to the producer index. -/
def pending (k : ℕ) (prod cons : BitVec w) (slots : Fin (2 ^ k) → α) : List α :=
  (List.range (prod - cons).toNat).map fun i => slots (mask k (cons + BitVec.ofNat w i))

theorem snoc_isPrefix {l l' : List α} {a : α} (h : l <+: l') (ha : l'[l.length]? = some a) :
    l ++ [a] <+: l' := by
  obtain ⟨t, rfl⟩ := h
  rw [List.getElem?_append_right le_rfl, Nat.sub_self] at ha
  cases t with
  | nil => simp at ha
  | cons b t =>
    obtain rfl : b = a := by simpa using ha
    exact ⟨t, by simp⟩

namespace Contents

variable {prod cons : BitVec w} {slots : Fin (2 ^ k) → α} {published taken : List α}

theorem zero (slots : Fin (2 ^ k) → α) :
    Contents k (0 : BitVec w) 0 slots [] [] where
  prod_eq := rfl
  cons_eq := rfl
  taken_le := List.prefix_rfl
  bound := Nat.zero_le _
  live n _ h := absurd h (Nat.not_lt_zero n)

theorem length_le (h : Contents k prod cons slots published taken) :
    taken.length ≤ published.length :=
  h.taken_le.length_le

/-- The wrapping difference of the indices is the number of elements in the ring. -/
theorem occupancy (h : Contents k prod cons slots published taken) (hk : k < w) :
    (prod - cons).toNat = published.length - taken.length := by
  have hpow := Nat.pow_lt_pow_right (a := 2) (by decide) hk
  have hpos := Nat.two_pow_pos k
  have hb := h.bound
  rw [h.prod_eq, h.cons_eq]
  exact toNat_ofNat_sub_ofNat h.length_le (by omega)

/-- The indices are equal exactly when the ring is empty. -/
theorem prod_eq_cons_iff (h : Contents k prod cons slots published taken) (hk : k < w) :
    prod = cons ↔ published.length = taken.length := by
  constructor
  · rintro rfl
    have ho := h.occupancy hk
    rw [BitVec.sub_self, BitVec.toNat_zero] at ho
    have := h.length_le
    omega
  · intro hl
    rw [h.prod_eq, h.cons_eq, hl]

/-- A slot outside the occupied positions may be overwritten. -/
theorem write (h : Contents k prod cons slots published taken) {n : ℕ}
    (hn : published.length ≤ n) (hn' : n < taken.length + 2 ^ k) (a : α) :
    Contents k prod cons (Function.update slots (pos k n) a) published taken where
  prod_eq := h.prod_eq
  cons_eq := h.cons_eq
  taken_le := h.taken_le
  bound := h.bound
  live m hm hm' := by
    rw [Function.update_of_ne (pos_ne_pos (by omega) (by omega)), h.live m hm hm']

/-- Elements already in their slots are published by advancing the producer index. -/
theorem publish (h : Contents k prod cons slots published taken) {ds : List α}
    (hroom : published.length + ds.length ≤ taken.length + 2 ^ k)
    (hds : ∀ j, j < ds.length → ds[j]? = some (slots (pos k (published.length + j)))) :
    Contents k (prod + BitVec.ofNat w ds.length) cons slots (published ++ ds) taken where
  prod_eq := by rw [h.prod_eq, List.length_append, BitVec.ofNat_add]
  cons_eq := h.cons_eq
  taken_le := h.taken_le.trans (List.prefix_append _ _)
  bound := by rwa [List.length_append]
  live n hn hn' := by
    rw [List.length_append] at hn'
    rcases Nat.lt_or_ge n published.length with hlt | hge
    · rw [List.getElem?_append_left hlt, h.live n hn hlt]
    · rw [List.getElem?_append_right hge, hds _ (by omega), Nat.add_sub_cancel' hge]

/-- The slot of the consumer index holds the oldest element not yet taken. -/
theorem oldest (h : Contents k prod cons slots published taken) (hk : k ≤ w)
    (hlt : taken.length < published.length) :
    published[taken.length]? = some (slots (mask k cons)) := by
  rw [h.cons_eq, mask_ofNat hk, h.live _ le_rfl hlt]

/-- The elements taken and those pending in the slots are the elements published. -/
theorem taken_append_pending (h : Contents k prod cons slots published taken) (hk : k < w) :
    taken ++ pending k prod cons slots = published := by
  obtain ⟨rest, rfl⟩ := h.taken_le
  congr 1
  have hlen : (prod - cons).toNat = rest.length := by
    rw [h.occupancy hk, List.length_append, Nat.add_sub_cancel_left]
  apply List.ext_getElem?
  intro i
  rw [pending, hlen, List.getElem?_map]
  rcases Nat.lt_or_ge i rest.length with hlt | hge
  · have hlive := h.live (taken.length + i) (by omega) (by rw [List.length_append]; omega)
    rw [List.getElem?_append_right (by omega), Nat.add_sub_cancel_left] at hlive
    rw [List.getElem?_range hlt, Option.map_some, hlive, h.cons_eq, ← BitVec.ofNat_add,
      mask_ofNat hk.le]
  · rw [List.getElem?_eq_none hge, List.getElem?_eq_none (by simpa using hge)]
    rfl

/-- The oldest element is taken by advancing the consumer index. -/
theorem take (h : Contents k prod cons slots published taken) {a : α}
    (ha : published[taken.length]? = some a) :
    Contents k prod (cons + 1) slots published (taken ++ [a]) where
  prod_eq := h.prod_eq
  cons_eq := by
    rw [h.cons_eq, List.length_append, List.length_singleton, BitVec.ofNat_add]
    rfl
  taken_le := snoc_isPrefix h.taken_le ha
  bound := by
    have := h.bound
    rw [List.length_append]
    omega
  live n hn hn' := by
    rw [List.length_append] at hn
    exact h.live n (by omega) hn'

end Contents

end RingBuffer
