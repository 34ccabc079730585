import Mathlib.Algebra.Order.Group.Multiset

/-!
# Code that acquires resources and gives them back

An environment answers the requests of a program one after the other. A request for a resource that is
granted is given its own number, and the pair of the kind of the resource and this number is live until it is
released; a release of a pair that is not live is a misuse. The program may also be aborted.

`Books.Holds` says which resources are live. It is a multiset, so that what several parts of a program hold is
added up; the rules below change one summand each. All of them also follow whether a request has been refused.

## Main definitions

* `Books`, `Calls`: the books of the live resources, and code that keeps them.
* `ask`, `acquire`, `release`, `misuse`: a request without a resource, one with a resource, a release, and a
  call that must not be made.
* `Ensures`: what holds after a piece of code, and where it is aborted.
* `held`, `Books.Holds`: what a pointer stands for, and what the books say.

## Main results

* `Ensures.seq`, `Books.Holds.ask_cases`, `Books.Holds.acquire_cases`, `Books.Holds.release`: the rules.
-/

namespace Resources

variable {κ α β : Type}

/-- The books of the resources of the kinds `κ`. -/
structure Books (κ : Type) where
  /-- The answers to all requests. -/
  answers : ℕ → Bool
  /-- The number of requests so far. -/
  asked : ℕ
  /-- The resources that were granted and not released. -/
  live : Multiset (κ × ℕ)
  /-- Something was released that was not live. -/
  misused : Bool

/-- The books at the start. -/
def Books.opened (answers : ℕ → Bool) : Books κ := ⟨answers, 0, 0, false⟩

/-- A request was refused. -/
def Books.Refused (b : Books κ) : Prop := ∃ n < b.asked, b.answers n = false

/-- Code that keeps the books; `none` is that it is aborted. -/
abbrev Calls (κ : Type) : Type → Type := OptionT (StateM (Books κ))

/-! ### The calls -/

/-- A request without a resource. -/
def ask : Calls κ Bool :=
  OptionT.mk fun b => (some (b.answers b.asked), { b with asked := b.asked + 1 })

/-- A request for a resource; the null pointer if it is refused. -/
def acquire (k : κ) : Calls κ (Option ℕ) :=
  OptionT.mk fun b =>
    if b.answers b.asked then
      (some (some b.asked), { b with asked := b.asked + 1, live := (k, b.asked) ::ₘ b.live })
    else (some none, { b with asked := b.asked + 1 })

/-- A call that must not be made. -/
def misuse : Calls κ Unit :=
  OptionT.mk fun b => (some (), { b with misused := true })

/-- The release of a resource; nothing is done for the null pointer. -/
def release [DecidableEq κ] (k : κ) : Option ℕ → Calls κ Unit
  | none => pure ()
  | some n =>
    OptionT.mk fun b =>
      if (k, n) ∈ b.live then (some (), { b with live := b.live.erase (k, n) })
      else (some (), { b with misused := true })

/-! ### The rules -/

/-- After the code `Q` holds; where it is aborted, `R` holds. -/
def Ensures (R : Books κ → Prop) (c : Calls κ α) (b : Books κ) (Q : α → Books κ → Prop) : Prop :=
  match c.run.run b with
  | (some a, b') => Q a b'
  | (none, b') => R b'

section Rules

variable {R : Books κ → Prop} {b : Books κ} {Q Q' : α → Books κ → Prop} {c : Calls κ α}

theorem Ensures.pure {a : α} (h : Q a b) : Ensures R (Pure.pure a) b Q := h

theorem Ensures.failure (h : R b) : Ensures R (failure : Calls κ α) b Q := h

theorem run_bind (c : Calls κ α) (f : α → Calls κ β) (b : Books κ) :
    (c >>= f).run.run b =
      match c.run.run b with
      | (some a, b') => (f a).run.run b'
      | (none, b') => (none, b') := by
  rw [OptionT.run_bind, Option.elimM, StateT.run_bind]
  rcases c.run.run b with ⟨_ | a, b'⟩ <;> rfl

theorem Ensures.bind {f : α → Calls κ β} {P : β → Books κ → Prop}
    (h : Ensures R c b fun a b' => Ensures R (f a) b' P) : Ensures R (c >>= f) b P := by
  unfold Ensures at h ⊢
  rw [run_bind]
  rcases hc : c.run.run b with ⟨_ | a, b'⟩
  · rwa [hc] at h
  · rwa [hc] at h

theorem Ensures.mono (h : Ensures R c b Q) (hQ : ∀ a b', Q a b' → Q' a b') : Ensures R c b Q' := by
  unfold Ensures at h ⊢
  split at h
  · exact hQ _ _ h
  · exact h

/-- One piece of code after another, from what the first one ensures. -/
theorem Ensures.seq {f : α → Calls κ β} {P : β → Books κ → Prop} (h : Ensures R c b Q)
    (hf : ∀ a b', Q a b' → Ensures R (f a) b' P) : Ensures R (c >>= f) b P :=
  (h.mono hf).bind

end Rules

/-! ### What the books say -/

/-- What a pointer of a kind stands for. -/
def held (k : κ) (p : Option ℕ) : Multiset (κ × ℕ) := p.elim 0 fun n => {(k, n)}

@[simp] theorem held_none (k : κ) : held k none = 0 := rfl

@[simp] theorem card_held (k : κ) (p : Option ℕ) : (held k p).card = if p = none then 0 else 1 := by
  cases p <;> rfl

/-- The live resources are `S`, nothing was misused, and a request was refused if `r`. -/
structure Books.Holds (b : Books κ) (S : Multiset (κ × ℕ)) (r : Prop) : Prop where
  live : b.live = S
  misused : b.misused = false
  refused : r → b.Refused

section Holds

variable {R : Books κ → Prop} {b : Books κ} {S : Multiset (κ × ℕ)} {r : Prop}

theorem Books.holds_opened (answers : ℕ → Bool) : (Books.opened answers : Books κ).Holds 0 False :=
  ⟨rfl, rfl, False.elim⟩

theorem Books.Holds.of_eq {S' : Multiset (κ × ℕ)} (h : b.Holds S r) (hS : S = S') : b.Holds S' r := hS ▸ h

theorem Books.Holds.of_imp {r' : Prop} (h : b.Holds S r) (hr : r' → r) : b.Holds S r' :=
  ⟨h.live, h.misused, h.refused ∘ hr⟩

/-- One more request leaves an earlier refusal, and is a refusal itself if it is answered so. -/
theorem Books.refused_next (h : b.Refused ∨ b.answers b.asked = false) {b' : Books κ}
    (hanswers : b'.answers = b.answers) (hasked : b'.asked = b.asked + 1) : b'.Refused := by
  obtain ⟨n, hn, hfalse⟩ | hfalse := h
  · exact ⟨n, by omega, by rwa [hanswers]⟩
  · exact ⟨b.asked, by omega, by rwa [hanswers]⟩

theorem Books.Holds.ask (h : b.Holds S r) :
    Ensures R ask b fun a b' => b'.Holds S (r ∨ a = false) :=
  ⟨h.live, h.misused, fun hr => Books.refused_next (hr.imp_left h.refused) rfl rfl⟩

theorem Books.Holds.acquire (h : b.Holds S r) (k : κ) :
    Ensures R (acquire k) b fun p b' => b'.Holds (held k p + S) (r ∨ p = none) := by
  cases hanswer : b.answers b.asked with
  | false =>
    have hrun : (Resources.acquire k).run.run b = (some none, { b with asked := b.asked + 1 }) :=
      if_neg (by rw [hanswer]; exact Bool.false_ne_true)
    rw [Ensures, hrun]
    refine ⟨?_, h.misused, fun _ => Books.refused_next (.inr hanswer) rfl rfl⟩
    rw [held_none, zero_add]
    exact h.live
  | true =>
    have hrun : (Resources.acquire k).run.run b =
        (some (some b.asked), { b with asked := b.asked + 1, live := (k, b.asked) ::ₘ b.live }) :=
      if_pos hanswer
    rw [Ensures, hrun]
    refine ⟨?_, h.misused, fun hr => Books.refused_next (.inl (h.refused ?_)) rfl rfl⟩
    · exact congrArg (Multiset.cons _) h.live
    · exact hr.resolve_right (Option.some_ne_none _)

theorem Books.Holds.of_refusal (h : b.Holds S r) (hr : r) : b.Holds S True := h.of_imp fun _ => hr

/-- A request, with what is done if it is refused and if it is granted. -/
theorem Books.Holds.ask_cases (h : b.Holds S r) {f : Bool → Calls κ α} {Q : α → Books κ → Prop}
    (hfalse : ∀ b', b'.Holds S True → Ensures R (f false) b' Q)
    (htrue : ∀ b', b'.Holds S r → Ensures R (f true) b' Q) : Ensures R (Resources.ask >>= f) b Q := by
  refine Ensures.seq h.ask fun a b' h' => ?_
  cases a with
  | false => exact hfalse b' (h'.of_refusal (.inr rfl))
  | true => exact htrue b' (h'.of_imp .inl)

/-- A request for a resource, with what is done if it is refused and if it is granted. -/
theorem Books.Holds.acquire_cases (h : b.Holds S r) (k : κ) {f : Option ℕ → Calls κ α}
    {Q : α → Books κ → Prop} (hnone : ∀ b', b'.Holds S True → Ensures R (f none) b' Q)
    (hsome : ∀ n b', b'.Holds (held k (some n) + S) r → Ensures R (f (some n)) b' Q) :
    Ensures R (Resources.acquire k >>= f) b Q := by
  refine Ensures.seq (h.acquire k) fun p b' h' => ?_
  cases p with
  | none =>
    rw [held_none, zero_add] at h'
    exact hnone b' (h'.of_refusal (.inr rfl))
  | some n => exact hsome n b' (h'.of_imp .inl)

theorem Books.Holds.release [DecidableEq κ] {k : κ} {p : Option ℕ} (h : b.Holds (held k p + S) r) :
    Ensures R (release k p) b fun _ b' => b'.Holds S r := by
  cases p with
  | none =>
    rw [held_none, zero_add] at h
    exact h
  | some n =>
    have hlive : b.live = (k, n) ::ₘ S := h.live
    have hrun : (Resources.release k (some n)).run.run b =
        (some (), { b with live := b.live.erase (k, n) }) :=
      if_pos (by rw [hlive]; exact Multiset.mem_cons_self _ _)
    rw [Ensures, hrun]
    refine ⟨?_, h.misused, h.refused⟩
    change b.live.erase (k, n) = S
    rw [hlive, Multiset.erase_cons_head]

end Holds

end Resources
