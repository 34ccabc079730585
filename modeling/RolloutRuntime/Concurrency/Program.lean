import Mathlib.Logic.Function.Basic
import Mathlib.Tactic.Common

/-!
# Programs of atomic steps and their interleavings

A *program* is a sequence of atomic steps on a shared memory: each step names the operation it
performs, and the rest of the program may depend on the memory the step found. A function of
several loads and stores is written as one program, in the order of its accesses, and can then be
run alone (`Prog.run`) or interleaved with others.

A *system* is a family of threads on one memory. Between two calls a thread rests in a local state;
a call is chosen from outside and starts the program of that call. A schedule is a list of pairs of
a thread and a call: the thread makes its next step, and the call is looked at only when the thread
is at rest. Every order of the steps of all threads is a schedule, so a statement about all
schedules is a statement about all interleavings.

## Main definitions

* `Prog`, `Prog.run`: programs, and their run without interference.
* `Prog.Trace`: the steps of one run of a program among arbitrary steps of other threads.
* `Prog.zoom`: a program on one component of a larger memory.
* `Prog.Uses`, `Prog.Returns`: bounds on the operations a program can perform and on its results.
* `System`, `Config`, `System.step`, `System.run`: threads, their configurations and schedules.
* `System.Meets`: the schedules every step of which meets a condition.

## Main results

* `System.returns_run`: a condition on the local state of a thread that every call keeps.
* `System.exists_schedule_rest`: every thread can be scheduled alone until it rests.
* `System.exists_schedule_call`, `System.exists_schedule_of_run`: a thread at rest can be scheduled
  alone through a whole call.
-/

namespace Concurrency

/-! ### Programs -/

/-- A program of atomic steps with operations `Op` on the memory `σ`, returning an `α`. The step
`act o k` performs `o`, and continues with `k s`, where `s` is the memory before the step. -/
inductive Prog (Op σ α : Type) : Type
  | ret (a : α)
  | act (o : Op) (k : σ → Prog Op σ α)

namespace Prog

variable {Op σ α β γ : Type}

/-- Sequential composition. -/
def bind : Prog Op σ α → (α → Prog Op σ β) → Prog Op σ β
  | ret a, f => f a
  | act o k, f => act o fun s => (k s).bind f

instance : Monad (Prog Op σ) where
  pure := ret
  bind := bind

/-- Perform `o` and return what `g` reads in the memory before the step. -/
def load (o : Op) (g : σ → α) : Prog Op σ α := act o fun s => ret (g s)

/-- Perform `o`. -/
def exec (o : Op) : Prog Op σ Unit := act o fun _ => ret ()

@[simp] theorem pure_eq (a : α) : (pure a : Prog Op σ α) = ret a := rfl

@[simp] theorem act_bind (o : Op) (k : σ → Prog Op σ α) (f : α → Prog Op σ β) :
    (act o k >>= f) = act o fun s => k s >>= f := rfl

@[simp] theorem load_bind (o : Op) (g : σ → α) (f : α → Prog Op σ β) :
    (load o g >>= f) = act o fun s => f (g s) := rfl

@[simp] theorem exec_bind (o : Op) (f : Unit → Prog Op σ β) :
    (exec o >>= f) = act o fun _ => f () := rfl

/-- The run of a program without interference: its result and the final memory. -/
def run (effect : Op → σ → σ) : Prog Op σ α → σ → α × σ
  | ret a, s => (a, s)
  | act o k, s => (k s).run effect (effect o s)

section Run

variable (effect : Op → σ → σ)

@[simp] theorem run_ret (a : α) (s : σ) : (ret a : Prog Op σ α).run effect s = (a, s) := rfl

@[simp] theorem run_act (o : Op) (k : σ → Prog Op σ α) (s : σ) :
    (act o k).run effect s = (k s).run effect (effect o s) := rfl

theorem run_bind (p : Prog Op σ α) (f : α → Prog Op σ β) (s : σ) :
    (p >>= f).run effect s = (f (p.run effect s).1).run effect (p.run effect s).2 := by
  induction p generalizing s with
  | ret a => rfl
  | act o k ih => exact ih s (effect o s)

end Run

/-- The runs of a program among arbitrary steps of other threads: the operations performed, each
with the memory it was performed on, and the result. -/
inductive Trace : Prog Op σ α → List (Op × σ) → α → Prop
  | ret (a : α) : Trace (ret a) [] a
  | act (o : Op) (k : σ → Prog Op σ α) (s : σ) {l : List (Op × σ)} {a : α} (h : Trace (k s) l a) :
      Trace (act o k) ((o, s) :: l) a

theorem trace_ret {a b : α} {l : List (Op × σ)} :
    Trace (ret a : Prog Op σ α) l b ↔ l = [] ∧ b = a := by
  constructor
  · intro h
    cases h
    exact ⟨rfl, rfl⟩
  · rintro ⟨rfl, rfl⟩
    exact .ret _

theorem trace_act {o : Op} {k : σ → Prog Op σ α} {l : List (Op × σ)} {a : α} :
    Trace (act o k) l a ↔ ∃ s l', l = (o, s) :: l' ∧ Trace (k s) l' a := by
  constructor
  · intro h
    cases h with
    | act _ _ s h => exact ⟨s, _, rfl, h⟩
  · rintro ⟨s, l', rfl, h⟩
    exact .act o k s h

theorem trace_bind {p : Prog Op σ α} {f : α → Prog Op σ β} {l : List (Op × σ)} {b : β} :
    Trace (p >>= f) l b ↔ ∃ l₁ l₂ a, l = l₁ ++ l₂ ∧ Trace p l₁ a ∧ Trace (f a) l₂ b := by
  induction p generalizing l with
  | ret a =>
    constructor
    · intro h
      exact ⟨[], l, a, rfl, .ret a, h⟩
    · rintro ⟨l₁, l₂, a', rfl, h₁, h₂⟩
      obtain ⟨rfl, rfl⟩ := trace_ret.mp h₁
      exact h₂
  | act o k ih =>
    rw [act_bind, trace_act]
    constructor
    · rintro ⟨s, l', rfl, h⟩
      obtain ⟨l₁, l₂, a, rfl, h₁, h₂⟩ := (ih s).mp h
      exact ⟨(o, s) :: l₁, l₂, a, rfl, .act o k s h₁, h₂⟩
    · rintro ⟨l₁, l₂, a, rfl, h₁, h₂⟩
      obtain ⟨s, l', rfl, h⟩ := trace_act.mp h₁
      exact ⟨s, l' ++ l₂, rfl, (ih s).mpr ⟨l', l₂, a, rfl, h, h₂⟩⟩

/-- A program on a memory `τ`, run on the component `get s` of a larger memory, its operations
named by `emb`. -/
def zoom {Op' τ : Type} (emb : Op' → Op) (get : σ → τ) : Prog Op' τ α → Prog Op σ α
  | ret a => ret a
  | act o k => act (emb o) fun s => (k (get s)).zoom emb get

section Zoom

variable {Op' τ : Type} (emb : Op' → Op) (get : σ → τ)

@[simp] theorem zoom_ret (a : α) : (ret a : Prog Op' τ α).zoom emb get = ret a := rfl

/-- A component program acts on its component alone. -/
theorem run_zoom (effect' : Op' → τ → τ) (effect : Op → σ → σ) (set : τ → σ → σ)
    (hemb : ∀ o s, effect (emb o) s = set (effect' o (get s)) s)
    (hget : ∀ t s, get (set t s) = t) (hset : ∀ t t' s, set t (set t' s) = set t s)
    (hself : ∀ s, set (get s) s = s) (p : Prog Op' τ α) (s : σ) :
    (p.zoom emb get).run effect s =
      ((p.run effect' (get s)).1, set (p.run effect' (get s)).2 s) := by
  induction p generalizing s with
  | ret a => simp [hself]
  | act o k ih =>
    rw [zoom, run_act, ih, run_act, hemb, hget, hset]

end Zoom

/-- Every operation the program can perform satisfies `A`. -/
def Uses (A : Op → Prop) : Prog Op σ α → Prop
  | ret _ => True
  | act o k => A o ∧ ∀ s, (k s).Uses A

section Uses

variable {A : Op → Prop}

theorem uses_of_forall (h : ∀ o, A o) (p : Prog Op σ α) : p.Uses A := by
  induction p with
  | ret a => trivial
  | act o k ih => exact ⟨h o, ih⟩

theorem uses_mono {B : Op → Prop} {p : Prog Op σ α} (h : p.Uses A) (hAB : ∀ o, A o → B o) :
    p.Uses B := by
  induction p with
  | ret a => trivial
  | act o k ih => exact ⟨hAB o h.1, fun s => ih s (h.2 s)⟩

theorem uses_bind {p : Prog Op σ α} {f : α → Prog Op σ β} (h : p.Uses A) (hf : ∀ a, (f a).Uses A) :
    (p >>= f).Uses A := by
  induction p with
  | ret a => exact hf a
  | act o k ih => exact ⟨h.1, fun s => ih s (h.2 s)⟩

theorem uses_zoom {Op' τ : Type} {emb : Op' → Op} {get : σ → τ} {p : Prog Op' τ α}
    (h : p.Uses fun o => A (emb o)) : (p.zoom emb get).Uses A := by
  induction p with
  | ret a => trivial
  | act o k ih => exact ⟨h.1, fun s => ih (get s) (h.2 (get s))⟩

end Uses

/-- Every result the program can return satisfies `R`. -/
inductive Returns (R : α → Prop) : Prog Op σ α → Prop
  | ret {a : α} (h : R a) : Returns R (ret a)
  | act {o : Op} {k : σ → Prog Op σ α} (h : ∀ s, Returns R (k s)) : Returns R (act o k)

theorem Returns.of_ret {R : α → Prop} {a : α} (h : Returns R (Prog.ret a : Prog Op σ α)) : R a := by
  cases h with
  | ret ha => exact ha

theorem returns_bind {R : β → Prop} {p : Prog Op σ α} {f : α → Prog Op σ β}
    (hf : ∀ a, (f a).Returns R) : (p >>= f).Returns R := by
  induction p with
  | ret a => exact hf a
  | act o k ih => exact .act ih

end Prog

/-! ### Systems of threads -/

/-- A family of threads indexed by `ι` on the memory `σ`: the effect of every operation, and the
program that thread `i` runs when the call `x` is made in its local state `l`. The program returns
the local state of the thread after the call. -/
structure System (ι Op σ : Type) (L C : ι → Type) where
  effect : Op → σ → σ
  start : (i : ι) → L i → C i → Prog Op σ (L i)

/-- A configuration: the memory, and what is left of the current call of every thread. -/
structure Config (ι Op σ : Type) (L : ι → Type) where
  mem : σ
  threads : (i : ι) → Prog Op σ (L i)

namespace Config

variable {ι Op σ : Type} {L : ι → Type}

/-- All threads at rest. -/
def rest (s : σ) (l : (i : ι) → L i) : Config ι Op σ L := ⟨s, fun i => .ret (l i)⟩

/-- The operation thread `i` performs at its next step, if it is inside a call. -/
def next (c : Config ι Op σ L) (i : ι) : Option Op :=
  match c.threads i with
  | .ret _ => none
  | .act o _ => some o

theorem next_eq_some {c : Config ι Op σ L} {i : ι} {o : Op} :
    c.next i = some o ↔ ∃ k, c.threads i = .act o k := by
  unfold next
  cases h : c.threads i <;> simp

end Config

namespace System

variable {ι Op σ : Type} {L C : ι → Type} [DecidableEq ι] (S : System ι Op σ L C)

/-- One step of thread `i`: the next operation of its call, or the start of the call `x`. -/
def step (c : Config ι Op σ L) (e : (i : ι) × C i) : Config ι Op σ L :=
  match c.threads e.1 with
  | .ret l => { c with threads := Function.update c.threads e.1 (S.start e.1 l e.2) }
  | .act o k => ⟨S.effect o c.mem, Function.update c.threads e.1 (k c.mem)⟩

/-- The configuration reached by a schedule. -/
def run (c : Config ι Op σ L) (es : List ((i : ι) × C i)) : Config ι Op σ L :=
  es.foldl S.step c

@[simp] theorem run_nil (c : Config ι Op σ L) : S.run c [] = c := rfl

@[simp] theorem run_cons (c : Config ι Op σ L) (e : (i : ι) × C i) (es : List ((i : ι) × C i)) :
    S.run c (e :: es) = S.run (S.step c e) es := rfl

theorem run_append (c : Config ι Op σ L) (es es' : List ((i : ι) × C i)) :
    S.run c (es ++ es') = S.run (S.run c es) es' := List.foldl_append

theorem step_ret {c : Config ι Op σ L} {i : ι} {l : L i} (h : c.threads i = .ret l) (x : C i) :
    S.step c ⟨i, x⟩ = ⟨c.mem, Function.update c.threads i (S.start i l x)⟩ := by
  simp only [step, h]

theorem step_act {c : Config ι Op σ L} {i : ι} {o : Op} {k : σ → Prog Op σ (L i)}
    (h : c.threads i = .act o k) (x : C i) :
    S.step c ⟨i, x⟩ = ⟨S.effect o c.mem, Function.update c.threads i (k c.mem)⟩ := by
  simp only [step, h]

/-- Every step of the schedule meets the condition `P` on the thread, its operation and the memory
before the step. -/
def Meets (P : ι → Op → σ → Prop) : Config ι Op σ L → List ((i : ι) × C i) → Prop
  | _, [] => True
  | c, e :: es => (∀ o, c.next e.1 = some o → P e.1 o c.mem) ∧ Meets P (S.step c e) es

instance decidableMeets (P : ι → Op → σ → Prop) [∀ i o s, Decidable (P i o s)]
    (c : Config ι Op σ L) (es : List ((i : ι) × C i)) : Decidable (S.Meets P c es) :=
  match es with
  | [] => .isTrue trivial
  | e :: es =>
    have : Decidable (∀ o, c.next e.1 = some o → P e.1 o c.mem) :=
      match h : c.next e.1 with
      | none => .isTrue fun _ ho => absurd ho (by simp)
      | some o => decidable_of_iff (P e.1 o c.mem) (by simp)
    have := decidableMeets P (S.step c e) es
    inferInstanceAs (Decidable (_ ∧ _))

theorem meets_true (c : Config ι Op σ L) (es : List ((i : ι) × C i)) :
    S.Meets (fun _ _ _ => True) c es := by
  induction es generalizing c with
  | nil => trivial
  | cons e es ih => exact ⟨fun _ _ => trivial, ih _⟩

/-- One step of any thread: the call of thread `i` returns as it did, and so does the next one. -/
theorem returns_step {i : ι} {R : L i → Prop} {c : Config ι Op σ L} (h : (c.threads i).Returns R)
    (hstart : ∀ l x, c.threads i = .ret l → R l → (S.start i l x).Returns R) (e : (i : ι) × C i) :
    ((S.step c e).threads i).Returns R := by
  obtain ⟨j, x⟩ := e
  by_cases hj : j = i
  · subst hj
    cases hp : c.threads j with
    | ret l =>
      rw [hp] at h
      cases h with
      | ret hl => simpa only [S.step_ret hp, Function.update_self] using hstart l x hp hl
    | act o k =>
      rw [hp] at h
      cases h with
      | act hk => simpa only [S.step_act hp, Function.update_self] using hk c.mem
  · cases hp : c.threads j with
    | ret l => simpa only [S.step_ret hp, Function.update_of_ne (Ne.symm hj)] using h
    | act o k => simpa only [S.step_act hp, Function.update_of_ne (Ne.symm hj)] using h

/-- **A condition that every call keeps.** Thread `i` rests only where `R` holds, if it starts there and every
call that it makes in the run returns there. -/
theorem returns_run {i : ι} {R : L i → Prop} {c : Config ι Op σ L} (h : (c.threads i).Returns R)
    (hstart : ∀ es l x, (S.run c es).threads i = .ret l → R l → (S.start i l x).Returns R)
    (es : List ((i : ι) × C i)) : ((S.run c es).threads i).Returns R := by
  induction es generalizing c with
  | nil => exact h
  | cons e es ih => exact ih (S.returns_step h (hstart []) e) fun es => hstart (e :: es)

/-- Scheduled alone, a thread runs its program to the end. -/
theorem exists_schedule_run (i : ι) (x : C i) (c : Config ι Op σ L) :
    ∃ es, S.run c es = ⟨((c.threads i).run S.effect c.mem).2,
      Function.update c.threads i (.ret ((c.threads i).run S.effect c.mem).1)⟩ := by
  generalize hp : c.threads i = p
  induction p generalizing c with
  | ret l =>
    refine ⟨[], ?_⟩
    rw [Prog.run_ret, ← hp, Function.update_eq_self, run_nil]
  | act o k ih =>
    have hthread : (S.step c ⟨i, x⟩).threads i = k c.mem := by
      simp only [S.step_act hp, Function.update_self]
    obtain ⟨es, hes⟩ := ih c.mem (S.step c ⟨i, x⟩) hthread
    refine ⟨⟨i, x⟩ :: es, ?_⟩
    rw [run_cons, hes]
    simp only [S.step_act hp, Function.update_idem, Prog.run_act]

/-- Every thread can be scheduled alone until it rests, the other threads staying where they are. -/
theorem exists_schedule_rest (i : ι) (x : C i) (c : Config ι Op σ L) :
    ∃ es, (S.run c es).mem = ((c.threads i).run S.effect c.mem).2 ∧
      (S.run c es).threads i = .ret ((c.threads i).run S.effect c.mem).1 ∧
      ∀ j, j ≠ i → (S.run c es).threads j = c.threads j := by
  obtain ⟨es, hes⟩ := S.exists_schedule_run i x c
  refine ⟨es, ?_, ?_, fun j hj => ?_⟩
  · rw [hes]
  · rw [hes]
    exact Function.update_self i _ c.threads
  · rw [hes]
    exact Function.update_of_ne hj _ c.threads

/-- **A whole call.** A thread at rest can be scheduled alone through the call `x`. -/
theorem exists_schedule_call {i : ι} {l : L i} (x : C i) (c : Config ι Op σ L)
    (h : c.threads i = .ret l) :
    ∃ es, S.run c es = ⟨((S.start i l x).run S.effect c.mem).2,
      Function.update c.threads i (.ret ((S.start i l x).run S.effect c.mem).1)⟩ := by
  obtain ⟨es, hes⟩ := S.exists_schedule_run i x (S.step c ⟨i, x⟩)
  refine ⟨⟨i, x⟩ :: es, ?_⟩
  rw [run_cons, hes]
  simp only [S.step_ret h, Function.update_self, Function.update_idem]

/-- A thread at rest can be scheduled alone through the call `x`, the other threads staying where they
are. -/
theorem exists_schedule_of_run {i : ι} {l l' : L i} (x : C i) {c : Config ι Op σ L} {s' : σ}
    (h : c.threads i = .ret l) (hrun : (S.start i l x).run S.effect c.mem = (l', s')) :
    ∃ es, (S.run c es).mem = s' ∧ (S.run c es).threads i = .ret l' ∧
      ∀ j, j ≠ i → (S.run c es).threads j = c.threads j := by
  obtain ⟨es, hes⟩ := S.exists_schedule_call x c h
  rw [hrun] at hes
  refine ⟨es, ?_, ?_, fun j hj => ?_⟩
  · rw [hes]
  · rw [hes]
    exact Function.update_self i _ c.threads
  · rw [hes]
    exact Function.update_of_ne hj _ c.threads

end System

end Concurrency
