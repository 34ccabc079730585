import Mathlib.Tactic.Abel
import RolloutRuntime.Resources.Ledger

/-!
# The memory of the runtime

`runtime_init` asks for mapped pages, device memory and, on the way, memory of the host, and any of these
requests may be refused. If one is, everything acquired so far is given back; `runtime_shutdown` gives back
what the runtime holds.

Pointers are the numbers of the requests that were granted. A `cudaMalloc` that fails leaves the pointer it
was to set as it is. Every call that can fail is a request, answered in any way whatsoever; that includes
`cudaSetDevice` and the copies that are checked. The contents of the memory, the sizes, the sentinels that
`runtime_shutdown` sends before it gives memory back, and the pointers that are set to null after the last use
of them are left out here.

## Main definitions

* `Memory`, `ModelStateBuffers`, `Runtime`: the kinds of memory and the pointers of the runtime.
* `ringCreate`, `compRingCreate`, `arenaInit`, `modelStateInit`, `queryProducerInit`, and what gives back.
* `runtimeInit`, `runtimeShutdown`.

## Main results

* `modelStateInit_spec`, `queryProducerInit_spec`, `initBuffers_spec`: what each part leaves live.
* `runtimeInit_all_or_nothing`: the whole life of the runtime.

## References

* `src/main.c` lines 50–119 and 177–204, `src/ring.c`, `src/arena.c` lines 7–29 and 53–58,
  `cu/model_state.cu` lines 54–152, `cu/query_producer.cu` lines 28–60, `include/cuda_utils.h`.
-/

namespace RolloutRuntime

namespace Startup

open Resources

/-- Where memory comes from: `malloc`, `mmap` or `cudaMalloc`. -/
inductive Memory
  | host
  | mapped
  | device
  deriving DecidableEq

/-- `ModelStateBuffers`. -/
structure ModelStateBuffers where
  hiddenBuf : Option ℕ := none
  inputProj : Option ℕ := none
  residualProj : Option ℕ := none
  bias : Option ℕ := none

/-- The pointers of `Runtime`; all null at first. -/
structure Runtime where
  cmdRing : Option ℕ := none
  compRing : Option ℕ := none
  kvArena : Option ℕ := none
  dStepCount : Option ℕ := none
  modelState : ModelStateBuffers := {}
  dQueryProj : Option ℕ := none
  dQueryBuf : Option ℕ := none
  dOutputBuf : Option ℕ := none
  dSampleSt : Option ℕ := none

/-! ### Rings and the arena -/

/-- Pages of the system: huge ones, or ordinary ones if these are refused. -/
def mapPages : Calls Memory (Option ℕ) := do
  let p ← acquire .mapped
  if p = none then acquire .mapped else return p

/-- `munmap`, which is not to be called with the null pointer. -/
def munmap (p : Option ℕ) : Calls Memory Unit :=
  if p = none then misuse else release .mapped p

/-- `free`. -/
def free (p : Option ℕ) : Calls Memory Unit := release .host p

/-- `cudaFree`. -/
def cudaFree (p : Option ℕ) : Calls Memory Unit := release .device p

/-- A call that is made unless the pointer is null. -/
def ifSet (p : Option ℕ) (call : Option ℕ → Calls Memory Unit) : Calls Memory Unit :=
  if p = none then return () else call p

/-- `ring_create`. -/
def ringCreate : Calls Memory (Option ℕ) := mapPages

/-- `comp_ring_create`. -/
def compRingCreate : Calls Memory (Option ℕ) := mapPages

/-- `ring_destroy`. -/
def ringDestroy (ring : Option ℕ) : Calls Memory Unit := munmap ring

/-- `comp_ring_destroy`. -/
def compRingDestroy (ring : Option ℕ) : Calls Memory Unit := munmap ring

/-- `arena_init`, which aborts if there are no pages. -/
def arenaInit : Calls Memory (Option ℕ) := do
  let base ← mapPages
  if base = none then failure else return base

/-- `arena_destroy`. -/
def arenaDestroy (base : Option ℕ) : Calls Memory Unit := ifSet base munmap

/-! ### The model state and the query producer -/

/-- The copies of `model_state_init` in the memory of the host are given back. -/
def freeHost (hInputProj hResidualProj hBias : Option ℕ) : Calls Memory Unit := do
  free hInputProj
  free hResidualProj
  free hBias

/-- `model_state_init`; the flag is that it returns `0`. -/
def modelStateInit (state : ModelStateBuffers) : Calls Memory (Bool × ModelStateBuffers) := do
  let hInputProj ← acquire .host
  let hResidualProj ← acquire .host
  let hBias ← acquire .host
  if hInputProj = none ∨ hResidualProj = none ∨ hBias = none then
    freeHost hInputProj hResidualProj hBias
    return (false, state)
  let some hiddenBuf ← acquire .device
    | freeHost hInputProj hResidualProj hBias
      return (false, state)
  let state := { state with hiddenBuf := some hiddenBuf }
  let some inputProj ← acquire .device
    | cudaFree state.hiddenBuf
      freeHost hInputProj hResidualProj hBias
      return (false, { state with hiddenBuf := none })
  let state := { state with inputProj := some inputProj }
  let some residualProj ← acquire .device
    | cudaFree state.hiddenBuf
      cudaFree state.inputProj
      freeHost hInputProj hResidualProj hBias
      return (false, { state with hiddenBuf := none, inputProj := none })
  let state := { state with residualProj := some residualProj }
  let some bias ← acquire .device
    | cudaFree state.hiddenBuf
      cudaFree state.inputProj
      cudaFree state.residualProj
      freeHost hInputProj hResidualProj hBias
      return (false, { state with hiddenBuf := none, inputProj := none, residualProj := none })
  freeHost hInputProj hResidualProj hBias
  return (true, { state with bias := some bias })

/-- `model_state_destroy`. -/
def modelStateDestroy (state : ModelStateBuffers) : Calls Memory Unit := do
  ifSet state.hiddenBuf cudaFree
  ifSet state.inputProj cudaFree
  ifSet state.residualProj cudaFree
  ifSet state.bias cudaFree

/-- `query_producer_init`; the flag is that it returns `0`. -/
def queryProducerInit (dProjBuf : Option ℕ) : Calls Memory (Bool × Option ℕ) := do
  let some hProj ← acquire .host | return (false, dProjBuf)
  let some projBuf ← acquire .device
    | free (some hProj)
      return (false, dProjBuf)
  free (some hProj)
  return (true, some projBuf)

/-- `query_producer_destroy`. -/
def queryProducerDestroy (dProjBuf : Option ℕ) : Calls Memory Unit := ifSet dProjBuf cudaFree

/-! ### The runtime -/

/-- The part of `runtime_init` after `arena_init`: up to the first request that is refused, if the flag is
false. -/
def initBuffers (rt : Runtime) : Calls Memory (Bool × Runtime) := do
  let some dStepCount ← acquire .device | return (false, rt)
  let rt := { rt with dStepCount := some dStepCount }
  -- `cudaMemset`
  let cleared ← ask
  if cleared = false then return (false, rt)
  let (ready, modelState) ← modelStateInit rt.modelState
  let rt := { rt with modelState := modelState }
  if ready = false then return (false, rt)
  let (ready, dQueryProj) ← queryProducerInit rt.dQueryProj
  let rt := { rt with dQueryProj := dQueryProj }
  if ready = false then return (false, rt)
  let some dQueryBuf ← acquire .device | return (false, rt)
  let rt := { rt with dQueryBuf := some dQueryBuf }
  let some dOutputBuf ← acquire .device | return (false, rt)
  let rt := { rt with dOutputBuf := some dOutputBuf }
  -- `cudaMemset`
  let cleared ← ask
  if cleared = false then return (false, rt)
  let some dSampleSt ← acquire .device | return (false, rt)
  let rt := { rt with dSampleSt := some dSampleSt }
  -- `cudaMemcpy`
  let copied ← ask
  return (copied, rt)

/-- What `runtime_init` does at its label `cleanup`. -/
def runtimeCleanup (rt : Runtime) : Calls Memory Unit := do
  ifSet rt.dSampleSt cudaFree
  ifSet rt.dOutputBuf cudaFree
  ifSet rt.dQueryBuf cudaFree
  ifSet rt.dStepCount cudaFree
  ifSet rt.dQueryProj queryProducerDestroy
  modelStateDestroy rt.modelState
  ifSet rt.cmdRing ringDestroy
  ifSet rt.compRing compRingDestroy
  arenaDestroy rt.kvArena

/-- `runtime_init`: the runtime, or `none` if it returns `-1`. -/
def runtimeInit : Calls Memory (Option Runtime) := do
  -- `cudaSetDevice`
  let selected ← ask
  if selected = false then
    runtimeCleanup {}
    return none
  let some cmdRing ← ringCreate | return none
  let some compRing ← compRingCreate
    | runtimeCleanup { cmdRing := some cmdRing }
      return none
  let kvArena ← arenaInit
  let (ready, rt) ← initBuffers { cmdRing := some cmdRing, compRing := some compRing, kvArena := kvArena }
  if ready = false then
    runtimeCleanup rt
    return none
  return some rt

/-- What `runtime_shutdown` gives back. -/
def runtimeShutdown (rt : Runtime) : Calls Memory Unit := do
  cudaFree rt.dStepCount
  cudaFree rt.dSampleSt
  modelStateDestroy rt.modelState
  queryProducerDestroy rt.dQueryProj
  cudaFree rt.dQueryBuf
  cudaFree rt.dOutputBuf
  ringDestroy rt.cmdRing
  compRingDestroy rt.compRing
  arenaDestroy rt.kvArena

/-! ### What is held -/

/-- What the buffers of the model state stand for. -/
def ModelStateBuffers.owned (s : ModelStateBuffers) : Multiset (Memory × ℕ) :=
  held Memory.device s.hiddenBuf + (held Memory.device s.inputProj + (held Memory.device s.residualProj +
    held Memory.device s.bias))

/-- What the pointers of the runtime stand for. -/
def Runtime.owned (rt : Runtime) : Multiset (Memory × ℕ) :=
  held Memory.mapped rt.cmdRing + held Memory.mapped rt.compRing + held Memory.mapped rt.kvArena +
    held Memory.device rt.dStepCount + rt.modelState.owned + held Memory.device rt.dQueryProj +
    held Memory.device rt.dQueryBuf + held Memory.device rt.dOutputBuf + held Memory.device rt.dSampleSt

section Owned

variable {rt : Runtime} (p : Option ℕ)

theorem Runtime.owned_dStepCount (h : rt.dStepCount = none) :
    held Memory.device p + rt.owned = { rt with dStepCount := p }.owned := by
  unfold Runtime.owned
  rw [h, held_none]
  abel

theorem Runtime.owned_modelState (h : rt.modelState.owned = 0) (s : ModelStateBuffers) :
    s.owned + rt.owned = { rt with modelState := s }.owned := by
  unfold Runtime.owned
  rw [h]
  abel

theorem Runtime.owned_dQueryProj (h : rt.dQueryProj = none) :
    held Memory.device p + rt.owned = { rt with dQueryProj := p }.owned := by
  unfold Runtime.owned
  rw [h, held_none]
  abel

theorem Runtime.owned_dQueryBuf (h : rt.dQueryBuf = none) :
    held Memory.device p + rt.owned = { rt with dQueryBuf := p }.owned := by
  unfold Runtime.owned
  rw [h, held_none]
  abel

theorem Runtime.owned_dOutputBuf (h : rt.dOutputBuf = none) :
    held Memory.device p + rt.owned = { rt with dOutputBuf := p }.owned := by
  unfold Runtime.owned
  rw [h, held_none]
  abel

theorem Runtime.owned_dSampleSt (h : rt.dSampleSt = none) :
    held Memory.device p + rt.owned = { rt with dSampleSt := p }.owned := by
  unfold Runtime.owned
  rw [h, held_none]
  abel

/-- The pages are all that is held when the arena has been set up. -/
theorem Runtime.owned_pages (c d a : Option ℕ) :
    held Memory.mapped a + (held Memory.mapped d + (held Memory.mapped c + 0)) =
      Runtime.owned { cmdRing := c, compRing := d, kvArena := a } := by
  simp only [Runtime.owned, ModelStateBuffers.owned, held_none, add_zero]
  abel

end Owned

/-- All buffers of the model state are there. -/
structure ModelStateBuffers.Complete (s : ModelStateBuffers) : Prop where
  hiddenBuf : s.hiddenBuf ≠ none
  inputProj : s.inputProj ≠ none
  residualProj : s.residualProj ≠ none
  bias : s.bias ≠ none

/-- No pointer of the runtime is null. -/
structure Runtime.Complete (rt : Runtime) : Prop where
  cmdRing : rt.cmdRing ≠ none
  compRing : rt.compRing ≠ none
  kvArena : rt.kvArena ≠ none
  dStepCount : rt.dStepCount ≠ none
  modelState : rt.modelState.Complete
  dQueryProj : rt.dQueryProj ≠ none
  dQueryBuf : rt.dQueryBuf ≠ none
  dOutputBuf : rt.dOutputBuf ≠ none
  dSampleSt : rt.dSampleSt ≠ none

/-- A complete runtime holds twelve pieces of memory. -/
theorem Runtime.Complete.card_owned {rt : Runtime} (h : rt.Complete) : rt.owned.card = 12 := by
  simp only [Runtime.owned, ModelStateBuffers.owned, Multiset.card_add, card_held, h.cmdRing, h.compRing,
    h.kvArena, h.dStepCount, h.modelState.hiddenBuf, h.modelState.inputProj, h.modelState.residualProj,
    h.modelState.bias, h.dQueryProj, h.dQueryBuf, h.dOutputBuf, h.dSampleSt, if_false]

section Specs

variable {R : Books Memory → Prop} {b : Books Memory} {S : Multiset (Memory × ℕ)} {r : Prop} {p : Option ℕ}

/-! ### Giving back -/

theorem munmap_spec (h : b.Holds (held Memory.mapped p + S) r) (hp : p ≠ none) :
    Ensures R (munmap p) b fun _ b' => b'.Holds S r := by
  rw [munmap, if_neg hp]
  exact h.release

theorem ifSet_spec {k : Memory} {call : Option ℕ → Calls Memory Unit} (h : b.Holds (held k p + S) r)
    (hcall : p ≠ none → Ensures R (call p) b fun _ b' => b'.Holds S r) :
    Ensures R (ifSet p call) b fun _ b' => b'.Holds S r := by
  unfold ifSet
  by_cases hp : p = none
  · rw [if_pos hp]
    rw [hp, held_none, zero_add] at h
    exact Ensures.pure h
  · rw [if_neg hp]
    exact hcall hp

theorem ifSet_cudaFree_spec (h : b.Holds (held Memory.device p + S) r) :
    Ensures R (ifSet p cudaFree) b fun _ b' => b'.Holds S r :=
  ifSet_spec h fun _ => h.release

theorem ifSet_munmap_spec (h : b.Holds (held Memory.mapped p + S) r) :
    Ensures R (ifSet p munmap) b fun _ b' => b'.Holds S r :=
  ifSet_spec h (munmap_spec h)

theorem modelStateDestroy_spec {s : ModelStateBuffers} (h : b.Holds (s.owned + S) r) :
    Ensures R (modelStateDestroy s) b fun _ b' => b'.Holds S r := by
  unfold ModelStateBuffers.owned at h
  rw [add_assoc, add_assoc, add_assoc] at h
  unfold modelStateDestroy
  refine (ifSet_cudaFree_spec h).seq fun _ b₁ h₁ => ?_
  refine (ifSet_cudaFree_spec h₁).seq fun _ b₂ h₂ => ?_
  refine (ifSet_cudaFree_spec h₂).seq fun _ b₃ h₃ => ?_
  exact ifSet_cudaFree_spec h₃

/-- The label `cleanup` gives back everything. -/
theorem runtimeCleanup_spec {rt : Runtime} (h : b.Holds rt.owned r) :
    Ensures R (runtimeCleanup rt) b fun _ b' => b'.Holds 0 r := by
  have howned : rt.owned = held Memory.device rt.dSampleSt + (held Memory.device rt.dOutputBuf +
      (held Memory.device rt.dQueryBuf + (held Memory.device rt.dStepCount +
        (held Memory.device rt.dQueryProj + (rt.modelState.owned + (held Memory.mapped rt.cmdRing +
          (held Memory.mapped rt.compRing + (held Memory.mapped rt.kvArena + 0)))))))) := by
    unfold Runtime.owned
    abel
  rw [howned] at h
  unfold runtimeCleanup
  refine (ifSet_cudaFree_spec h).seq fun _ b₁ h₁ => ?_
  refine (ifSet_cudaFree_spec h₁).seq fun _ b₂ h₂ => ?_
  refine (ifSet_cudaFree_spec h₂).seq fun _ b₃ h₃ => ?_
  refine (ifSet_cudaFree_spec h₃).seq fun _ b₄ h₄ => ?_
  refine (ifSet_spec h₄ fun _ => ifSet_cudaFree_spec h₄).seq fun _ b₅ h₅ => ?_
  refine (modelStateDestroy_spec h₅).seq fun _ b₆ h₆ => ?_
  refine (ifSet_munmap_spec h₆).seq fun _ b₇ h₇ => ?_
  refine (ifSet_munmap_spec h₇).seq fun _ b₈ h₈ => ?_
  exact ifSet_munmap_spec h₈

/-- `runtime_shutdown` gives back everything that a complete runtime holds. -/
theorem runtimeShutdown_spec {rt : Runtime} (h : b.Holds rt.owned r) (hrt : rt.Complete) :
    Ensures R (runtimeShutdown rt) b fun _ b' => b'.Holds 0 r := by
  have howned : rt.owned = held Memory.device rt.dStepCount + (held Memory.device rt.dSampleSt +
      (rt.modelState.owned + (held Memory.device rt.dQueryProj + (held Memory.device rt.dQueryBuf +
        (held Memory.device rt.dOutputBuf + (held Memory.mapped rt.cmdRing + (held Memory.mapped rt.compRing +
          (held Memory.mapped rt.kvArena + 0)))))))) := by
    unfold Runtime.owned
    abel
  rw [howned] at h
  unfold runtimeShutdown
  refine Ensures.seq h.release fun _ b₁ h₁ => ?_
  refine Ensures.seq h₁.release fun _ b₂ h₂ => ?_
  refine (modelStateDestroy_spec h₂).seq fun _ b₃ h₃ => ?_
  refine (ifSet_cudaFree_spec h₃).seq fun _ b₄ h₄ => ?_
  refine Ensures.seq h₄.release fun _ b₅ h₅ => ?_
  refine Ensures.seq h₅.release fun _ b₆ h₆ => ?_
  refine (munmap_spec h₆ hrt.cmdRing).seq fun _ b₇ h₇ => ?_
  refine (munmap_spec h₇ hrt.compRing).seq fun _ b₈ h₈ => ?_
  exact ifSet_munmap_spec h₈

/-! ### Acquiring -/

theorem mapPages_spec (h : b.Holds S r) :
    Ensures R mapPages b fun p b' => b'.Holds (held Memory.mapped p + S) (r ∨ p = none) := by
  unfold mapPages
  refine Ensures.seq (h.acquire .mapped) fun p b₁ h₁ => ?_
  by_cases hp : p = none
  · rw [if_pos hp]
    rw [hp, held_none, zero_add] at h₁
    exact Ensures.mono (h₁.acquire .mapped) fun q b₂ h₂ => h₂.of_imp fun hr => hr.imp_left .inl
  · rw [if_neg hp]
    exact Ensures.pure h₁

theorem arenaInit_spec (h : b.Holds S r) :
    Ensures Books.Refused arenaInit b fun p b' => b'.Holds (held Memory.mapped p + S) r ∧ p ≠ none := by
  unfold arenaInit
  refine (mapPages_spec h).seq fun p b₁ h₁ => ?_
  by_cases hp : p = none
  · rw [if_pos hp]
    exact Ensures.failure (h₁.refused (.inr hp))
  · rw [if_neg hp]
    exact Ensures.pure ⟨h₁.of_imp .inl, hp⟩

theorem freeHost_spec {p q s : Option ℕ}
    (h : b.Holds (held Memory.host s + (held Memory.host q + (held Memory.host p + S))) r) :
    Ensures R (freeHost p q s) b fun _ b' => b'.Holds S r := by
  have hS : held Memory.host s + (held Memory.host q + (held Memory.host p + S)) =
      held Memory.host p + (held Memory.host q + (held Memory.host s + S)) := by abel
  rw [hS] at h
  unfold freeHost
  refine Ensures.seq h.release fun _ b₁ h₁ => ?_
  refine Ensures.seq h₁.release fun _ b₂ h₂ => ?_
  exact h₂.release

/-- What `model_state_init` is to ensure: it holds all of its buffers, or none of them. -/
def ModelStateReady (S : Multiset (Memory × ℕ)) (r : Prop) (x : Bool × ModelStateBuffers) (b : Books Memory) :
    Prop :=
  b.Holds (x.2.owned + S) (r ∨ x.1 = false) ∧ (x.1 = true → x.2.Complete)

theorem modelStateReady_false (h : b.Holds S True) : ModelStateReady S r (false, {}) b := by
  refine ⟨(h.of_eq ?_).of_imp fun _ => trivial, fun hx => absurd hx Bool.false_ne_true⟩
  simp [ModelStateBuffers.owned]

/-- `model_state_init` holds all of its buffers, or none of them. -/
theorem modelStateInit_spec (h : b.Holds S r) : Ensures R (modelStateInit {}) b (ModelStateReady S r) := by
  unfold modelStateInit
  refine Ensures.seq (h.acquire .host) fun hInputProj b₁ h₁ => ?_
  refine Ensures.seq (h₁.acquire .host) fun hResidualProj b₂ h₂ => ?_
  refine Ensures.seq (h₂.acquire .host) fun hBias b₃ h₃ => ?_
  by_cases hhost : hInputProj = none ∨ hResidualProj = none ∨ hBias = none
  · have hrefused : ((r ∨ hInputProj = none) ∨ hResidualProj = none) ∨ hBias = none := by tauto
    rw [if_pos hhost]
    refine (freeHost_spec (h₃.of_refusal hrefused)).seq fun _ b' h' => ?_
    exact Ensures.pure (modelStateReady_false h')
  rw [if_neg hhost]
  replace h₃ := h₃.of_imp fun hr : r => .inl (.inl (.inl hr))
  -- where a buffer is refused, those before it and the copies are given back
  refine h₃.acquire_cases .device (fun c h => ?_) fun hiddenBuf b₄ h₄ => ?_
  · refine (freeHost_spec h).seq fun _ c h => ?_
    exact Ensures.pure (modelStateReady_false h)
  refine h₄.acquire_cases .device (fun c h => ?_) fun inputProj b₅ h₅ => ?_
  · refine Ensures.seq h.release fun _ c h => ?_
    refine (freeHost_spec h).seq fun _ c h => ?_
    exact Ensures.pure (modelStateReady_false h)
  rw [add_left_comm] at h₅
  refine h₅.acquire_cases .device (fun c h => ?_) fun residualProj b₆ h₆ => ?_
  · refine Ensures.seq h.release fun _ c h => ?_
    refine Ensures.seq h.release fun _ c h => ?_
    refine (freeHost_spec h).seq fun _ c h => ?_
    exact Ensures.pure (modelStateReady_false h)
  rw [add_left_comm, add_left_comm (held _ (some residualProj))] at h₆
  refine h₆.acquire_cases .device (fun c h => ?_) fun bias b₇ h₇ => ?_
  · refine Ensures.seq h.release fun _ c h => ?_
    refine Ensures.seq h.release fun _ c h => ?_
    refine Ensures.seq h.release fun _ c h => ?_
    refine (freeHost_spec h).seq fun _ c h => ?_
    exact Ensures.pure (modelStateReady_false h)
  rw [add_left_comm, add_left_comm (held _ (some bias)), add_left_comm (held _ (some bias))] at h₇
  have hS : held Memory.device (some hiddenBuf) + (held Memory.device (some inputProj) +
      (held Memory.device (some residualProj) + (held Memory.device (some bias) +
        (held Memory.host hBias + (held Memory.host hResidualProj + (held Memory.host hInputProj + S)))))) =
      held Memory.host hBias + (held Memory.host hResidualProj + (held Memory.host hInputProj +
        (ModelStateBuffers.owned ⟨some hiddenBuf, some inputProj, some residualProj, some bias⟩ + S))) := by
    unfold ModelStateBuffers.owned
    abel
  refine (freeHost_spec (h₇.of_eq hS)).seq fun _ b' h' => Ensures.pure ⟨h'.of_imp fun hr => ?_, fun _ => ?_⟩
  · exact hr.resolve_right fun hx => absurd hx.symm Bool.false_ne_true
  · exact ⟨Option.some_ne_none _, Option.some_ne_none _, Option.some_ne_none _, Option.some_ne_none _⟩

/-- `query_producer_init` holds its buffer, or nothing. -/
theorem queryProducerInit_spec (h : b.Holds S r) :
    Ensures R (queryProducerInit none) b fun x b' =>
      b'.Holds (held Memory.device x.2 + S) (r ∨ x.1 = false) ∧ (x.1 = true → x.2 ≠ none) := by
  unfold queryProducerInit
  refine h.acquire_cases .host (fun c h => ?_) fun hProj b₁ h₁ => ?_
  · refine Ensures.pure ⟨?_, fun hx => absurd hx Bool.false_ne_true⟩
    rw [held_none, zero_add]
    exact h.of_imp fun _ => trivial
  refine h₁.acquire_cases .device (fun c h => ?_) fun projBuf b₂ h₂ => ?_
  · refine Ensures.seq h.release fun _ c h => Ensures.pure ⟨?_, fun hx => absurd hx Bool.false_ne_true⟩
    rw [held_none, zero_add]
    exact h.of_imp fun _ => trivial
  rw [add_left_comm] at h₂
  refine Ensures.seq h₂.release fun _ b₃ h₃ => Ensures.pure ⟨?_, fun _ => Option.some_ne_none projBuf⟩
  exact h₃.of_imp fun hr => hr.resolve_right fun hx => absurd hx.symm Bool.false_ne_true

/-- What the part of `runtime_init` after `arena_init` is to ensure: the runtime says what is live. -/
def BuffersReady (cmdRing compRing kvArena : ℕ) (x : Bool × Runtime) (b : Books Memory) : Prop :=
  b.Holds x.2.owned (x.1 = false) ∧ x.2.cmdRing = some cmdRing ∧ x.2.compRing = some compRing ∧
    x.2.kvArena = some kvArena ∧ (x.1 = true → x.2.Complete)

theorem buffersReady_false {c d a : ℕ} {rt : Runtime} (h : b.Holds rt.owned True)
    (hc : rt.cmdRing = some c) (hd : rt.compRing = some d) (ha : rt.kvArena = some a) :
    BuffersReady c d a (false, rt) b :=
  ⟨h.of_imp fun _ => trivial, hc, hd, ha, fun hx => absurd hx Bool.false_ne_true⟩

/-- Up to the first request that is refused, or to the end, the runtime says what is live. -/
theorem initBuffers_spec {c d a : ℕ}
    (h : b.Holds (Runtime.owned { cmdRing := some c, compRing := some d, kvArena := some a }) False) :
    Ensures R (initBuffers { cmdRing := some c, compRing := some d, kvArena := some a }) b
      (BuffersReady c d a) := by
  unfold initBuffers
  refine h.acquire_cases .device (fun _ h => ?_) fun dStepCount b₁ h₁ => ?_
  · exact Ensures.pure (buffersReady_false h rfl rfl rfl)
  rw [Runtime.owned_dStepCount _ rfl] at h₁
  refine h₁.ask_cases (fun _ h => ?_) fun b₂ h₂ => ?_
  · exact Ensures.pure (buffersReady_false h rfl rfl rfl)
  refine (modelStateInit_spec h₂).seq fun ⟨ready, modelState⟩ b₃ ⟨h₃, hmodel⟩ => ?_
  dsimp only at h₃ hmodel ⊢
  rw [Runtime.owned_modelState rfl] at h₃
  cases ready with
  | false =>
    rw [if_pos rfl]
    exact Ensures.pure (buffersReady_false (h₃.of_refusal (.inr rfl)) rfl rfl rfl)
  | true =>
  rw [if_neg (Ne.symm Bool.false_ne_true)]
  refine (queryProducerInit_spec h₃).seq fun ⟨ready, dQueryProj⟩ b₄ ⟨h₄, hquery⟩ => ?_
  dsimp only at h₄ hquery ⊢
  rw [Runtime.owned_dQueryProj _ rfl] at h₄
  cases ready with
  | false =>
    rw [if_pos rfl]
    exact Ensures.pure (buffersReady_false (h₄.of_refusal (.inr rfl)) rfl rfl rfl)
  | true =>
  rw [if_neg (Ne.symm Bool.false_ne_true)]
  refine h₄.acquire_cases .device (fun _ h => ?_) fun dQueryBuf b₅ h₅ => ?_
  · exact Ensures.pure (buffersReady_false h rfl rfl rfl)
  rw [Runtime.owned_dQueryBuf _ rfl] at h₅
  refine h₅.acquire_cases .device (fun _ h => ?_) fun dOutputBuf b₆ h₆ => ?_
  · exact Ensures.pure (buffersReady_false h rfl rfl rfl)
  rw [Runtime.owned_dOutputBuf _ rfl] at h₆
  refine h₆.ask_cases (fun _ h => ?_) fun b₇ h₇ => ?_
  · exact Ensures.pure (buffersReady_false h rfl rfl rfl)
  refine h₇.acquire_cases .device (fun _ h => ?_) fun dSampleSt b₈ h₈ => ?_
  · exact Ensures.pure (buffersReady_false h rfl rfl rfl)
  rw [Runtime.owned_dSampleSt _ rfl] at h₈
  refine Ensures.seq h₈.ask fun copied b₉ h₉ => Ensures.pure ⟨h₉.of_imp .inr, rfl, rfl, rfl, ?_⟩
  exact fun _ => ⟨Option.some_ne_none _, Option.some_ne_none _, Option.some_ne_none _,
    Option.some_ne_none _, hmodel rfl, hquery rfl, Option.some_ne_none _, Option.some_ne_none _,
    Option.some_ne_none _⟩

/-- `runtime_init` holds what the runtime names, or nothing. -/
theorem runtimeInit_spec (h : b.Holds 0 False) :
    Ensures Books.Refused runtimeInit b fun rt b' =>
      match rt with
      | none => b'.Holds 0 True
      | some rt => b'.Holds rt.owned False ∧ rt.Complete := by
  unfold runtimeInit
  refine h.ask_cases (fun _ h => ?_) fun b₁ h₁ => ?_
  · have hnull : Runtime.owned {} = 0 := rfl
    exact (runtimeCleanup_spec (h.of_eq hnull.symm)).seq fun _ _ h => Ensures.pure h
  refine (mapPages_spec h₁).seq fun cmdRing b₂ h₂ => ?_
  cases cmdRing with
  | none => exact Ensures.pure (h₂.of_refusal (.inr rfl))
  | some cmdRing =>
  refine (mapPages_spec (h₂.of_imp .inl)).seq fun compRing b₃ h₃ => ?_
  cases compRing with
  | none =>
    have howned : held Memory.mapped none + (held Memory.mapped (some cmdRing) + 0) =
        Runtime.owned { cmdRing := some cmdRing } := by
      simp only [Runtime.owned, ModelStateBuffers.owned, held_none, add_zero, zero_add]
    refine (runtimeCleanup_spec ((h₃.of_refusal (.inr rfl)).of_eq howned)).seq fun _ _ h => ?_
    exact Ensures.pure h
  | some compRing =>
  refine (arenaInit_spec (h₃.of_imp .inl)).seq fun kvArena b₄ ⟨h₄, harena⟩ => ?_
  obtain ⟨kvArena, rfl⟩ := Option.ne_none_iff_exists'.mp harena
  refine (initBuffers_spec (h₄.of_eq (Runtime.owned_pages _ _ _))).seq
    fun ⟨ready, rt⟩ b₅ ⟨h₅, _, _, _, hcomplete⟩ => ?_
  dsimp only at h₅ hcomplete ⊢
  cases ready with
  | false =>
    rw [if_pos rfl]
    exact (runtimeCleanup_spec (h₅.of_refusal rfl)).seq fun _ _ h => Ensures.pure h
  | true =>
    rw [if_neg (Ne.symm Bool.false_ne_true)]
    exact Ensures.pure ⟨h₅.of_imp False.elim, hcomplete rfl⟩

end Specs

/-- With nothing refused, the runtime is set up. -/
example : (runtimeInit.run.run (Books.opened fun _ => true)).1.isSome = true := by decide

end Startup

end RolloutRuntime
