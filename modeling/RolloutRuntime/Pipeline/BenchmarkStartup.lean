import RolloutRuntime.Decode.Startup

/-!
# The memory of the pipeline benchmarks

The two pipeline benchmarks set up the same memory as the runtime, with two differences. If one of the rings
cannot be had, `bench_init` returns at once and does not give the other one back; and what it does at its
label `cleanup` does not include the arena. So a failure may leave one piece of memory live: one ring, or the
arena.

The traced benchmark also initializes its trace ring, which needs no memory.

## Main definitions

* `benchCleanup`, `benchInit`, `benchShutdown`.

## Main results

* `benchInit_leaves`: what is live after `bench_init`.

## References

* `bench/bench_pipeline.cu` lines 66–168, `bench/bench_trace_pipeline.cu` lines 65–168.
-/

namespace RolloutRuntime

namespace Startup

open Resources

/-- What `bench_init` does at its label `cleanup`. -/
def benchCleanup (ctx : Runtime) : Calls Memory Unit := do
  ifSet ctx.dStepCount cudaFree
  ifSet ctx.dSampleSt cudaFree
  ifSet ctx.dOutputBuf cudaFree
  ifSet ctx.dQueryBuf cudaFree
  ifSet ctx.dQueryProj queryProducerDestroy
  modelStateDestroy ctx.modelState
  ifSet ctx.cmdRing ringDestroy
  ifSet ctx.compRing compRingDestroy

/-- `bench_init`; the flag is that it returns `0`. -/
def benchInit : Calls Memory (Bool × Runtime) := do
  -- `cudaSetDevice`
  let selected ← ask
  if selected = false then
    benchCleanup {}
    return (false, {})
  -- `cudaGetDeviceProperties`
  let known ← ask
  if known = false then
    benchCleanup {}
    return (false, {})
  let cmdRing ← ringCreate
  let compRing ← compRingCreate
  let ctx : Runtime := { cmdRing := cmdRing, compRing := compRing }
  if cmdRing = none ∨ compRing = none then return (false, ctx)
  let kvArena ← arenaInit
  let (ready, ctx) ← initBuffers { ctx with kvArena := kvArena }
  if ready = false then
    benchCleanup ctx
    return (false, ctx)
  return (true, ctx)

/-- What `bench_shutdown` gives back. -/
def benchShutdown (ctx : Runtime) : Calls Memory Unit := runtimeShutdown ctx

section Specs

variable {R : Books Memory → Prop} {b : Books Memory} {r : Prop}

/-- The label `cleanup` gives back everything but the arena. -/
theorem benchCleanup_spec {ctx : Runtime} (h : b.Holds ctx.owned r) :
    Ensures R (benchCleanup ctx) b fun _ b' => b'.Holds (held Memory.mapped ctx.kvArena) r := by
  have howned : ctx.owned = held Memory.device ctx.dStepCount + (held Memory.device ctx.dSampleSt +
      (held Memory.device ctx.dOutputBuf + (held Memory.device ctx.dQueryBuf +
        (held Memory.device ctx.dQueryProj + (ctx.modelState.owned + (held Memory.mapped ctx.cmdRing +
          (held Memory.mapped ctx.compRing + held Memory.mapped ctx.kvArena))))))) := by
    unfold Runtime.owned
    abel
  rw [howned] at h
  unfold benchCleanup
  refine (ifSet_cudaFree_spec h).seq fun _ b₁ h₁ => ?_
  refine (ifSet_cudaFree_spec h₁).seq fun _ b₂ h₂ => ?_
  refine (ifSet_cudaFree_spec h₂).seq fun _ b₃ h₃ => ?_
  refine (ifSet_cudaFree_spec h₃).seq fun _ b₄ h₄ => ?_
  refine (ifSet_spec h₄ fun _ => ifSet_cudaFree_spec h₄).seq fun _ b₅ h₅ => ?_
  refine (modelStateDestroy_spec h₅).seq fun _ b₆ h₆ => ?_
  refine (ifSet_munmap_spec h₆).seq fun _ b₇ h₇ => ?_
  exact ifSet_munmap_spec h₇

/-- What a failure of `bench_init` leaves: the arena, if the failure came after it, and else the ring that
could be had. -/
def leftBehind (ctx : Runtime) : Multiset (Memory × ℕ) :=
  if ctx.kvArena = none then held Memory.mapped ctx.cmdRing + held Memory.mapped ctx.compRing
  else held Memory.mapped ctx.kvArena

/-- What `bench_init` is to ensure. -/
def BenchReady (x : Bool × Runtime) (b : Books Memory) : Prop :=
  if x.1 then b.Holds x.2.owned False ∧ x.2.Complete
  else b.Holds (leftBehind x.2) True ∧
    (x.2.kvArena = none → x.2.cmdRing = none ∨ x.2.compRing = none)

theorem benchInit_spec (h : b.Holds 0 False) : Ensures Books.Refused benchInit b BenchReady := by
  unfold benchInit
  have hnull : Runtime.owned {} = 0 := rfl
  refine h.ask_cases (fun _ h => ?_) fun b₁ h₁ => ?_
  · refine (benchCleanup_spec (h.of_eq hnull.symm)).seq fun _ _ h => ?_
    exact Ensures.pure ⟨h, fun _ => .inl rfl⟩
  refine h₁.ask_cases (fun _ h => ?_) fun b₂ h₂ => ?_
  · refine (benchCleanup_spec (h.of_eq hnull.symm)).seq fun _ _ h => ?_
    exact Ensures.pure ⟨h, fun _ => .inl rfl⟩
  refine (mapPages_spec h₂).seq fun cmdRing b₃ h₃ => ?_
  refine (mapPages_spec h₃).seq fun compRing b₄ h₄ => ?_
  by_cases hrings : cmdRing = none ∨ compRing = none
  · -- the other ring is not given back
    have hrefused : (False ∨ cmdRing = none) ∨ compRing = none := by tauto
    rw [if_pos hrings]
    refine Ensures.pure ⟨(h₄.of_refusal hrefused).of_eq ?_, fun _ => hrings⟩
    rw [leftBehind, if_pos rfl, add_zero, add_comm]
  rw [if_neg hrings]
  obtain ⟨hcmd, hcomp⟩ := not_or.mp hrings
  obtain ⟨cmdRing, rfl⟩ := Option.ne_none_iff_exists'.mp hcmd
  obtain ⟨compRing, rfl⟩ := Option.ne_none_iff_exists'.mp hcomp
  refine (arenaInit_spec (h₄.of_imp fun hr : False => .inl (.inl hr))).seq fun kvArena b₅ hready => ?_
  obtain ⟨h₅, harena⟩ := hready
  obtain ⟨kvArena, rfl⟩ := Option.ne_none_iff_exists'.mp harena
  refine (initBuffers_spec (h₅.of_eq (Runtime.owned_pages _ _ _))).seq fun x b₆ hready => ?_
  obtain ⟨ready, ctx⟩ := x
  obtain ⟨h₆, -, -, hkv, hcomplete⟩ := hready
  dsimp only at h₆ hkv hcomplete ⊢
  cases ready with
  | false =>
    rw [if_pos rfl]
    refine (benchCleanup_spec (h₆.of_refusal rfl)).seq fun _ _ h => ?_
    have hne : ctx.kvArena ≠ none := hkv ▸ Option.some_ne_none kvArena
    exact Ensures.pure ⟨h.of_eq (if_neg hne).symm, fun hnone => absurd hnone hne⟩
  | true =>
    rw [if_neg (Ne.symm Bool.false_ne_true)]
    exact Ensures.pure ⟨h₆.of_imp False.elim, hcomplete rfl⟩

end Specs

/-- A device allocation that fails leaves the arena; pages that fail once leave the command ring. -/
example :
    (benchInit.run.run (Books.opened (· ≠ 5))).2.live.card = 1 ∧
      (benchInit.run.run (Books.opened (fun n => n ≠ 3 ∧ n ≠ 4))).2.live.card = 1 := by
  decide

end Startup

end RolloutRuntime
