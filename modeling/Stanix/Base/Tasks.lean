import Mathlib.Algebra.BigOperators.Fin
import Mathlib.Algebra.Order.Ring.Int
import Mathlib.Tactic.Abel

/-!
# Tasks that take steps in any order

A system of tasks is a state and a function that makes one step of one task; a run is a list of
steps, so that a statement about every run is one about every interleaving. What each task is doing
is a phase, and a quantity that depends on all tasks is a sum over their phases: when one task moves
to another phase, the sum changes by the difference of the two (`sum_phase_update`).
-/

namespace Stanix.Tasks

variable {σ ι τ φ : Type _} {step : σ → ι → σ}

/-- A run: steps taken one after the other. -/
def run (step : σ → ι → σ) (s : σ) (steps : List ι) : σ := steps.foldl step s

/-- **Invariants.** What every step keeps holds at the end of every run. -/
theorem run_invariant {I : σ → Prop} (hstep : ∀ s i, I s → I (step s i)) {s : σ} (hs : I s)
    (steps : List ι) : I (run step s steps) := by
  induction steps generalizing s with
  | nil => exact hs
  | cons i steps ih => exact ih (hstep s i hs)

/-- Every step of a run satisfies `Q` in the state it is taken in. -/
def StepsAll (step : σ → ι → σ) (Q : σ → ι → Prop) : σ → List ι → Prop
  | _, [] => True
  | s, i :: steps => Q s i ∧ StepsAll step Q (step s i) steps

instance StepsAll.instDecidable {step : σ → ι → σ} {Q : σ → ι → Prop}
    [∀ s i, Decidable (Q s i)] : ∀ s steps, Decidable (StepsAll step Q s steps)
  | _, [] => .isTrue trivial
  | s, i :: steps =>
    @instDecidableAnd _ _ _ (StepsAll.instDecidable (step s i) steps)

/-- What every step that satisfies `Q` keeps holds at the end of every run of such steps. -/
theorem run_invariant_of {I : σ → Prop} {Q : σ → ι → Prop}
    (hstep : ∀ s i, I s → Q s i → I (step s i)) {s : σ} (hs : I s) {steps : List ι}
    (hQ : StepsAll step Q s steps) : I (run step s steps) := by
  induction steps generalizing s with
  | nil => exact hs
  | cons i steps ih => exact ih (hstep s i hs hQ.1) hQ.2

section Sums

variable [DecidableEq τ] [Fintype τ] {M : Type _} [AddCommGroup M]

/-- **A task moves.** A sum over what the tasks are doing, after one of them has moved. -/
theorem sum_phase_update (f : φ → M) (phase : τ → φ) (t : τ) (x : φ) :
    ∑ t', f (Function.update phase t x t') = ∑ t', f (phase t') - f (phase t) + f x := by
  have hrest : ∀ t' ∈ Finset.univ.erase t,
      f (Function.update phase t x t') = f (phase t') := fun t' ht' => by
    rw [Function.update_of_ne (Finset.ne_of_mem_erase ht')]
  rw [← Finset.add_sum_erase _ _ (Finset.mem_univ t), Finset.sum_congr rfl hrest,
    ← Finset.add_sum_erase Finset.univ (fun t' => f (phase t')) (Finset.mem_univ t),
    Function.update_self]
  abel

end Sums

end Stanix.Tasks
