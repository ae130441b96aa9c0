/-
Module: Dedup.Lib.Run
Purpose: Labelled runs of a step relation: how runs compose and split, and the rule that what one
  step preserves a whole run preserves.  A pool of processes is a function from their indices to
  their local states; a quantity summed over the pool changes by what the stepping process
  changes.
Trusted boundary: none
Main exports: Run, Run.append, Run.of_single, Run.eq_of_nil, Run.split, Run.invariant, sum_update, sum_pool, sum_pool_update
-/
import Mathlib

namespace Dedup

variable {State Label : Type}

/-- A finite run of a labelled step relation. -/
inductive Run (step : State → Label → State → Prop) : State → List Label → State → Prop where
  | nil (s : State) : Run step s [] s
  | cons {s s' t : State} {label : Label} {labels : List Label} :
      step s label s' → Run step s' labels t → Run step s (label :: labels) t

namespace Run

variable {step : State → Label → State → Prop} {s t u : State}

theorem append {labels labels' : List Label} (first : Run step s labels t)
    (second : Run step t labels' u) : Run step s (labels ++ labels') u := by
  induction first with
  | nil => exact second
  | cons hstep _ ih => exact .cons hstep (ih second)

/-- A run of one label is a step. -/
theorem of_single {label : Label} (run : Run step s [label] t) : step s label t := by
  cases run with
  | cons hstep rest =>
      cases rest
      exact hstep

/-- A run without labels stays. -/
theorem eq_of_nil (run : Run step s [] t) : t = s := by
  cases run
  rfl

/-- A run of a concatenation passes through a state between the two parts. -/
theorem split {labels labels' : List Label} (run : Run step s (labels ++ labels') u) :
    ∃ t, Run step s labels t ∧ Run step t labels' u := by
  induction labels generalizing s with
  | nil => exact ⟨s, .nil s, run⟩
  | cons label labels ih =>
      cases run with
      | cons hstep rest =>
          rcases ih rest with ⟨t, first, second⟩
          exact ⟨t, .cons hstep first, second⟩

/-- What every step preserves holds at the end of every run that starts with it. -/
theorem invariant {I : State → Prop}
    (preserved : ∀ s label s', step s label s' → I s → I s') {labels : List Label}
    (run : Run step s labels t) (hinv : I s) : I t := by
  induction run with
  | nil => exact hinv
  | cons hstep _ ih => exact ih (preserved _ _ _ hstep hinv)

end Run

/-! ### Pools of processes -/

section Pool

variable {Local M : Type} [AddCommMonoid M] {n : Nat}

/-- A sum over the pool after process `i` moved to `v`. -/
theorem sum_update (pool : Fin n → Local) (i : Fin n) (v : Local) (measure : Local → M) :
    (∑ j, measure (Function.update pool i v j)) + measure (pool i) =
      (∑ j, measure (pool j)) + measure v := by
  have hupdate : (fun j => measure (Function.update pool i v j)) =
      Function.update (fun j => measure (pool j)) i (measure v) := by
    funext j
    by_cases hj : j = i
    · subst hj
      simp
    · simp [hj]
  rw [hupdate, Finset.sum_update_of_mem (Finset.mem_univ i),
    ← Finset.add_sum_erase Finset.univ (fun j => measure (pool j)) (Finset.mem_univ i),
    ← Finset.erase_eq]
  abel

/-- A sum over the pool is what one process adds and what the others add. -/
theorem sum_pool (pool : Fin n → Local) (i : Fin n) (measure : Local → M) :
    ∑ j, measure (pool j) = measure (pool i) + ∑ j ∈ Finset.univ.erase i, measure (pool j) :=
  (Finset.add_sum_erase Finset.univ (fun j => measure (pool j)) (Finset.mem_univ i)).symm

/-- The others add what they added when one process moves. -/
theorem sum_pool_update (pool : Fin n → Local) (i : Fin n) (v : Local) (measure : Local → M) :
    ∑ j, measure (Function.update pool i v j) =
      measure v + ∑ j ∈ Finset.univ.erase i, measure (pool j) := by
  rw [sum_pool (Function.update pool i v) i, Function.update_self]
  congr 1
  refine Finset.sum_congr rfl fun j hj => ?_
  rw [Function.update_of_ne (Finset.ne_of_mem_erase hj)]

end Pool

end Dedup
