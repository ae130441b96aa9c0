/-
Module: Dedup.Lib.Simulation
Purpose: Forward simulations between labelled step relations in which a step of the lower one is
  matched by the run of the upper one that its label stands for, which may be empty, or by some run
  of it.  Runs lift along a simulation, and simulations compose.
Imports: Dedup.Lib.Run
Trusted boundary: none
Main exports: Simulation, Simulation.run, Simulates, Simulates.run, Simulates.trans
-/
import Dedup.Lib.Run

namespace Dedup

variable {Low LowLabel High HighLabel : Type}

/-- A step of `low` with a label is matched, from related states, by a run of `high` with the
labels it stands for. -/
def Simulation (low : Low → LowLabel → Low → Prop) (high : High → HighLabel → High → Prop)
    (labelsOf : LowLabel → List HighLabel) (related : Low → High → Prop) : Prop :=
  ∀ s label s' t, low s label s' → related s t →
    ∃ t', Run high t (labelsOf label) t' ∧ related s' t'

namespace Simulation

variable {low : Low → LowLabel → Low → Prop} {high : High → HighLabel → High → Prop}
  {labelsOf : LowLabel → List HighLabel} {related : Low → High → Prop}

/-- Whole runs are matched by the runs that their labels stand for. -/
theorem run (simulation : Simulation low high labelsOf related) {s s' : Low} {t : High}
    {labels : List LowLabel} (run : Run low s labels s') (start : related s t) :
    ∃ t', Run high t (labels.flatMap labelsOf) t' ∧ related s' t' := by
  induction run generalizing t with
  | nil => exact ⟨t, .nil t, start⟩
  | cons hstep _ ih =>
      rcases simulation _ _ _ t hstep start with ⟨u, first, hrelated⟩
      rcases ih hrelated with ⟨t', second, hend⟩
      exact ⟨t', first.append second, hend⟩

end Simulation

/-- A step of `low` is matched, from related states, by some run of `high`. -/
def Simulates (low : Low → LowLabel → Low → Prop) (high : High → HighLabel → High → Prop)
    (related : Low → High → Prop) : Prop :=
  ∀ s label s' t, low s label s' → related s t →
    ∃ labels t', Run high t labels t' ∧ related s' t'

namespace Simulates

variable {Top TopLabel : Type} {low : Low → LowLabel → Low → Prop}
  {high : High → HighLabel → High → Prop} {top : Top → TopLabel → Top → Prop}
  {related : Low → High → Prop} {related' : High → Top → Prop}

/-- Whole runs are matched by runs. -/
theorem run (simulates : Simulates low high related) {s s' : Low} {t : High}
    {labels : List LowLabel} (run : Run low s labels s') (start : related s t) :
    ∃ labels' t', Run high t labels' t' ∧ related s' t' := by
  induction run generalizing t with
  | nil => exact ⟨[], t, .nil t, start⟩
  | cons hstep _ ih =>
      rcases simulates _ _ _ t hstep start with ⟨first, u, hfirst, hrelated⟩
      rcases ih hrelated with ⟨second, t', hsecond, hend⟩
      exact ⟨first ++ second, t', hfirst.append hsecond, hend⟩

/-- A simulation of a simulation. -/
theorem trans (lower : Simulates low high related) (upper : Simulates high top related') :
    Simulates low top fun s u => ∃ t, related s t ∧ related' t u := by
  rintro s label s' u hstep ⟨t, hst, htu⟩
  rcases lower s label s' t hstep hst with ⟨labels, t', hrun, hst'⟩
  rcases upper.run hrun htu with ⟨labels', u', hrun', htu'⟩
  exact ⟨labels', u', hrun', t', hst', htu'⟩

end Simulates

end Dedup
