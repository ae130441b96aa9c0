/-
Module: Dedup.Lib.Liveness
Purpose: Infinite runs of a labelled step relation, and fairness for a set of labels, weak and
  strong.  A rank that helpful steps lower and no step raises brings a fair run to its goal.  A
  budget that helpful steps spend bounds how often they are taken: a run in which every step spends
  is finite, and a set of labels that spends is taken no more from some time on.
Imports: Dedup.Lib.Run
Trusted boundary: none
Main exports: InfiniteRun, WeaklyFair, StronglyFair, InfiniteRun.reaches_of_rank,
  InfiniteRun.quiet_of_budget, InfiniteRun.not_of_budget, Run.length_le_of_budget
-/
import Dedup.Lib.Run

namespace Dedup

variable {State Label : Type} {step : State → Label → State → Prop}

/-- An infinite run. -/
structure InfiniteRun (step : State → Label → State → Prop) where
  state : Nat → State
  label : Nat → Label
  next : ∀ k, step (state k) (label k) (state (k + 1))

/-- Some step with a label of `helpful` can be taken. -/
def Enabled (step : State → Label → State → Prop) (helpful : Label → Prop) (s : State) : Prop :=
  ∃ label s', helpful label ∧ step s label s'

/-- Where every step spends of a budget, the budget bounds the length of a run. -/
theorem Run.length_le_of_budget {budget : State → Nat → Prop}
    (spends : ∀ s label s' bound, step s label s' → budget s bound →
      ∃ left, left < bound ∧ budget s' left)
    {s t : State} {labels : List Label} {bound : Nat} (run : Run step s labels t)
    (start : budget s bound) : labels.length ≤ bound := by
  induction run generalizing bound with
  | nil => exact Nat.zero_le _
  | cons hstep _ ih =>
      obtain ⟨left, hless, hrest⟩ := spends _ _ _ _ hstep start
      have hlength := ih hrest
      simp only [List.length_cons]
      omega

namespace InfiniteRun

/-- A set of labels is treated fairly: a step with one of them is taken, or none can be, again and
again. -/
def WeaklyFair (r : InfiniteRun step) (helpful : Label → Prop) : Prop :=
  ∀ k, ∃ m, k ≤ m ∧ (helpful (r.label m) ∨ ¬ Enabled step helpful (r.state m))

/-- A set of labels is treated fairly even where its steps can be taken only now and then: if one
can be, again and again, one is taken again and again. -/
def StronglyFair (r : InfiniteRun step) (helpful : Label → Prop) : Prop :=
  (∀ k, ∃ m, k ≤ m ∧ Enabled step helpful (r.state m)) → ∀ k, ∃ m, k ≤ m ∧ helpful (r.label m)

theorem StronglyFair.weaklyFair {r : InfiniteRun step} {helpful : Label → Prop}
    (fair : r.StronglyFair helpful) : r.WeaklyFair helpful := by
  intro k
  by_cases hagain : ∀ k, ∃ m, k ≤ m ∧ Enabled step helpful (r.state m)
  · obtain ⟨m, hkm, hhelpful⟩ := fair hagain k
    exact ⟨m, hkm, .inl hhelpful⟩
  · push Not at hagain
    obtain ⟨last, hnever⟩ := hagain
    exact ⟨max k last, le_max_left _ _, .inr (hnever _ (le_max_right _ _))⟩

/-- Where the steps of a set are not taken any more, strong fairness says that from some time on none
of them can be. -/
theorem StronglyFair.disabled {r : InfiniteRun step} {helpful : Label → Prop}
    (fair : r.StronglyFair helpful) {k : Nat} (quiet : ∀ m, k ≤ m → ¬ helpful (r.label m)) :
    ∃ last, k ≤ last ∧ ∀ m, last ≤ m → ¬ Enabled step helpful (r.state m) := by
  by_contra hnever
  push Not at hnever
  have hagain : ∀ k', ∃ m, k' ≤ m ∧ Enabled step helpful (r.state m) := by
    intro k'
    obtain ⟨m, hle, henabled⟩ := hnever (max k k') (le_max_left _ _)
    exact ⟨m, (le_max_right _ _).trans hle, henabled⟩
  obtain ⟨m, hle, hhelpful⟩ := fair hagain k
  exact quiet m hle hhelpful

/-- What every step preserves holds from where it holds on. -/
theorem invariant (r : InfiniteRun step) {I : State → Prop}
    (preserved : ∀ s label s', step s label s' → I s → I s') {k m : Nat} (hle : k ≤ m)
    (hinv : I (r.state k)) : I (r.state m) := by
  induction m, hle using Nat.le_induction with
  | base => exact hinv
  | succ m _ ih => exact preserved _ _ _ (r.next m) ih

/-- Steps that spend of a budget, which no other step refills, are not taken any more from some time
on. -/
theorem quiet_of_budget (r : InfiniteRun step) {helpful : Label → Prop}
    {budget : State → Nat → Prop}
    (keeps : ∀ s label s' bound, step s label s' → budget s bound → budget s' bound)
    (spends : ∀ s label s' bound, step s label s' → helpful label → budget s bound →
      ∃ left, left < bound ∧ budget s' left)
    {k bound : Nat} (start : budget (r.state k) bound) :
    ∃ last, k ≤ last ∧ ∀ m, last ≤ m → ¬ helpful (r.label m) := by
  induction bound using Nat.strong_induction_on generalizing k with
  | _ bound ih =>
      by_cases hquiet : ∀ m, k ≤ m → ¬ helpful (r.label m)
      · exact ⟨k, le_refl k, hquiet⟩
      · push Not at hquiet
        obtain ⟨m, hkm, hhelpful⟩ := hquiet
        have hthere : budget (r.state m) bound :=
          r.invariant (fun s label s' hstep h => keeps s label s' bound hstep h) hkm start
        obtain ⟨left, hless, hrest⟩ := spends _ _ _ _ (r.next m) hhelpful hthere
        obtain ⟨last, hle, hquiet⟩ := ih left hless hrest
        exact ⟨last, by omega, hquiet⟩

/-- A budget of which every step spends excludes infinite runs. -/
theorem not_of_budget (r : InfiniteRun step) {budget : State → Nat → Prop}
    (spends : ∀ s label s' bound, step s label s' → budget s bound →
      ∃ left, left < bound ∧ budget s' left)
    {k bound : Nat} (start : budget (r.state k) bound) : False := by
  induction bound using Nat.strong_induction_on generalizing k with
  | _ bound ih =>
      obtain ⟨left, hless, hrest⟩ := spends _ _ _ _ (r.next k) start
      exact ih left hless hrest

/-- A rank that no step raises, and that helpful steps lower, brings a run that is fair to them to
its goal, if one of them can be taken wherever the goal is not reached. -/
theorem reaches_of_rank (r : InfiniteRun step) {helpful : Label → Prop} {I : State → Prop}
    (preserved : ∀ s label s', step s label s' → I s → I s') (goal : State → Prop)
    (rank : State → Nat) (enabled : ∀ s, I s → ¬ goal s → Enabled step helpful s)
    (keeps : ∀ s label s', step s label s' → I s → ¬ goal s → rank s' ≤ rank s)
    (lowers : ∀ s label s', step s label s' → I s → ¬ goal s → helpful label → rank s' < rank s)
    (fair : r.WeaklyFair helpful) {k : Nat} (start : I (r.state k)) :
    ∃ m, k ≤ m ∧ goal (r.state m) := by
  induction hrank : rank (r.state k) using Nat.strong_induction_on generalizing k with
  | _ bound ih =>
      by_contra hnever
      push Not at hnever
      have hinv : ∀ m, k ≤ m → I (r.state m) := fun m hkm => r.invariant preserved hkm start
      have hmono : ∀ m, k ≤ m → rank (r.state m) ≤ rank (r.state k) := by
        intro m hkm
        induction m, hkm using Nat.le_induction with
        | base => exact le_refl _
        | succ m hkm ihm =>
            exact (keeps _ _ _ (r.next m) (hinv m hkm) (hnever m hkm)).trans ihm
      obtain ⟨m, hkm, hhelpful | hdisabled⟩ := fair k
      · have hlower := lowers _ _ _ (r.next m) (hinv m hkm) (hnever m hkm) hhelpful
        have hless : rank (r.state (m + 1)) < bound := by
          have := hmono m hkm
          omega
        obtain ⟨m', hle, hgoal⟩ := ih _ hless (hinv (m + 1) (by omega)) rfl
        exact hnever m' (by omega) hgoal
      · exact hdisabled (enabled _ (hinv m hkm) (hnever m hkm))

end InfiniteRun

end Dedup
