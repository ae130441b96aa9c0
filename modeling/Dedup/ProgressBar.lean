/-
Module: Dedup.ProgressBar
Purpose: The fraction of the progress bar.  The total counts a file before it is queued and the
  completed count follows after its visit, so what separates them is the backlog: the file `main`
  has in its hands, the queue, and the files of the workers.  Every step keeps that balance, and
  the bar is displayed with a total of zero exactly where the traversal fails before its first
  file.
Imports: Dedup.WorkQueue
Trusted boundary: the counters stay below `2 ^ 64`; conversions to `double`, divisions and products
  are rounded as `Rounding` says
Main exports: barWidth, Rounding, Progress.complete, Progress.Displayable, SerialStep, backlog,
  BarStep, Displays, displays_displayable_iff, failed_root_displayed
-/
import Dedup.WorkQueue

namespace Dedup.WorkQueue

/-! ### The bar -/

/-- `width` of `display_progress`: computed in `size_t`, so that a terminal of a few columns wraps
around, with 6 columns for a note that is `NULL`. -/
def barWidth (wsCol : BitVec 16) (note : Option (List Char)) : Nat :=
  let width := wsCol.setWidth 64 - 23 - BitVec.ofNat 64 ((note.map List.length).getD 6)
  if width < 80 then width.toNat else 80

theorem barWidth_le (wsCol : BitVec 16) (note : Option (List Char)) : barWidth wsCol note ≤ 80 := by
  simp only [barWidth]
  split
  · rename_i hlt
    exact (BitVec.lt_def.mp hlt).le
  · exact Nat.le_refl _

/-- How `double` rounds: in order, and not at all where an integer is small enough. -/
structure Rounding where
  round : ℚ → ℚ
  monotone : Monotone round
  exact : ∀ n : ℕ, n ≤ 2 ^ 53 → round n = n

/-- Exact arithmetic rounds so. -/
instance : Inhabited Rounding where
  default := { round := id, monotone := monotone_id, exact := fun _ _ => rfl }

namespace Rounding

variable (rounding : Rounding)

theorem round_zero : rounding.round 0 = 0 := by
  simpa using rounding.exact 0 (by norm_num)

theorem round_one : rounding.round 1 = 1 := by
  simpa using rounding.exact 1 (by norm_num)

end Rounding

namespace Progress

/-- `percent_complete`, where the division has a quotient. -/
def percentComplete (rounding : Rounding) (p : Progress) : Option ℚ :=
  if p.totalUnitCount = 0 then none
  else
    some (rounding.round
      (rounding.round p.completedUnitCount / rounding.round p.totalUnitCount))

/-- `complete`, where the product is in the range of `size_t`. -/
def complete (rounding : Rounding) (p : Progress) (width : Nat) : Option Nat := do
  let percent ← p.percentComplete rounding
  let columns := ⌊rounding.round (rounding.round width * percent)⌋₊
  if columns < 2 ^ 64 then some columns else none

/-- The counters are in order, the division has a quotient, and the filled part of a bar of any
terminal and note fits into it. -/
structure Displayable (p : Progress) : Prop where
  counted : 1 ≤ p.totalUnitCount
  bounded : p.completedUnitCount ≤ p.totalUnitCount
  divided : ∀ rounding, p.percentComplete rounding ≠ none
  converted : ∀ rounding wsCol note, ∃ columns,
    p.complete rounding (barWidth wsCol note) = some columns ∧ columns ≤ barWidth wsCol note

/-- A fraction of counters in order is at most 1. -/
theorem percentComplete_le_one (rounding : Rounding) {p : Progress}
    (hcounted : 1 ≤ p.totalUnitCount) (hbounded : p.completedUnitCount ≤ p.totalUnitCount) :
    ∃ percent, p.percentComplete rounding = some percent ∧ percent ≤ 1 := by
  have hcompleted : rounding.round p.completedUnitCount ≤ rounding.round p.totalUnitCount :=
    rounding.monotone (by exact_mod_cast hbounded)
  have htotal : 0 ≤ rounding.round p.totalUnitCount := by
    rw [← rounding.round_zero]
    exact rounding.monotone (Nat.cast_nonneg _)
  refine ⟨_, if_neg (Nat.one_le_iff_ne_zero.mp hcounted), ?_⟩
  calc rounding.round (rounding.round p.completedUnitCount / rounding.round p.totalUnitCount)
      ≤ rounding.round 1 := rounding.monotone (div_le_one_of_le₀ hcompleted htotal)
    _ = 1 := rounding.round_one

/-- Such a fraction fills at most the bar. -/
theorem complete_le (rounding : Rounding) {p : Progress} {percent : ℚ}
    (hpercent : p.percentComplete rounding = some percent) (hle : percent ≤ 1) {width : Nat}
    (hwidth : width ≤ 80) : ∃ columns, p.complete rounding width = some columns ∧
      columns ≤ width := by
  have hexact : rounding.round width = width := rounding.exact width (by omega)
  have hbelow : (width : ℚ) * percent ≤ width :=
    mul_le_of_le_one_right (Nat.cast_nonneg _) hle
  have hproduct : rounding.round (rounding.round width * percent) ≤ width := by
    calc rounding.round (rounding.round width * percent)
        = rounding.round (width * percent) := by rw [hexact]
      _ ≤ rounding.round width := rounding.monotone hbelow
      _ = width := hexact
  have hcolumns := Nat.floor_le_of_le hproduct
  refine ⟨_, ?_, hcolumns⟩
  simp only [complete, hpercent, Option.bind_eq_bind, Option.bind_some]
  exact if_pos (by omega)

/-- Counters in order are enough. -/
theorem displayable_iff {p : Progress} :
    p.Displayable ↔ 1 ≤ p.totalUnitCount ∧ p.completedUnitCount ≤ p.totalUnitCount := by
  constructor
  · intro h
    exact ⟨h.counted, h.bounded⟩
  · rintro ⟨hcounted, hbounded⟩
    refine ⟨hcounted, hbounded, fun rounding => ?_, fun rounding wsCol note => ?_⟩
    · obtain ⟨percent, hpercent, _⟩ := percentComplete_le_one rounding hcounted hbounded
      simp [hpercent]
    · obtain ⟨percent, hpercent, hle⟩ := percentComplete_le_one rounding hcounted hbounded
      exact complete_le rounding hpercent hle (barWidth_le wsCol note)

end Progress

section Machine

variable {α : Type} {n : Nat}

/-! ### Without threads -/

/-- The steps of a process with `thread_count == 0`.  Worker 0 is `main`'s own call of
`dedup_work`: `main` is in its loop where that call has returned, and an append enters it. -/
inductive SerialStep : State α 1 → Label 1 → State α 1 → Prop where
  /-- A step of `main` other than an append. -/
  | main {s s' : State α 1} {label : Label 1} (hstep : Step s label s')
      (hlabel : label = .readFailed ∨ label = .count ∨ label = .finish)
      (outside : s.workers 0 = .returned) : SerialStep s label s'
  /-- `main` appends an entry and calls `dedup_work`. -/
  | append {s s' : State α 1} (hstep : Step s .append s') (outside : s.workers 0 = .returned) :
      SerialStep s .append (s'.setWorker 0 .starting)
  /-- A step of the call before its progress section. -/
  | work {s s' : State α 1} {label : Label 1} (hstep : Step s label s')
      (hlabel : label = .enter 0 ∨ label = .popEmpty 0 ∨ label = .pop 0 ∨ label = .check 0 ∨
        label = .visit 0) : SerialStep s label s'
  /-- The progress section, after which the call leaves its loop. -/
  | complete {s s' : State α 1} (hstep : Step s (.complete 0) s') :
      SerialStep s (.complete 0) (s'.setWorker 0 .returned)

/-- `main` at the start of a traversal without threads. -/
def serialInit (entries : List (Traversed α)) (progress : Option Progress) : State α 1 :=
  { (State.init entries progress : State α 1) with workers := fun _ => .returned }

/-! ### The balance of the two counters -/

/-- Whether a worker holds an entry that is not counted as complete. -/
def unfinished : WorkerPc α → Nat
  | .visiting _ | .completing => 1
  | .starting | .popping | .checking | .returned => 0

/-- Whether `main` holds an entry that it has counted. -/
def unappended : MainPc α → Nat
  | .appending _ _ => 1
  | .reading _ | .joining => 0

/-- The entries that are counted and not complete. -/
def backlog (s : State α n) : Nat :=
  unappended s.main + s.queue.length + ∑ i, unfinished (s.workers i)

/-- The next entry of the traversal has `fts_errno` set. -/
def FailsNext (s : State α n) : Prop :=
  ∃ rest, s.main = .reading (.failed :: rest)

/-- What a step does to the bar: nothing, or one of the three sections that display it. -/
inductive BarStep (s s' : State α n) : Prop where
  | quiet (progress : s'.progress = s.progress) (displayed : s'.displayed = s.displayed)
      (balance : backlog s' = backlog s) (next : FailsNext s' → FailsNext s ∨ 1 ≤ backlog s)
  | failed (progress : s'.progress = s.progress)
      (displayed : s'.displayed = s.displayed ++ s'.progress.toList)
      (balance : backlog s' = backlog s) (reported : FailsNext s)
  | counted
      (progress : s'.progress =
        s.progress.map fun p => { p with totalUnitCount := p.totalUnitCount + 1 })
      (displayed : s'.displayed = s.displayed ++ s'.progress.toList)
      (balance : backlog s' = backlog s + 1)
  | completed
      (progress : s'.progress =
        s.progress.map fun p => { p with completedUnitCount := p.completedUnitCount + 1 })
      (displayed : s'.displayed = s.displayed ++ s'.progress.toList)
      (balance : backlog s' + 1 = backlog s)

/-- The backlog after worker `i` moved to `pc`. -/
theorem backlog_setWorker (s : State α n) (i : Fin n) (pc : WorkerPc α) :
    backlog (s.setWorker i pc) + unfinished (s.workers i) = backlog s + unfinished pc := by
  have hands := sum_update s.workers i pc unfinished
  simp only [backlog, State.setWorker_main, State.setWorker_queue]
  simp only [State.setWorker]
  omega

@[simp] theorem backlog_display (s : State α n) (update : Progress → Progress) :
    backlog (s.display update) = backlog s := rfl

/-- A worker that moves between two points without an entry does not touch the bar. -/
theorem barStep_setWorker {s : State α n} {i : Fin n} {pc : WorkerPc α}
    (h : unfinished pc = unfinished (s.workers i)) : BarStep s (s.setWorker i pc) := by
  have balance := backlog_setWorker s i pc
  exact .quiet rfl rfl (by omega) Or.inl

/-- The steps of a process with threads. -/
theorem barStep_of_step {s s' : State α n} {label : Label n} (hstep : Step s label s') :
    BarStep s s' := by
  cases hstep with
  | readFailed rest pc =>
      refine .failed (by simp [State.display]) (by simp [State.display]) ?_ ⟨rest, pc⟩
      simp [backlog, unappended, pc]
  | count entry rest pc =>
      refine .counted rfl rfl ?_
      simp only [backlog, unappended, pc, State.display_queue, State.display_workers]
      omega
  | append entry rest pc =>
      refine .quiet rfl rfl ?_ fun _ => .inr ?_
      · simp only [backlog, unappended, pc, List.length_append, List.length_singleton]
        omega
      · simp only [backlog, unappended, pc]
        omega
  | finish pc =>
      refine .quiet rfl rfl (by simp [backlog, unappended, pc]) ?_
      rintro ⟨rest, hmain⟩
      cases hmain
  | enter i pc =>
      apply barStep_setWorker
      rw [pc]
      split <;> rfl
  | popEmpty i pc empty =>
      apply barStep_setWorker
      rw [pc]
      rfl
  | pop i entry rest pc front =>
      -- the entry leaves the queue for the worker's hand
      refine .quiet rfl rfl ?_ Or.inl
      have balance := backlog_setWorker s i (.visiting entry)
      simp only [backlog, pc, front, unfinished, State.setWorker_main, State.setWorker_queue,
        List.length_cons] at balance ⊢
      omega
  | check i pc =>
      apply barStep_setWorker
      rw [pc]
      split <;> rfl
  | visit i entry pc =>
      refine .quiet rfl rfl ?_ Or.inl
      have balance := backlog_setWorker s i .completing
      simp only [backlog, pc, unfinished, State.setWorker_main, State.setWorker_queue] at balance ⊢
      omega
  | complete i pc =>
      refine .completed rfl rfl ?_
      have balance := backlog_setWorker (s.display fun p =>
        { p with completedUnitCount := p.completedUnitCount + 1 }) i .popping
      simp only [backlog_display, State.display_workers, pc, unfinished] at balance
      exact balance

/-- Moving a worker between two points without an entry changes no step's effect on the bar. -/
theorem BarStep.setWorker {s s' : State α n} (h : BarStep s s') {i : Fin n} {pc : WorkerPc α}
    (hpc : unfinished pc = unfinished (s'.workers i)) : BarStep s (s'.setWorker i pc) := by
  have balance := backlog_setWorker s' i pc
  cases h with
  | quiet progress displayed hbalance next =>
      exact .quiet progress displayed (by omega) next
  | failed progress displayed hbalance reported =>
      exact .failed progress displayed (by omega) reported
  | counted progress displayed hbalance => exact .counted progress displayed (by omega)
  | completed progress displayed hbalance => exact .completed progress displayed (by omega)

/-- The steps of a process without threads. -/
theorem barStep_of_serialStep {s s' : State α 1} {label : Label 1}
    (hstep : SerialStep s label s') : BarStep s s' := by
  cases hstep with
  | main hstep => exact barStep_of_step hstep
  | append hstep outside =>
      apply (barStep_of_step hstep).setWorker
      cases hstep with
      | append entry rest pc => simp [outside, unfinished]
  | work hstep => exact barStep_of_step hstep
  | complete hstep =>
      apply (barStep_of_step hstep).setWorker
      cases hstep with
      | complete _ pc => simp [State.setWorker, unfinished]

/-! ### Runs -/

/-- The total is the completed count and the backlog; it is not zero where the traversal is about to
fail, and was not where the bar was displayed. -/
structure BarInvariant (s : State α n) : Prop where
  balanced : ∀ p, s.progress = some p → p.completedUnitCount + backlog s = p.totalUnitCount
  counted : ∀ p, s.progress = some p → FailsNext s → 1 ≤ p.totalUnitCount
  displayable : ∀ p ∈ s.displayed, 1 ≤ p.totalUnitCount ∧ p.completedUnitCount ≤ p.totalUnitCount

/-- A step that displays the bar keeps the invariant where it displays a total in balance. -/
theorem barInvariant_of_display {s s' : State α n} (hinv : BarInvariant s)
    (displayed : s'.displayed = s.displayed ++ s'.progress.toList)
    (hbalanced : ∀ p, s'.progress = some p →
      1 ≤ p.totalUnitCount ∧ p.completedUnitCount + backlog s' = p.totalUnitCount) :
    BarInvariant s' := by
  refine ⟨fun p hp => (hbalanced p hp).2, fun p hp _ => (hbalanced p hp).1, fun p hp => ?_⟩
  rw [displayed, List.mem_append, Option.mem_toList] at hp
  rcases hp with hp | hp
  · exact hinv.displayable p hp
  · obtain ⟨hcounted, hbalance⟩ := hbalanced p hp
    exact ⟨hcounted, Nat.le.intro hbalance⟩

/-- Every step keeps the balance. -/
theorem barInvariant_step {s s' : State α n} (hstep : BarStep s s') (hinv : BarInvariant s) :
    BarInvariant s' := by
  cases hstep with
  | quiet progress displayed balance next =>
      refine ⟨?_, ?_, ?_⟩
      · intro p hp
        rw [balance]
        exact hinv.balanced p (progress ▸ hp)
      · intro p hp hfails
        have hp : s.progress = some p := progress ▸ hp
        rcases next hfails with hfails | hbacklog
        · exact hinv.counted p hp hfails
        · have hbalance := hinv.balanced p hp
          omega
      · rw [displayed]
        exact hinv.displayable
  | failed progress displayed balance reported =>
      apply barInvariant_of_display hinv displayed
      intro p hp
      have hp : s.progress = some p := progress ▸ hp
      rw [balance]
      exact ⟨hinv.counted p hp reported, hinv.balanced p hp⟩
  | counted progress displayed balance =>
      apply barInvariant_of_display hinv displayed
      intro p hp
      rw [progress, Option.map_eq_some_iff] at hp
      obtain ⟨before, hbefore, rfl⟩ := hp
      have hbalance := hinv.balanced before hbefore
      dsimp only
      omega
  | completed progress displayed balance =>
      -- the completed file was in the backlog, so it had been counted
      apply barInvariant_of_display hinv displayed
      intro p hp
      rw [progress, Option.map_eq_some_iff] at hp
      obtain ⟨before, hbefore, rfl⟩ := hp
      have hbalance := hinv.balanced before hbefore
      dsimp only
      omega

end Machine

section Scan

variable {α : Type}

/-- `dc.progress` at the start of the traversal. -/
def initProgress (shown : Bool) : Option Progress :=
  if shown then some { totalUnitCount := 0, completedUnitCount := 0 } else none

/-- In some run of a scan with `threads` threads, `display_progress` is called with `p`. -/
def Displays (threads : Nat) (entries : List (Traversed α)) (shown : Bool) (p : Progress) : Prop :=
  match threads with
  | 0 => ∃ (s : State α 1) (labels : List (Label 1)),
      Run SerialStep (serialInit entries (initProgress shown)) labels s ∧ p ∈ s.displayed
  | n + 1 => ∃ (s : State α (n + 1)) (labels : List (Label (n + 1))),
      Run Step (State.init entries (initProgress shown)) labels s ∧ p ∈ s.displayed

/-- A scan that does not begin with a failure begins in balance. -/
theorem barInvariant_init {n : Nat} {entries : List (Traversed α)} {shown : Bool}
    (h : shown = false ∨ entries.head? ≠ some .failed) :
    BarInvariant (State.init entries (initProgress shown) : State α n) := by
  refine ⟨?_, ?_, by simp [State.init]⟩
  · intro p hp
    cases shown with
    | false => simp [State.init, initProgress] at hp
    | true =>
        simp only [State.init, initProgress, if_true, Option.some.injEq] at hp
        subst hp
        simp [backlog, State.init, unappended, unfinished]
  · rintro p hp ⟨rest, hmain⟩
    rcases h with hshown | hhead
    · simp [State.init, initProgress, hshown] at hp
    · simp only [State.init, MainPc.reading.injEq] at hmain
      simp [hmain] at hhead

/-- So does one without threads. -/
theorem barInvariant_serialInit {entries : List (Traversed α)} {shown : Bool}
    (h : shown = false ∨ entries.head? ≠ some .failed) :
    BarInvariant (serialInit entries (initProgress shown)) := by
  have hinit : serialInit entries (initProgress shown) =
      (State.init entries (initProgress shown)).setWorker 0 .returned := by
    have hworkers : (fun _ => .returned : Fin 1 → WorkerPc α) =
        Function.update (fun _ => .starting) 0 .returned := by
      funext i
      rw [Subsingleton.elim i 0, Function.update_self]
    simp only [serialInit, State.setWorker, hworkers, State.init]
  rw [hinit]
  exact barInvariant_step (barStep_setWorker rfl) (barInvariant_init h)

/-- Where the traversal fails at once, the first step of `main` displays the bar before anything is
counted. -/
theorem displays_zero (threads : Nat) (rest : List (Traversed α)) :
    Displays threads (.failed :: rest) true ⟨0, 0⟩ := by
  cases threads with
  | zero =>
      refine ⟨_, [.readFailed], .cons (.main (.readFailed _ rest rfl) (.inl rfl) ?_) (.nil _), ?_⟩
      · rfl
      · simp [serialInit, State.display, State.init, initProgress]
  | succ n =>
      refine ⟨_, [.readFailed], .cons (.readFailed _ rest rfl) (.nil _), ?_⟩
      simp [State.display, State.init, initProgress]

/-- What a run displays that does not begin with a failure. -/
theorem displayed_of_run {threads : Nat} {entries : List (Traversed α)} {shown : Bool}
    (h : shown = false ∨ entries.head? ≠ some .failed) {p : Progress}
    (hp : Displays threads entries shown p) :
    1 ≤ p.totalUnitCount ∧ p.completedUnitCount ≤ p.totalUnitCount := by
  cases threads with
  | zero =>
      obtain ⟨s, labels, run, hmem⟩ := hp
      have hinv : BarInvariant s := run.invariant (I := BarInvariant)
        (fun _ _ _ hstep => barInvariant_step (barStep_of_serialStep hstep))
        (barInvariant_serialInit h)
      exact hinv.displayable p hmem
  | succ n =>
      obtain ⟨s, labels, run, hmem⟩ := hp
      have hinv : BarInvariant s := run.invariant (I := BarInvariant)
        (fun _ _ _ hstep => barInvariant_step (barStep_of_step hstep)) (barInvariant_init h)
      exact hinv.displayable p hmem

/-- The bar is displayed with a well-defined fraction in every run of a scan, with any number of
threads, exactly when there is no bar or the traversal does not fail before its first file. -/
theorem displays_displayable_iff (threads : Nat) (entries : List (Traversed α)) (shown : Bool) :
    (∀ p, Displays threads entries shown p → p.Displayable) ↔
      (shown = false ∨ entries.head? ≠ some .failed) := by
  constructor
  · intro hdisplayable
    by_contra hnot
    push Not at hnot
    obtain ⟨hshown, hhead⟩ := hnot
    obtain rfl : shown = true := by simpa using hshown
    obtain ⟨rest, rfl⟩ := List.head?_eq_some_iff.mp hhead
    exact absurd (hdisplayable _ (displays_zero threads rest)).counted (by decide)
  · intro h p hp
    exact Progress.displayable_iff.mpr (displayed_of_run h hp)

/-- A scan of one root that cannot be read displays a bar of zero in zero. -/
theorem failed_root_displayed :
    ¬∀ p, Displays 1 [(.failed : Traversed Nat)] true p → p.Displayable := by
  intro hdisplayable
  exact absurd (hdisplayable _ (displays_zero 1 [])).counted (by decide)

end Scan

end Dedup.WorkQueue
