/-
Module: Dedup.WorkQueue
Purpose: The scan's work queue: `main` appends the eligible files of the traversal and then sets
  `done`; every worker thread runs `dedup_work`.  The atomic steps are the lock-protected
  sections, the unlocked first read of `done`, and `visit_entry`.  A worker leaves when it reads
  `done` after a pop that found the queue empty, so an append between that pop and that read is
  seen by nobody.
Imports: Dedup.Lib.Run
Trusted boundary: human-reviewed spec of the lock-protected sections as atomic steps
Main exports: Traversed, WorkerPc, State, Step, State.init, account_run, PopsAfterLastAppend,
  shutdown_drains_iff, shutdown_loses_file
-/
import Dedup.Lib.Run

namespace Dedup.WorkQueue

/-- What one turn of the `fts_read` loop meets: an entry with `fts_errno` set, or a file that
passes every test of the loop. -/
inductive Traversed (α : Type) where
  | failed
  | eligible (entry : α)
deriving DecidableEq, Repr

/-- The files of a traversal that `main` appends, in order. -/
def eligible {α : Type} : List (Traversed α) → List α
  | [] => []
  | .failed :: rest => eligible rest
  | .eligible entry :: rest => entry :: eligible rest

/-- Where `main` is: in the `fts_read` loop, between its progress section and its append, or
past `done = 1`. -/
inductive MainPc (α : Type) where
  | reading (rest : List (Traversed α))
  | appending (entry : α) (rest : List (Traversed α))
  | joining
deriving DecidableEq, Repr

/-- Where a worker is in `dedup_work`. -/
inductive WorkerPc (α : Type) where
  | starting
  | popping
  | checking
  | visiting (entry : α)
  | completing
  | returned
deriving DecidableEq, Repr

/-- The counters of the progress bar. -/
structure Progress where
  totalUnitCount : Nat
  completedUnitCount : Nat
deriving DecidableEq, Repr

/-- The shared state of `main` and `n` workers.  `visited` lists the entries passed to
`visit_entry` and `displayed` the counters at each call of `display_progress`; `progress` is
`none` where the context's pointer is `NULL`. -/
structure State (α : Type) (n : Nat) where
  main : MainPc α
  queue : List α
  done : Bool
  workers : Fin n → WorkerPc α
  visited : List α
  progress : Option Progress
  displayed : List Progress

/-- The atomic steps.  `popEmpty` and `pop` are one section of the source, told apart by what
`file_entry_next` finds. -/
inductive Label (n : Nat) where
  | readFailed
  | count
  | append
  | finish
  | enter (i : Fin n)
  | popEmpty (i : Fin n)
  | pop (i : Fin n)
  | check (i : Fin n)
  | visit (i : Fin n)
  | complete (i : Fin n)
deriving DecidableEq, Repr

section Machine

variable {α : Type} {n : Nat}

namespace State

/-- `main` and its workers at the start of the traversal. -/
def init (entries : List (Traversed α)) (progress : Option Progress) : State α n where
  main := .reading entries
  queue := []
  done := false
  workers := fun _ => .starting
  visited := []
  progress := progress
  displayed := []

/-- Worker `i` moves to `pc`. -/
def setWorker (s : State α n) (i : Fin n) (pc : WorkerPc α) : State α n :=
  { s with workers := Function.update s.workers i pc }

/-- `PROGRESS_LOCK` around an update of the counters and `display_progress`: nothing happens
without a progress bar. -/
def display (s : State α n) (update : Progress → Progress) : State α n :=
  { s with
    progress := s.progress.map update
    displayed := s.displayed ++ (s.progress.map update).toList }

@[simp] theorem display_main (s : State α n) (update : Progress → Progress) :
    (s.display update).main = s.main := rfl

@[simp] theorem display_queue (s : State α n) (update : Progress → Progress) :
    (s.display update).queue = s.queue := rfl

@[simp] theorem display_done (s : State α n) (update : Progress → Progress) :
    (s.display update).done = s.done := rfl

@[simp] theorem display_workers (s : State α n) (update : Progress → Progress) :
    (s.display update).workers = s.workers := rfl

@[simp] theorem display_visited (s : State α n) (update : Progress → Progress) :
    (s.display update).visited = s.visited := rfl

@[simp] theorem setWorker_main (s : State α n) (i : Fin n) (pc : WorkerPc α) :
    (s.setWorker i pc).main = s.main := rfl

@[simp] theorem setWorker_queue (s : State α n) (i : Fin n) (pc : WorkerPc α) :
    (s.setWorker i pc).queue = s.queue := rfl

@[simp] theorem setWorker_done (s : State α n) (i : Fin n) (pc : WorkerPc α) :
    (s.setWorker i pc).done = s.done := rfl

@[simp] theorem setWorker_visited (s : State α n) (i : Fin n) (pc : WorkerPc α) :
    (s.setWorker i pc).visited = s.visited := rfl

end State

/-- One atomic step of `main` or of a worker. -/
inductive Step : State α n → Label n → State α n → Prop where
  /-- `main` reports an entry with `fts_errno` and goes on. -/
  | readFailed (s : State α n) (rest : List (Traversed α))
      (pc : s.main = .reading (.failed :: rest)) :
      Step s .readFailed { s.display id with main := .reading rest }
  /-- `main` counts a file before it appends it. -/
  | count (s : State α n) (entry : α) (rest : List (Traversed α))
      (pc : s.main = .reading (.eligible entry :: rest)) :
      Step s .count
        { s.display (fun p => { p with totalUnitCount := p.totalUnitCount + 1 }) with
          main := .appending entry rest }
  /-- `file_entry_queue_append` under the queue lock. -/
  | append (s : State α n) (entry : α) (rest : List (Traversed α))
      (pc : s.main = .appending entry rest) :
      Step s .append { s with main := .reading rest, queue := s.queue ++ [entry] }
  /-- `main` sets `done` after the traversal. -/
  | finish (s : State α n) (pc : s.main = .reading []) :
      Step s .finish { s with main := .joining, done := true }
  /-- The unlocked first read of `done`. -/
  | enter (s : State α n) (i : Fin n) (pc : s.workers i = .starting) :
      Step s (.enter i) (s.setWorker i (if s.done then .returned else .popping))
  /-- `file_entry_next` finds the queue empty. -/
  | popEmpty (s : State α n) (i : Fin n) (pc : s.workers i = .popping) (empty : s.queue = []) :
      Step s (.popEmpty i) (s.setWorker i .checking)
  /-- `file_entry_next` takes the first entry. -/
  | pop (s : State α n) (i : Fin n) (entry : α) (rest : List α) (pc : s.workers i = .popping)
      (front : s.queue = entry :: rest) :
      Step s (.pop i) { s.setWorker i (.visiting entry) with queue := rest }
  /-- The read of `done` after an empty pop. -/
  | check (s : State α n) (i : Fin n) (pc : s.workers i = .checking) :
      Step s (.check i) (s.setWorker i (if s.done then .returned else .popping))
  /-- `visit_entry`. -/
  | visit (s : State α n) (i : Fin n) (entry : α) (pc : s.workers i = .visiting entry) :
      Step s (.visit i) { s.setWorker i .completing with visited := s.visited ++ [entry] }
  /-- The progress section after a visit.  `thread_count` is the number of workers here, so the
  serial mode's `break` is not taken. -/
  | complete (s : State α n) (i : Fin n) (pc : s.workers i = .completing) :
      Step s (.complete i)
        ((s.display (fun p => { p with completedUnitCount := p.completedUnitCount + 1 })).setWorker
          i .popping)

/-! ### Conservation of the appended files -/

/-- The entry a worker took from the queue and has not visited yet. -/
def inHand : WorkerPc α → Multiset α
  | .visiting entry => {entry}
  | _ => 0

@[simp] theorem inHand_popping : inHand (.popping : WorkerPc α) = 0 := rfl

@[simp] theorem inHand_visiting (entry : α) : inHand (.visiting entry) = {entry} := rfl

@[simp] theorem inHand_completing : inHand (.completing : WorkerPc α) = 0 := rfl

/-- The files `main` has still to append. -/
def pending : MainPc α → List α
  | .reading rest => eligible rest
  | .appending entry rest => entry :: eligible rest
  | .joining => []

/-- Every eligible file is pending, queued, in a worker's hand, or visited. -/
def account (s : State α n) : Multiset α :=
  s.visited + ∑ i, inHand (s.workers i) + s.queue + pending s.main

/-- The hands of the workers after worker `i` moved to `pc`. -/
theorem inHand_setWorker (s : State α n) (i : Fin n) (pc : WorkerPc α) :
    (∑ j, inHand ((s.setWorker i pc).workers j)) + inHand (s.workers i) =
      (∑ j, inHand (s.workers j)) + inHand pc :=
  sum_update s.workers i pc inHand

/-- A worker that moves between two points with empty hands leaves the account as it is. -/
theorem account_setWorker {s : State α n} {i : Fin n} {pc : WorkerPc α}
    (before : inHand (s.workers i) = 0) (after : inHand pc = 0) :
    account (s.setWorker i pc) = account s := by
  have hands := inHand_setWorker s i pc
  rw [before, after, add_zero, add_zero] at hands
  simp [account, hands]

/-- No step changes the account. -/
theorem account_step {s s' : State α n} {label : Label n} (hstep : Step s label s') :
    account s' = account s := by
  cases hstep with
  | readFailed rest pc => simp [account, pending, pc, eligible]
  | count entry rest pc => simp [account, pending, pc, eligible]
  | append entry rest pc =>
      have moved : ((s.queue ++ [entry] : List α) : Multiset α) = s.queue + {entry} := by
        rw [← Multiset.coe_add, Multiset.coe_singleton]
      simp only [account, pending, pc, moved, ← Multiset.cons_coe, ← Multiset.singleton_add]
      abel
  | finish pc => simp [account, pending, pc, eligible]
  | enter i pc => exact account_setWorker (by simp [pc, inHand]) (by split <;> rfl)
  | popEmpty i pc empty => exact account_setWorker (by simp [pc, inHand]) rfl
  | pop i entry rest pc front =>
      have hands := inHand_setWorker s i (.visiting entry)
      rw [pc, inHand_popping, inHand_visiting, add_zero] at hands
      simp only [account, hands, front, State.setWorker_visited, State.setWorker_main,
        ← Multiset.cons_coe, ← Multiset.singleton_add]
      abel
  | check i pc => exact account_setWorker (by simp [pc, inHand]) (by split <;> rfl)
  | visit i entry pc =>
      have hands := inHand_setWorker s i .completing
      rw [pc, inHand_visiting, inHand_completing, add_zero] at hands
      simp only [account, ← hands, State.setWorker_queue, State.setWorker_main,
        ← Multiset.coe_add, Multiset.coe_singleton]
      abel
  | complete i pc =>
      exact account_setWorker (s := s.display _) (by simp [pc, inHand]) rfl

theorem account_run {s t : State α n} {labels : List (Label n)} (run : Run Step s labels t) :
    account t = account s :=
  run.invariant (I := fun u => account u = account s)
    (fun _ _ _ hstep h => (account_step hstep).trans h) rfl

/-- `done` is set when `main` leaves the traversal, and only then. -/
theorem done_step {s s' : State α n} {label : Label n} (hstep : Step s label s')
    (h : s.done = true → s.main = .joining) : s'.done = true → s'.main = .joining := by
  cases hstep with
  | finish => intro _; rfl
  | readFailed rest pc => intro hdone; simp [pc] at h; simp [h] at hdone
  | count entry rest pc => intro hdone; simp [pc] at h; simp [h] at hdone
  | append entry rest pc => intro hdone; simp [pc] at h; simp [h] at hdone
  | _ => exact h

/-- Where every worker has returned after `done`, the visited files are the eligible ones less
what is left in the queue. -/
theorem account_returned {entries : List (Traversed α)} {progress : Option Progress}
    {s : State α n} {labels : List (Label n)}
    (run : Run Step (State.init entries progress) labels s)
    (hdone : s.done = true) (returned : ∀ i, s.workers i = .returned) :
    ((s.visited ++ s.queue : List α) : Multiset α) = eligible entries := by
  have hmain : s.main = .joining :=
    run.invariant (I := fun u => u.done = true → u.main = .joining)
      (fun _ _ _ hstep h => done_step hstep h) (by simp [State.init]) hdone
  have haccount := account_run run
  simpa [account, State.init, pending, hmain, returned, inHand] using haccount

/-! ### What a run does to the queue -/

/-- Without an append an empty queue stays empty. -/
theorem queue_nil_of_run {s t : State α n} {labels : List (Label n)} (run : Run Step s labels t)
    (noAppend : Label.append ∉ labels) (empty : s.queue = []) : t.queue = [] := by
  induction run with
  | nil => exact empty
  | cons hstep _ ih =>
      apply ih (List.not_mem_of_not_mem_cons noAppend)
      cases hstep with
      | append => simp at noAppend
      | pop i entry rest pc front => simp [front] at empty
      | _ => exact empty

/-- Without a pop a queue that holds a file keeps one. -/
theorem queue_ne_nil_of_run {s t : State α n} {labels : List (Label n)}
    (run : Run Step s labels t) (noPop : ∀ i, Label.pop i ∉ labels) (hqueue : s.queue ≠ []) :
    t.queue ≠ [] := by
  induction run with
  | nil => exact hqueue
  | cons hstep _ ih =>
      apply ih (fun i => List.not_mem_of_not_mem_cons (noPop i))
      cases hstep with
      | append => simp
      | pop i => exact absurd (List.mem_cons_self) (noPop i)
      | _ => exact hqueue

/-- Without an append `main` keeps what it has still to append. -/
theorem pending_of_run {s t : State α n} {labels : List (Label n)} (run : Run Step s labels t)
    (noAppend : Label.append ∉ labels) : pending t.main = pending s.main := by
  induction run with
  | nil => rfl
  | cons hstep _ ih =>
      rw [ih (List.not_mem_of_not_mem_cons noAppend)]
      cases hstep with
      | append => simp at noAppend
      | readFailed rest pc => simp [pending, pc, eligible]
      | count entry rest pc => simp [pending, pc, eligible]
      | finish pc => simp [pending, pc, eligible]
      | _ => rfl

/-- A worker in the middle of its loop: it calls `file_entry_next` again before it returns. -/
def Active : WorkerPc α → Prop
  | .popping | .visiting _ | .completing => True
  | .starting | .checking | .returned => False

/-- Where some worker moves, a worker in its loop stays in it, if it is another one or moves within
the loop. -/
theorem active_setWorker {s : State α n} {i j : Fin n} {pc : WorkerPc α}
    (active : Active (s.workers i)) (h : i = j → Active pc) :
    Active ((s.setWorker j pc).workers i) := by
  by_cases hj : i = j
  · subst hj
    simpa [State.setWorker] using h rfl
  · simpa [State.setWorker, hj] using active

/-- One step takes a worker out of its loop only where a pop of it finds the queue empty. -/
theorem active_step {s s' : State α n} {label : Label n} {i : Fin n} (hstep : Step s label s')
    (hlabel : label ≠ .popEmpty i) (active : Active (s.workers i)) : Active (s'.workers i) := by
  cases hstep with
  | enter j pc =>
      apply active_setWorker active
      rintro rfl
      simp [pc, Active] at active
  | popEmpty j =>
      apply active_setWorker active
      rintro rfl
      exact absurd rfl hlabel
  | pop j => exact active_setWorker active fun _ => trivial
  | check j pc =>
      apply active_setWorker active
      rintro rfl
      simp [pc, Active] at active
  | visit j => exact active_setWorker active fun _ => trivial
  | complete j => exact active_setWorker (s := s.display _) active fun _ => trivial
  | _ => exact active

/-- A worker stays in its loop until one of its pops finds the queue empty. -/
theorem active_of_run {s t : State α n} {labels : List (Label n)} {i : Fin n}
    (run : Run Step s labels t) (active : Active (s.workers i)) :
    .popEmpty i ∈ labels ∨ Active (t.workers i) := by
  induction run with
  | nil => exact Or.inr active
  | @cons s s' t label labels hstep _ ih =>
      by_cases hlabel : label = .popEmpty i
      · subst hlabel
        exact Or.inl List.mem_cons_self
      · rcases ih (active_step hstep hlabel active) with hmem | hend
        · exact Or.inl (List.mem_cons_of_mem _ hmem)
        · exact Or.inr hend

/-- A worker that pops and later returns has popped from an empty queue in between. -/
theorem popEmpty_mem_of_pop {s t : State α n} {labels : List (Label n)} {i : Fin n}
    (run : Run Step s labels t) (hpop : .pop i ∈ labels) (returned : t.workers i = .returned) :
    .popEmpty i ∈ labels := by
  rcases List.append_of_mem hpop with ⟨before, after, rfl⟩
  rcases run.split with ⟨u, _, second⟩
  cases second with
  | cons hstep rest =>
      cases hstep with
      | pop _ entry queue pc front =>
          have active : Active ((u.setWorker i (.visiting entry)).workers i) := by
            simp [State.setWorker, Active]
          rcases active_of_run rest active with hmem | hend
          · simp [hmem]
          · simp [returned, Active] at hend

/-- A pop that finds the queue empty after the last append leaves it empty for good. -/
theorem queue_nil_of_popEmpty {s t : State α n} {labels : List (Label n)} {i : Fin n}
    (run : Run Step s labels t) (noAppend : Label.append ∉ labels)
    (hpop : .popEmpty i ∈ labels) : t.queue = [] := by
  rcases List.append_of_mem hpop with ⟨before, after, rfl⟩
  rcases run.split with ⟨u, _, second⟩
  have noAppend : Label.append ∉ after := fun h => noAppend (by simp [h])
  cases second with
  | cons hstep rest =>
      cases hstep with
      | popEmpty _ pc empty => exact queue_nil_of_run rest noAppend empty

/-! ### Shutdown -/

/-- Some worker calls `file_entry_next` after the last append. -/
def PopsAfterLastAppend (labels : List (Label n)) : Prop :=
  ∃ before after, labels = before ++ .append :: after ∧ .append ∉ after ∧
    ∃ i, .pop i ∈ after ∨ .popEmpty i ∈ after

/-- The last append of a run that has one. -/
theorem last_append {labels : List (Label n)} (h : .append ∈ labels) :
    ∃ before after, labels = before ++ .append :: after ∧ .append ∉ after := by
  obtain ⟨after, before, hrev, hafter⟩ :=
    List.eq_append_cons_of_mem (List.mem_reverse.mpr h)
  refine ⟨before.reverse, after.reverse, ?_, by simpa using hafter⟩
  simpa using congrArg List.reverse hrev

/-- The workers leave the queue empty exactly when there was nothing to append, or when one of
them calls `file_entry_next` after the last append. -/
theorem queue_nil_iff {entries : List (Traversed α)} {progress : Option Progress}
    {s : State α n} {labels : List (Label n)}
    (run : Run Step (State.init entries progress) labels s)
    (hdone : s.done = true) (returned : ∀ i, s.workers i = .returned) :
    s.queue = [] ↔ eligible entries = [] ∨ PopsAfterLastAppend labels := by
  have total := account_returned run hdone returned
  constructor
  · intro empty
    rcases Classical.em (.append ∈ labels) with happend | noAppend
    · right
      rcases last_append happend with ⟨before, after, rfl, hafter⟩
      refine ⟨before, after, rfl, hafter, ?_⟩
      apply Classical.byContradiction
      intro noPop
      push Not at noPop
      rcases run.split with ⟨u, _, second⟩
      cases second with
      | cons hstep rest =>
          cases hstep with
          | append => exact queue_ne_nil_of_run rest (fun i => (noPop i).1) (by simp) empty
    · left
      have hmain : s.main = .joining :=
        run.invariant (I := fun u => u.done = true → u.main = .joining)
          (fun _ _ _ hstep h => done_step hstep h) (by simp [State.init]) hdone
      have hpending := pending_of_run run noAppend
      simpa [hmain, pending, State.init] using hpending.symm
  · rintro (hnone | ⟨before, after, rfl, hafter, i, hpop⟩)
    · rw [hnone] at total
      exact (List.append_eq_nil_iff.mp ((Multiset.coe_eq_zero _).mp total)).2
    · rcases run.split with ⟨u, _, second⟩
      cases second with
      | cons hstep rest =>
          have hempty : .popEmpty i ∈ after := by
            rcases hpop with hpop | hpop
            · exact popEmpty_mem_of_pop rest hpop (returned i)
            · exact hpop
          exact queue_nil_of_popEmpty rest hafter hempty

/-- After the shutdown the queue is empty and every appended file was visited exactly once if and
only if no file was appended or some worker calls `file_entry_next` after the last append. -/
theorem shutdown_drains_iff (entries : List (Traversed α)) (progress : Option Progress)
    (s : State α n) (labels : List (Label n))
    (run : Run Step (State.init entries progress) labels s)
    (hdone : s.done = true) (returned : ∀ i, s.workers i = .returned) :
    (s.queue = [] ∧ s.visited.Perm (eligible entries)) ↔
      (eligible entries = [] ∨ PopsAfterLastAppend labels) := by
  have total := account_returned run hdone returned
  constructor
  · rintro ⟨empty, _⟩
    exact (queue_nil_iff run hdone returned).mp empty
  · intro h
    have empty := (queue_nil_iff run hdone returned).mpr h
    rw [empty, List.append_nil] at total
    exact ⟨empty, Multiset.coe_eq_coe.mp total⟩

end Machine

/-- One worker, one file: the pop before the append finds nothing, and `done` is set before the
worker reads it. -/
def missedSchedule : List (Label 1) :=
  [.enter 0, .popEmpty 0, .count, .append, .finish, .check 0]

/-- One worker, one file: the worker pops after the append. -/
def drainingSchedule : List (Label 1) :=
  [.enter 0, .count, .append, .finish, .pop 0, .visit 0, .complete 0, .popEmpty 0, .check 0]

/-- The shutdown loses a file: it is still queued when everyone has returned. -/
theorem shutdown_loses_file :
    ∃ s : State Nat 1, Run Step (State.init [.eligible 7] none) missedSchedule s ∧
      s.done = true ∧ (∀ i, s.workers i = .returned) ∧
      ¬(s.queue = [] ∧ s.visited.Perm (eligible [.eligible 7])) := by
  refine ⟨_, .cons (.enter _ 0 rfl) (.cons (.popEmpty _ 0 rfl rfl) (.cons (.count _ 7 [] rfl)
    (.cons (.append _ 7 [] rfl) (.cons (.finish _ rfl) (.cons (.check _ 0 rfl) (.nil _)))))),
    rfl, ?_, ?_⟩
  · intro i
    rw [Subsingleton.elim i 0]
    rfl
  · rintro ⟨empty, _⟩
    exact absurd empty (List.cons_ne_nil 7 [])

/-- The draining schedule empties the queue. -/
theorem shutdown_drains_iff_drainingSchedule :
    ∃ s : State Nat 1, Run Step (State.init [.eligible 7] none) drainingSchedule s ∧
      ((s.queue = [] ∧ s.visited.Perm (eligible [.eligible 7])) ↔
        (eligible [Traversed.eligible 7] = [] ∨ PopsAfterLastAppend drainingSchedule)) := by
  obtain ⟨s, run, hdone, returned⟩ : ∃ s : State Nat 1,
      Run Step (State.init [.eligible 7] none) drainingSchedule s ∧ s.done = true ∧
        ∀ i, s.workers i = .returned := by
    refine ⟨_, .cons (.enter _ 0 rfl) (.cons (.count _ 7 [] rfl) (.cons (.append _ 7 [] rfl)
      (.cons (.finish _ rfl) (.cons (.pop _ 0 7 [] rfl rfl) (.cons (.visit _ 0 7 rfl)
      (.cons (.complete _ 0 rfl) (.cons (.popEmpty _ 0 rfl rfl) (.cons (.check _ 0 rfl)
      (.nil _))))))))), rfl, ?_⟩
    intro i
    rw [Subsingleton.elim i 0]
    rfl
  exact ⟨s, run, shutdown_drains_iff [.eligible 7] none s drainingSchedule run hdone returned⟩

end Dedup.WorkQueue
