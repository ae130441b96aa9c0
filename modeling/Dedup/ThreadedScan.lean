/-
Module: Dedup.ThreadedScan
Purpose: The scan as the process runs it: `main` in its `fts_read` loop and the threads in
  `dedup_work`, with the sections of `visit_entry` as steps of their own, over one context.  The
  process refines both views of it: with a visit as one step it is the machine of the work queue,
  and the visits alone are the machine of the parallel scan, whose distribution of the files is the
  one in which the threads took them.  Waiting for a mutex, and the sections that only print, are
  told in `LockedScan`, which this machine is refined by.
Imports: Dedup.ParallelScan, Dedup.WorkQueue, Dedup.Lib.Simulation
Trusted boundary: human-reviewed spec of the lock-protected sections as atomic steps
Main exports: ThreadPc, State, Label, Step, State.init, seen, queueView_step, queueSimulation,
  Visits, visits_step, visits_run
-/
import Dedup.ParallelScan
import Dedup.WorkQueue
import Dedup.Lib.Simulation

namespace Dedup.ThreadedScan

open WorkQueue (Traversed eligible MainPc WorkerPc Progress pending)
open ParallelScan (VisitPc Worker)

/-! ### The machine -/

/-- Where a thread is in `dedup_work`, and in the `visit_entry` that it calls. -/
inductive ThreadPc where
  | starting
  | popping
  | checking
  | visiting (fe : FileEntry)
  | matched (old fm : FileMetadata)
  | recorded (old fm : FileMetadata)
  | completing
  | returned
deriving DecidableEq, Repr

/-- The context that `main` and `n` threads share. -/
structure State (n : Nat) where
  main : MainPc FileEntry
  queue : List FileEntry
  done : Bool
  ctx : ScanContext
  threads : Fin n → ThreadPc
  progress : Option Progress
  displayed : List Progress

/-- The atomic steps: those of `main`, and the sections of the threads. -/
inductive Label (n : Nat) where
  | readFailed
  | count
  | append
  | finish
  | enter (i : Fin n)
  | popEmpty (i : Fin n)
  | pop (i : Fin n)
  | check (i : Fin n)
  | skip (i : Fin n)
  | insert (i : Fin n)
  | record (i : Fin n)
  | found (i : Fin n)
  | complete (i : Fin n)
deriving DecidableEq, Repr

variable {n : Nat}

namespace State

/-- `main` and its threads at the start of the traversal. -/
def init (entries : List (Traversed FileEntry)) (progress : Option Progress) : State n where
  main := .reading entries
  queue := []
  done := false
  ctx := ScanContext.new
  threads := fun _ => .starting
  progress := progress
  displayed := []

/-- Thread `i` moves to `pc`. -/
def setThread (s : State n) (i : Fin n) (pc : ThreadPc) : State n :=
  { s with threads := Function.update s.threads i pc }

/-- `PROGRESS_LOCK` around an update of the counters and `display_progress`. -/
def display (s : State n) (update : Progress → Progress) : State n :=
  { s with
    progress := s.progress.map update
    displayed := s.displayed ++ (s.progress.map update).toList }

end State

/-- Where a thread goes once the visited tree has answered. -/
def afterInsert (fm : FileMetadata) : Option FileMetadata → ThreadPc
  | none => .completing
  | some old => .matched old fm

/-- One atomic step of `main` or of a thread. -/
inductive Step (env : ScanEnv) : State n → Label n → State n → Prop where
  /-- `main` reports an entry with `fts_errno` and goes on. -/
  | readFailed (s : State n) (rest : List (Traversed FileEntry))
      (pc : s.main = .reading (.failed :: rest)) :
      Step env s .readFailed { s.display id with main := .reading rest }
  /-- `main` counts a file before it appends it. -/
  | count (s : State n) (fe : FileEntry) (rest : List (Traversed FileEntry))
      (pc : s.main = .reading (.eligible fe :: rest)) :
      Step env s .count
        { s.display (fun p => { p with totalUnitCount := p.totalUnitCount + 1 }) with
          main := .appending fe rest }
  /-- `file_entry_queue_append` under the queue lock. -/
  | append (s : State n) (fe : FileEntry) (rest : List (Traversed FileEntry))
      (pc : s.main = .appending fe rest) :
      Step env s .append { s with main := .reading rest, queue := s.queue ++ [fe] }
  /-- `main` sets `done` after the traversal. -/
  | finish (s : State n) (pc : s.main = .reading []) :
      Step env s .finish { s with main := .joining, done := true }
  /-- The unlocked first read of `done`. -/
  | enter (s : State n) (i : Fin n) (pc : s.threads i = .starting) :
      Step env s (.enter i) (s.setThread i (if s.done then .returned else .popping))
  /-- `file_entry_next` finds the queue empty. -/
  | popEmpty (s : State n) (i : Fin n) (pc : s.threads i = .popping) (empty : s.queue = []) :
      Step env s (.popEmpty i) (s.setThread i .checking)
  /-- `file_entry_next` takes the first entry. -/
  | pop (s : State n) (i : Fin n) (fe : FileEntry) (rest : List FileEntry)
      (pc : s.threads i = .popping) (front : s.queue = fe :: rest) :
      Step env s (.pop i) { s.setThread i (.visiting fe) with queue := rest }
  /-- The read of `done` after an empty pop. -/
  | check (s : State n) (i : Fin n) (pc : s.threads i = .checking) :
      Step env s (.check i) (s.setThread i (if s.done then .returned else .popping))
  /-- `visit_entry` of a file whose `metadata_from_entry` returns `NULL`. -/
  | skip (s : State n) (i : Fin n) (fe : FileEntry) (pc : s.threads i = .visiting fe)
      (unreadable : metadataFromEntry env fe = none) :
      Step env s (.skip i) (s.setThread i .completing)
  /-- Under `visited_mutex`: insert, and copy the match. -/
  | insert (s : State n) (i : Fin n) (fe : FileEntry) (fm : FileMetadata)
      (pc : s.threads i = .visiting fe) (readable : metadataFromEntry env fe = some fm) :
      Step env s (.insert i)
        { s.setThread i
            (afterInsert (visitedTreeInsert env s.ctx.visited fm).2.1
              (visitedTreeInsert env s.ctx.visited fm).2.2) with
          ctx := { s.ctx with visited := (visitedTreeInsert env s.ctx.visited fm).1 } }
  /-- Under `duplicates_mutex`. -/
  | record (s : State n) (i : Fin n) (old fm : FileMetadata)
      (pc : s.threads i = .matched old fm) :
      Step env s (.record i)
        { s.setThread i (.recorded old fm) with
          ctx := { s.ctx with duplicates := recordDuplicate s.ctx.duplicates old fm } }
  /-- Under `metrics_mutex`, which is taken only where the clone ids differ. -/
  | found (s : State n) (i : Fin n) (old fm : FileMetadata)
      (pc : s.threads i = .recorded old fm) :
      Step env s (.found i)
        { s.setThread i .completing with
          ctx := { s.ctx with found := countFound s.ctx.found old fm } }
  /-- The progress section after a visit.  `thread_count` is the number of threads here, so the
  serial mode's `break` is not taken. -/
  | complete (s : State n) (i : Fin n) (pc : s.threads i = .completing) :
      Step env s (.complete i)
        ((s.display (fun p => { p with completedUnitCount := p.completedUnitCount + 1 })).setThread
          i .popping)

/-! ### The machine of the work queue -/

/-- Where a thread is when a visit is one step, which is taken with its first section. -/
def ThreadPc.worker : ThreadPc → WorkerPc FileEntry
  | .starting => .starting
  | .popping => .popping
  | .checking => .checking
  | .visiting fe => .visiting fe
  | .matched _ _ => .completing
  | .recorded _ _ => .completing
  | .completing => .completing
  | .returned => .returned

/-- The steps of the work queue that a section stands for. -/
def queueLabels : Label n → List (WorkQueue.Label n)
  | .readFailed => [.readFailed]
  | .count => [.count]
  | .append => [.append]
  | .finish => [.finish]
  | .enter i => [.enter i]
  | .popEmpty i => [.popEmpty i]
  | .pop i => [.pop i]
  | .check i => [.check i]
  | .skip i => [.visit i]
  | .insert i => [.visit i]
  | .record _ => []
  | .found _ => []
  | .complete i => [.complete i]

/-- The work queue of the process, after the visits in `visited`. -/
def State.queueView (s : State n) (visited : List FileEntry) : WorkQueue.State FileEntry n where
  main := s.main
  queue := s.queue
  done := s.done
  workers := ThreadPc.worker ∘ s.threads
  visited := visited
  progress := s.progress
  displayed := s.displayed

/-- A thread that moves is a worker that moves. -/
theorem queueView_setThread (s : State n) (visited : List FileEntry) (i : Fin n) (pc : ThreadPc) :
    (s.setThread i pc).queueView visited = (s.queueView visited).setWorker i pc.worker := by
  simp only [State.queueView, State.setThread, WorkQueue.State.setWorker, Function.comp_update]

/-- A thread that moves between two sections of one visit is a worker that stays. -/
theorem queueView_stay {s : State n} {i : Fin n} (pc : ThreadPc) (visited : List FileEntry)
    (h : pc.worker = (s.threads i).worker) :
    (s.setThread i pc).queueView visited = s.queueView visited := by
  rw [queueView_setThread, h]
  simp [WorkQueue.State.setWorker, State.queueView, Function.update_eq_self_iff]

theorem worker_afterInsert (fm : FileMetadata) (old : Option FileMetadata) :
    (afterInsert fm old).worker = .completing := by
  cases old <;> rfl

/-- The first read of `done`, and the one after an empty pop. -/
theorem worker_readDone (done : Bool) :
    (if done then ThreadPc.returned else .popping).worker =
      if done then WorkerPc.returned else .popping := by
  cases done <;> rfl

/-- The file that is visited with a section. -/
def seen (s : State n) : Label n → List FileEntry
  | .skip i | .insert i =>
      match s.threads i with
      | .visiting fe => [fe]
      | _ => []
  | _ => []

/-- A section in which no file is visited. -/
theorem append_seen {s : State n} {label : Label n} (visited : List FileEntry)
    (h : seen s label = []) : visited ++ seen s label = visited := by
  rw [h, List.append_nil]

/-- Every section of the process is a step of the work queue, or none. -/
theorem queueView_step {env : ScanEnv} {s s' : State n} {label : Label n}
    (visited : List FileEntry) (hstep : Step env s label s') :
    Run WorkQueue.Step (s.queueView visited) (queueLabels label)
      (s'.queueView (visited ++ seen s label)) := by
  have hone : ∀ {w' label}, WorkQueue.Step (s.queueView visited) label w' →
      Run WorkQueue.Step (s.queueView visited) [label] w' :=
    fun hstep => .cons hstep (.nil _)
  have hworker : ∀ i, (s.queueView visited).workers i = (s.threads i).worker := fun _ => rfl
  cases hstep with
  | readFailed rest pc =>
      rw [append_seen visited rfl]
      exact hone (.readFailed _ rest pc)
  | count fe rest pc =>
      rw [append_seen visited rfl]
      exact hone (.count _ fe rest pc)
  | append fe rest pc =>
      rw [append_seen visited rfl]
      exact hone (.append _ fe rest pc)
  | finish pc =>
      rw [append_seen visited rfl]
      exact hone (.finish _ pc)
  | enter i pc =>
      rw [append_seen visited rfl, queueView_setThread, worker_readDone]
      exact hone (.enter _ i (by rw [hworker, pc]; rfl))
  | popEmpty i pc empty =>
      rw [append_seen visited rfl, queueView_setThread]
      exact hone (.popEmpty _ i (by rw [hworker, pc]; rfl) empty)
  | pop i fe rest pc front =>
      have hpop : ({ s.setThread i (.visiting fe) with queue := rest } : State n).queueView visited =
          { (s.queueView visited).setWorker i (.visiting fe) with queue := rest } := by
        rw [← show ThreadPc.worker (.visiting fe) = .visiting fe from rfl, ← queueView_setThread]
        rfl
      rw [append_seen visited rfl, hpop]
      exact hone (.pop _ i fe rest (by rw [hworker, pc]; rfl) front)
  | check i pc =>
      rw [append_seen visited rfl, queueView_setThread, worker_readDone]
      exact hone (.check _ i (by rw [hworker, pc]; rfl))
  | skip i fe pc unreadable =>
      have hseen : seen s (.skip i) = [fe] := by simp only [seen, pc]
      rw [hseen, queueView_setThread]
      exact hone (.visit _ i fe (by rw [hworker, pc]; rfl))
  | insert i fe fm pc readable =>
      have hseen : seen s (.insert i) = [fe] := by simp only [seen, pc]
      have hinsert : ({ s.setThread i (afterInsert (visitedTreeInsert env s.ctx.visited fm).2.1
            (visitedTreeInsert env s.ctx.visited fm).2.2) with
          ctx := { s.ctx with
            visited := (visitedTreeInsert env s.ctx.visited fm).1 } } : State n).queueView
              (visited ++ [fe]) =
          (s.queueView (visited ++ [fe])).setWorker i .completing := by
        rw [← worker_afterInsert (visitedTreeInsert env s.ctx.visited fm).2.1
          (visitedTreeInsert env s.ctx.visited fm).2.2, ← queueView_setThread]
        rfl
      rw [hseen, hinsert]
      exact hone (.visit _ i fe (by rw [hworker, pc]; rfl))
  | record i old fm pc =>
      have hstay := queueView_stay (s := s) (i := i) (.recorded old fm) visited (by rw [pc]; rfl)
      rw [append_seen visited rfl]
      exact hstay ▸ .nil _
  | found i old fm pc =>
      have hstay := queueView_stay (s := s) (i := i) .completing visited (by rw [pc]; rfl)
      rw [append_seen visited rfl]
      exact hstay ▸ .nil _
  | complete i pc =>
      rw [append_seen visited rfl, queueView_setThread]
      exact hone (.complete _ i (by rw [hworker, pc]; rfl))

theorem queueSimulation (env : ScanEnv) :
    Simulation (Step (n := n) env) WorkQueue.Step queueLabels
      fun s w => ∃ visited, w = s.queueView visited := by
  rintro s label s' _ hstep ⟨visited, rfl⟩
  exact ⟨_, queueView_step visited hstep, _, rfl⟩

/-! ### The machine of the visits -/

/-- What a thread still has to do for the file it took. -/
def ThreadPc.visit : ThreadPc → Worker
  | .visiting fe => { todo := [fe], pc := .idle }
  | .matched old fm => { todo := [], pc := .matched old fm }
  | .recorded old fm => { todo := [], pc := .recorded old fm }
  | _ => { todo := [], pc := .idle }

/-- Every worker has more files to visit, after those it had. -/
def extend (p : ParallelScan.State n) (extra : Fin n → List FileEntry) : ParallelScan.State n :=
  { p with workers := fun i => { p.workers i with todo := (p.workers i).todo ++ extra i } }

/-- A worker that moves keeps what it has to visit later. -/
theorem extend_move (p : ParallelScan.State n) (extra : Fin n → List FileEntry) (i : Fin n)
    (worker : Worker) (ctx : ScanContext) :
    extend { p.setWorker i worker with ctx := ctx } extra =
      { (extend p extra).setWorker i { worker with todo := worker.todo ++ extra i } with
        ctx := ctx } := by
  simp only [extend, ParallelScan.State.setWorker, ParallelScan.State.mk.injEq, true_and]
  funext j
  by_cases hj : j = i
  · subst hj
    simp
  · simp [hj]

/-- The answer of the visited tree does not concern the files that are visited later. -/
theorem afterInsert_append (rest more : List FileEntry) (fm : FileMetadata)
    (old : Option FileMetadata) :
    { ParallelScan.afterInsert rest fm old with
      todo := (ParallelScan.afterInsert rest fm old).todo ++ more } =
        ParallelScan.afterInsert (rest ++ more) fm old := by
  cases old <;> rfl

/-- A section does not look at the files that its worker visits later. -/
theorem step_extend {env : ScanEnv} {p p' : ParallelScan.State n} {label : ParallelScan.Label n}
    (extra : Fin n → List FileEntry) (hstep : ParallelScan.Step env p label p') :
    ParallelScan.Step env (extend p extra) label (extend p' extra) := by
  cases hstep with
  | skip i fe rest pc unreadable =>
      have hmove := extend_move p extra i { todo := rest, pc := .idle } p.ctx
      have hskip : ParallelScan.Step env (extend p extra) (.skip i) _ :=
        .skip (extend p extra) i fe (rest ++ extra i) (by simp [extend, pc]) unreadable
      exact hmove ▸ hskip
  | insert i fe rest fm pc readable =>
      have hinsert : ParallelScan.Step env (extend p extra) (.insert i) _ :=
        .insert (extend p extra) i fe (rest ++ extra i) fm (by simp [extend, pc]) readable
      rw [extend_move, afterInsert_append]
      exact hinsert
  | record i todo old fm pc =>
      rw [extend_move]
      exact .record (extend p extra) i (todo ++ extra i) old fm (by simp [extend, pc])
  | count i todo old fm pc =>
      rw [extend_move]
      exact .count (extend p extra) i (todo ++ extra i) old fm (by simp [extend, pc])

/-- More files at the end of every worker's list change nothing in a run. -/
theorem run_extend {env : ScanEnv} {p p' : ParallelScan.State n}
    {labels : List (ParallelScan.Label n)} (extra : Fin n → List FileEntry)
    (run : Run (ParallelScan.Step env) p labels p') :
    Run (ParallelScan.Step env) (extend p extra) labels (extend p' extra) := by
  induction run with
  | nil => exact .nil _
  | cons hstep _ ih => exact .cons (step_extend extra hstep) ih

/-- The visits of the process: a parallel scan of the files that the threads took, as far as they
are with them. -/
structure Visits (env : ScanEnv) (s : State n) (todo : Fin n → List FileEntry)
    (p : ParallelScan.State n) : Prop where
  run : ∃ labels, Run (ParallelScan.Step env) (ParallelScan.State.init todo) labels p
  ctx : p.ctx = s.ctx
  workers : ∀ i, p.workers i = (s.threads i).visit

/-- Every eligible file was taken by a thread, is queued, or is pending. -/
def account (s : State n) (todo : Fin n → List FileEntry) : Multiset FileEntry :=
  (∑ i, (todo i : Multiset FileEntry)) + s.queue + pending s.main

section Preservation

variable {env : ScanEnv} {s : State n} {todo : Fin n → List FileEntry}
  {p : ParallelScan.State n}

/-- The workers after thread `i` moved. -/
theorem Visits.workers_setThread (h : Visits env s todo p) (i : Fin n) (pc : ThreadPc) :
    ∀ j, (p.setWorker i pc.visit).workers j = ((s.setThread i pc).threads j).visit := by
  intro j
  by_cases hj : j = i
  · subst hj
    simp [ParallelScan.State.setWorker, State.setThread]
  · simp [ParallelScan.State.setWorker, State.setThread, hj, h.workers j]

/-- A thread that moves between two visits is a worker that stays. -/
theorem Visits.stay (h : Visits env s todo p) {i : Fin n} (pc : ThreadPc)
    (hpc : pc.visit = (s.threads i).visit) :
    ∀ j, p.workers j = ((s.setThread i pc).threads j).visit := by
  intro j
  by_cases hj : j = i
  · subst hj
    simp [State.setThread, hpc, h.workers j]
  · simp [State.setThread, hj, h.workers j]

/-- A section of a visit is one of the parallel scan. -/
theorem Visits.section (h : Visits env s todo p) {i : Fin n} (pc : ThreadPc) {ctx : ScanContext}
    {label : ParallelScan.Label n}
    (hstep : ParallelScan.Step env p label { p.setWorker i pc.visit with ctx := ctx }) :
    Visits env { s.setThread i pc with ctx := ctx } todo
      { p.setWorker i pc.visit with ctx := ctx } where
  run := by
    rcases h.run with ⟨labels, run⟩
    exact ⟨_, run.append (.cons hstep (.nil _))⟩
  ctx := rfl
  workers := h.workers_setThread i pc

/-- A thread that takes a file is a worker that has it from the start. -/
theorem Visits.pop (h : Visits env s todo p) {i : Fin n} (fe : FileEntry) (queue : List FileEntry)
    (hpc : (s.threads i).visit = { todo := [], pc := .idle }) :
    Visits env { s.setThread i (.visiting fe) with queue := queue }
      (fun j => todo j ++ (if j = i then [fe] else []))
      (extend p fun j => if j = i then [fe] else []) where
  run := by
    rcases h.run with ⟨labels, run⟩
    exact ⟨labels, run_extend _ run⟩
  ctx := h.ctx
  workers := by
    intro j
    by_cases hj : j = i
    · subst hj
      simp [extend, State.setThread, (h.workers j).trans hpc, ThreadPc.visit]
    · simp [extend, State.setThread, hj, h.workers j]

/-- Every section keeps the visits a parallel scan, and the account. -/
theorem visits_step {label : Label n} {s' : State n} (hstep : Step env s label s')
    (h : Visits env s todo p) :
    ∃ todo' p', Visits env s' todo' p' ∧ account s' todo' = account s todo := by
  cases hstep with
  | readFailed rest pc =>
      exact ⟨todo, p, ⟨h.run, h.ctx, h.workers⟩,
        by simp [account, pending, pc, eligible, State.display]⟩
  | count fe rest pc =>
      exact ⟨todo, p, ⟨h.run, h.ctx, h.workers⟩,
        by simp [account, pending, pc, eligible, State.display]⟩
  | append fe rest pc =>
      refine ⟨todo, p, ⟨h.run, h.ctx, h.workers⟩, ?_⟩
      have moved : ((s.queue ++ [fe] : List FileEntry) : Multiset FileEntry) = s.queue + {fe} := by
        rw [← Multiset.coe_add, Multiset.coe_singleton]
      simp only [account, pending, pc, moved, ← Multiset.cons_coe, ← Multiset.singleton_add]
      abel
  | finish pc =>
      exact ⟨todo, p, ⟨h.run, h.ctx, h.workers⟩, by simp [account, pending, pc, eligible]⟩
  | enter i pc =>
      refine ⟨todo, p, ⟨h.run, h.ctx, h.stay _ ?_⟩, rfl⟩
      rw [pc]
      split <;> rfl
  | popEmpty i pc empty => exact ⟨todo, p, ⟨h.run, h.ctx, h.stay _ (by rw [pc]; rfl)⟩, rfl⟩
  | pop i fe rest pc front =>
      refine ⟨_, _, h.pop fe rest (by rw [pc]; rfl), ?_⟩
      have taken : (∑ j, ((todo j ++ if j = i then [fe] else [] : List FileEntry) :
          Multiset FileEntry)) = (∑ j, (todo j : Multiset FileEntry)) + {fe} := by
        simp only [← Multiset.coe_add, Finset.sum_add_distrib]
        congr 1
        rw [Finset.sum_eq_single i (by intro j _ hj; simp [hj]) (by simp)]
        simp
      simp only [account, taken, front, ← Multiset.cons_coe, ← Multiset.singleton_add]
      simp only [State.setThread]
      abel
  | check i pc =>
      refine ⟨todo, p, ⟨h.run, h.ctx, h.stay _ ?_⟩, rfl⟩
      rw [pc]
      split <;> rfl
  | skip i fe pc unreadable =>
      have hworker : p.workers i = { todo := [fe], pc := .idle } := by rw [h.workers i, pc]; rfl
      have hvisits := h.section .completing (.skip p i fe [] hworker unreadable)
      rw [h.ctx] at hvisits
      exact ⟨todo, _, hvisits, rfl⟩
  | insert i fe fm pc readable =>
      have hworker : p.workers i = { todo := [fe], pc := .idle } := by rw [h.workers i, pc]; rfl
      have hinsert : ParallelScan.Step env p (.insert i) _ :=
        .insert p i fe [] fm hworker readable
      have hafter : ParallelScan.afterInsert [] (visitedTreeInsert env p.ctx.visited fm).2.1
          (visitedTreeInsert env p.ctx.visited fm).2.2 =
            (afterInsert (visitedTreeInsert env p.ctx.visited fm).2.1
              (visitedTreeInsert env p.ctx.visited fm).2.2).visit := by
        cases (visitedTreeInsert env p.ctx.visited fm).2.2 <;> rfl
      rw [hafter] at hinsert
      have hvisits := h.section _ hinsert
      rw [h.ctx] at hvisits
      exact ⟨todo, _, hvisits, rfl⟩
  | record i old fm pc =>
      have hworker : p.workers i = { todo := [], pc := .matched old fm } := by
        rw [h.workers i, pc]; rfl
      have hvisits := h.section (.recorded old fm) (.record p i [] old fm hworker)
      rw [h.ctx] at hvisits
      exact ⟨todo, _, hvisits, rfl⟩
  | found i old fm pc =>
      have hworker : p.workers i = { todo := [], pc := .recorded old fm } := by
        rw [h.workers i, pc]; rfl
      have hvisits := h.section .completing (.count p i [] old fm hworker)
      rw [h.ctx] at hvisits
      exact ⟨todo, _, hvisits, rfl⟩
  | complete i pc =>
      exact ⟨todo, p, ⟨h.run, h.ctx, h.stay .popping (by rw [pc]; rfl)⟩, rfl⟩

end Preservation

/-- In every run the visits are a parallel scan of the files that the threads took, and no eligible
file is anywhere else than with them, in the queue, or still to be appended. -/
theorem visits_run {env : ScanEnv} {entries : List (Traversed FileEntry)}
    {progress : Option Progress} {s : State n} {labels : List (Label n)}
    (run : Run (Step env) (State.init entries progress) labels s) :
    ∃ todo p, Visits env s todo p ∧ account s todo = eligible entries := by
  apply run.invariant
    (I := fun u => ∃ todo p, Visits env u todo p ∧ account u todo = eligible entries)
  · rintro u label u' hstep ⟨todo, p, h, haccount⟩
    rcases visits_step hstep h with ⟨todo', p', h', haccount'⟩
    exact ⟨todo', p', h', haccount'.trans haccount⟩
  · refine ⟨fun _ => [], ParallelScan.State.init fun _ => [], ?_, ?_⟩
    · exact ⟨⟨[], .nil _⟩, rfl, fun _ => rfl⟩
    · simp [account, State.init, pending]

end Dedup.ThreadedScan
