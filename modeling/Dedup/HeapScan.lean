/-
Module: Dedup.HeapScan
Purpose: The scan as the process runs it on its heap: `main` and the threads of `dedup_work` over
  one heap of blocks, with pointers where the source has pointers and with the allocations and
  frees outside the locks as steps of their own, and so the sections that only print.  A step may
  fault.  The machine is that of the threaded scan with its values on the heap, or that of the scan
  without threads, and it ends with `main` giving everything back.
Imports: Dedup.DeduplicateMemory, Dedup.ThreadedScan
Trusted boundary: human-reviewed spec of the lock-protected sections as atomic steps
Main exports: ThreadPc, State, Label, State.exec, threadStep, mainStep, Step, Faults, sections,
  State.init, serialStep, SerialStep, finish
-/
import Dedup.DeduplicateMemory
import Dedup.ThreadedScan

namespace Dedup.HeapScan

open Heap ScanMemory
open WorkQueue (Traversed MainPc Progress)

/-! ### The machine -/

/-- Where a thread is in `dedup_work` and in the `visit_entry` that it calls, with the pointers it
holds: the entry, the match and the record of the file. -/
inductive ThreadPc where
  | starting
  | popping
  | checking
  | visiting (fe : Addr)
  | failed (fe : Addr)
  | scanned (fe fm : Addr)
  | matched (fe old fm : Addr)
  | recorded (fe old fm : Addr)
  | reporting (fe old fm : Addr)
  | releasing (fe : Addr) (fm : Option Addr)
  | completing
  | returned
deriving DecidableEq, Repr

/-- The context that `main` and `n` threads share, and the heap. -/
structure State (n : Nat) where
  heap : Heap Block
  main : MainPc FileEntry
  queue : Addr
  visited : Addr
  duplicates : Addr
  found : Nat
  done : Bool
  threads : Fin n → ThreadPc
  progress : Option Progress
  displayed : List Progress

/-- The atomic steps: those of the threaded scan, and three of a thread by itself, `read` for
`metadata_from_entry`, `report` for a section that only prints, and `release` for what it frees
before the progress section. -/
inductive Label (n : Nat) where
  | readFailed
  | count
  | append
  | finish
  | enter (i : Fin n)
  | popEmpty (i : Fin n)
  | pop (i : Fin n)
  | check (i : Fin n)
  | skip (i : Fin n)
  | read (i : Fin n)
  | insert (i : Fin n)
  | record (i : Fin n)
  | found (i : Fin n)
  | report (i : Fin n)
  | release (i : Fin n)
  | complete (i : Fin n)
deriving DecidableEq, Repr

variable {n : Nat}

namespace State

/-- Thread `i` moves to `pc`. -/
def setThread (s : State n) (i : Fin n) (pc : ThreadPc) : State n :=
  { s with threads := Function.update s.threads i pc }

/-- `PROGRESS_LOCK` around an update of the counters and `display_progress`. -/
def display (s : State n) (update : Progress → Progress) : State n :=
  { s with
    progress := s.progress.map update
    displayed := s.displayed ++ (s.progress.map update).toList }

/-- A step that runs a program on the heap, and goes where its result says. -/
def exec {α : Type} (s : State n) (prog : Prog Block α) (next : α → Label n × State n) :
    Except Heap.Fault (Label n × State n) :=
  match prog.run s.heap with
  | .error fault => .error fault
  | .ok (result, heap) => .ok ((next result).1, { (next result).2 with heap := heap })

end State

/-- What a thread frees at the end of `visit_entry`: the match where there was one, or the record of
the file that was not added to a list; and then the entry in `dedup_work`. -/
def release (fe : Addr) (fm : Option Addr) : Prog Block Unit := do
  match fm with
  | none => fileEntryFree fe
  | some fm => do
      freeMetadata fm
      fileEntryFree fe

/-- The next step of a thread; `none` after it returned.  What `PROGRESS_LOCK` prints is printed
where there is a bar. -/
def threadStep (env : ScanEnv) (verbosity : Nat) (s : State n) (i : Fin n) :
    Option (Except Heap.Fault (Label n × State n)) :=
  match s.threads i with
  | .starting =>
      some (.ok (.enter i, s.setThread i (if s.done then .returned else .popping)))
  | .popping =>
      some (s.exec (fileEntryNext s.queue) fun fe =>
        match fe with
        | none => (.popEmpty i, s.setThread i .checking)
        | some fe => (.pop i, s.setThread i (.visiting fe)))
  | .checking =>
      some (.ok (.check i, s.setThread i (if s.done then .returned else .popping)))
  | .visiting fe =>
      some (s.exec (ScanMemory.metadataFromEntry env fe) fun fm =>
        match fm with
        | none => (.skip i, s.setThread i (.failed fe))
        | some fm => (.read i, s.setThread i (.scanned fe fm)))
  | .failed fe =>
      some (s.exec (printing s.progress.isSome (printEntry fe)) fun _ =>
        (.report i, s.setThread i (.releasing fe none)))
  | .scanned fe fm =>
      some (s.exec (insertSection env s.visited fm) fun old =>
        match old with
        | none => (.insert i, s.setThread i (.releasing fe (some fm)))
        | some old => (.insert i, s.setThread i (.matched fe old fm)))
  | .matched fe old fm =>
      -- two tests of the loop in `alist_ensure` are enough, and a round for each address in the
      -- loop that prints
      some (s.exec
        (recordSection 2 s.heap.next (verbosity > 0 && s.progress.isSome) s.duplicates old fm)
        fun _ => (.record i, s.setThread i (.recorded fe old fm)))
  | .recorded fe old fm =>
      some (s.exec (cloneIdsDiffer old fm) fun differ =>
        (.found i,
          { s.setThread i (if differ then .reporting fe old fm else .releasing fe (some old)) with
            found := if differ then s.found + 1 else s.found }))
  | .reporting fe old fm =>
      some (s.exec (printing (verbosity > 1 && s.progress.isSome) (printMatch old fm)) fun _ =>
        (.report i, s.setThread i (.releasing fe (some old))))
  | .releasing fe fm =>
      some (s.exec (release fe fm) fun _ => (.release i, s.setThread i .completing))
  | .completing =>
      some (.ok (.complete i,
        (s.display fun p => { p with completedUnitCount := p.completedUnitCount + 1 }).setThread i
          .popping))
  | .returned => none

/-- The next step of `main`; `none` when it joins the threads. -/
def mainStep (s : State n) : Option (Except Heap.Fault (Label n × State n)) :=
  match s.main with
  | .reading (.failed :: rest) =>
      some (.ok (.readFailed, { s.display id with main := .reading rest }))
  | .reading (.eligible fe :: rest) =>
      some (.ok (.count,
        { s.display (fun p => { p with totalUnitCount := p.totalUnitCount + 1 }) with
          main := .appending fe rest }))
  | .appending fe rest =>
      some (s.exec (fileEntryQueueAppend s.queue fe) fun _ =>
        (.append, { s with main := .reading rest }))
  | .reading [] => some (.ok (.finish, { s with main := .joining, done := true }))
  | .joining => none

/-- A step of `main` or of a thread that does not fault. -/
def Step (env : ScanEnv) (verbosity : Nat) (s : State n) (label : Label n) (s' : State n) : Prop :=
  mainStep s = some (.ok (label, s')) ∨
    ∃ i, threadStep env verbosity s i = some (.ok (label, s'))

/-- Some next step faults. -/
def Faults (env : ScanEnv) (verbosity : Nat) (s : State n) : Prop :=
  ∃ fault, mainStep s = some (.error fault) ∨
    ∃ i, threadStep env verbosity s i = some (.error fault)

/-- The section of the threaded scan that a step stands for. -/
def sections : Label n → List (ThreadedScan.Label n)
  | .readFailed => [.readFailed]
  | .count => [.count]
  | .append => [.append]
  | .finish => [.finish]
  | .enter i => [.enter i]
  | .popEmpty i => [.popEmpty i]
  | .pop i => [.pop i]
  | .check i => [.check i]
  | .skip i => [.skip i]
  | .read _ => []
  | .insert i => [.insert i]
  | .record i => [.record i]
  | .found i => [.found i]
  | .report _ => []
  | .release _ => []
  | .complete i => [.complete i]

/-! ### The beginning -/

/-- What `main` allocates before the traversal. -/
def start : Prog Block (Addr × Addr × Addr) := do
  let queue ← newFileEntryQueue
  let visited ← newTree
  let duplicates ← newTree
  return (queue, visited, duplicates)

/-- What `main` has then: the queue, the two trees, and the heap. -/
def started : (Addr × Addr × Addr) × Heap Block :=
  match start.run Heap.empty with
  | .ok result => result
  | .error _ => ((0, 0, 0), Heap.empty)

/-- `main` and its threads at the start of the traversal. -/
def State.init (entries : List (Traversed FileEntry)) (progress : Option Progress) : State n where
  heap := started.2
  main := .reading entries
  queue := started.1.1
  visited := started.1.2.1
  duplicates := started.1.2.2
  found := 0
  done := false
  threads := fun _ => .starting
  progress := progress
  displayed := []

/-! ### Without threads -/

/-- `main` calls `dedup_work` after an append. -/
def enterCall (i : Fin n) (next : Label n × State n) : Label n × State n :=
  (next.1, if next.1 = .append then next.2.setThread i .starting else next.2)

/-- The call leaves its loop after one file. -/
def leaveCall (i : Fin n) (next : Label n × State n) : Label n × State n :=
  (next.1, if next.1 = .complete i then next.2.setThread i .returned else next.2)

/-- The next step of `main` with its call `i` of `dedup_work`: `main` is in its loop where that call
has returned. -/
def callStep (env : ScanEnv) (verbosity : Nat) (i : Fin n) (s : State n) :
    Option (Except Heap.Fault (Label n × State n)) :=
  if s.threads i = .returned then (mainStep s).map (Except.map (enterCall i))
  else (threadStep env verbosity s i).map (Except.map (leaveCall i))

/-- The next step with `thread_count == 0`, where the one thread of the state is that call. -/
def serialStep (env : ScanEnv) (verbosity : Nat) :
    State 1 → Option (Except Heap.Fault (Label 1 × State 1)) :=
  callStep env verbosity ⟨0, Nat.one_pos⟩

/-- A step without threads that does not fault. -/
def SerialStep (env : ScanEnv) (verbosity : Nat) (s : State 1) (label : Label 1)
    (s' : State 1) : Prop :=
  serialStep env verbosity s = some (.ok (label, s'))

/-- `main` at the start of a traversal without threads. -/
def State.serialInit (entries : List (Traversed FileEntry)) (progress : Option Progress) :
    State 1 :=
  { (State.init entries progress : State 1) with threads := fun _ => .returned }

/-! ### After the scan -/

/-- `main` has joined the threads. -/
def State.Returned (s : State n) : Prop :=
  s.main = .joining ∧ ∀ i, s.threads i = .returned

/-- `main` from where the threads were joined: it gives the queue and the visited tree back, calls
`deduplicate` on every list, and gives the duplicate tree back. -/
def finish {W : Type} (calls : Calls W) (opts : Options) (fuel : Nat)
    (queue visited duplicates : Addr) (ctx : Context W) : Prog Block (Context W) := do
  freeFileEntryQueue queue
  freeVisitedTree fuel visited
  let ctx ← deduplicateLists calls opts fuel duplicates ctx
  freeDuplicateTree fuel duplicates
  return ctx

end Dedup.HeapScan
