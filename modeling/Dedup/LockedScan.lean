/-
Module: Dedup.LockedScan
Purpose: The scan with its mutexes, statement by statement.  `main`, `dedup_work` and `visit_entry`
  are programs of critical sections over the parts of the context that the six mutexes guard; inside
  a section other threads run between its accesses.  The process refines the one whose sections
  are atomic, and it cannot deadlock: the only mutex taken inside another is that of the
  progress bar, and `main` holds none where it joins its threads.
Imports: Dedup.SerialEquivalence, Dedup.Lib.CriticalSections
Trusted boundary: a mutex is held by one thread at a time; the printing of the progress bar ends
Main exports: Mutex, Guarded, Point, Config, program, Represents, sections_refine,
  lockedScan_deadlockFree, lockedScan_serializes
-/
import Dedup.SerialEquivalence
import Dedup.Lib.CriticalSections

namespace Dedup.LockedScan

open WorkQueue (Traversed eligible MainPc Progress)
open CriticalSections
open ThreadedScan (ThreadPc Serializes)

/-! ### The program -/

/-- The mutexes of `DedupContext`. -/
inductive Mutex where
  | metrics
  | progress
  | queue
  | visited
  | duplicates
  | done
deriving DecidableEq, Repr

/-- What a mutex guards: `found`; the counters and what was displayed of them; the queue; the two
trees; and `done`. -/
abbrev Guarded : Mutex → Type
  | .metrics => Nat
  | .progress => Progress × List Progress
  | .queue => List FileEntry
  | .visited => VisitedTree
  | .duplicates => DuplicateTree
  | .done => Bool

/-- Where `main` or a thread is, with its local variables.  `counting`, `counted`, `taking`,
`inserted`, `tallying`, `finishing` and `finished` are points inside of a section. -/
inductive Point (n : Nat) where
  | reading (rest : List (Traversed FileEntry))
  | counting (total : Nat) (fe : FileEntry) (rest : List (Traversed FileEntry))
  | counted (fe : FileEntry) (rest : List (Traversed FileEntry))
  | appending (fe : FileEntry) (rest : List (Traversed FileEntry))
  | joining (threads : List (Fin n))
  | starting
  | popping
  | taking (fe : FileEntry)
  | checking
  | visiting (fe : FileEntry)
  | inserted (fm : FileMetadata) (old : Option FileMetadata)
  | matched (old fm : FileMetadata)
  | recorded (old fm : FileMetadata)
  | tallying (found : Nat) (old fm : FileMetadata)
  | reporting (old fm : FileMetadata)
  | completing
  | finishing (completed : Nat)
  | finished
  | returned

/-- What the process is started with: the files, `dc.verbosity`, and whether `dc.progress` is
set. -/
structure Config where
  env : ScanEnv
  verbosity : Nat
  shown : Bool

/-- What `main` and the threads do next. -/
abbrev Next (n : Nat) := Command (Option (Fin n)) Guarded (Point n)

/-- An access to the part of the context that a mutex guards. -/
abbrev Access (n : Nat) (m : Mutex) := Op Guarded (Point n) m

variable {n : Nat}

/-- `PROGRESS_LOCK`: the block under the mutex of the bar, or nothing without a bar. -/
def progressLock (cfg : Config) (block : List (Access n .progress)) (next : Point n) : Next n :=
  if cfg.shown then .critical .progress block else .tau next

theorem progressLock_shown {cfg : Config} (h : cfg.shown = true)
    (block : List (Access n .progress)) (next : Point n) :
    progressLock cfg block next = .critical .progress block :=
  if_pos h

theorem progressLock_hidden {cfg : Config} (h : cfg.shown = false)
    (block : List (Access n .progress)) (next : Point n) :
    progressLock cfg block next = .tau next :=
  if_neg (by simp [h])

/-- `display_progress`. -/
def displayProgress (next : Point n → Point n) : Access n .progress :=
  .access fun (bar, pc) => ((bar.1, bar.2 ++ [bar.1]), next pc)

/-- Text beside the bar. -/
def printBeside (next : Point n) : Access n .progress :=
  .access fun (bar, _) => (bar, next)

/-- `totalUnitCount++` and `display_progress`. -/
def countTotal (fe : FileEntry) (rest : List (Traversed FileEntry)) : List (Access n .progress) :=
  [.access fun (bar, _) => (bar, .counting bar.1.totalUnitCount fe rest),
    .access fun (bar, pc) =>
      match pc with
      | .counting total _ _ =>
          (({ bar.1 with totalUnitCount := total + 1 }, bar.2), .counted fe rest)
      | pc => (bar, pc),
    displayProgress fun _ => .appending fe rest]

/-- `completedUnitCount++` and `display_progress`. -/
def countCompleted : List (Access n .progress) :=
  [.access fun (bar, _) => (bar, .finishing bar.1.completedUnitCount),
    .access fun (bar, pc) =>
      match pc with
      | .finishing completed =>
          (({ bar.1 with completedUnitCount := completed + 1 }, bar.2), .finished)
      | pc => (bar, pc),
    displayProgress fun _ => .popping]

/-- `file_entry_next`: the first entry, and its removal. -/
def fileEntryNext : List (Access n .queue) :=
  [.access fun (queue, _) =>
      match queue with
      | [] => ([], .checking)
      | fe :: rest => (fe :: rest, .taking fe),
    .access fun (queue, pc) =>
      match pc with
      | .taking fe => (queue.tail, .visiting fe)
      | pc => (queue, pc)]

/-- `visited_tree_insert`, and the copy of the match. -/
def insertVisited (env : ScanEnv) (fm : FileMetadata) : List (Access n .visited) :=
  [.access fun (tree, _) =>
      ((visitedTreeInsert env tree fm).1,
        .inserted (visitedTreeInsert env tree fm).2.1 (visitedTreeInsert env tree fm).2.2),
    .access fun (tree, pc) =>
      match pc with
      | .inserted _ none => (tree, .completing)
      | .inserted fm (some old) => (tree, .matched old fm)
      | pc => (tree, pc)]

/-- `duplicate_tree_find`: a list is created where there is none. -/
def findList (tree : DuplicateTree) (fm : FileMetadata) : DuplicateTree :=
  if fm.sha256 ∈ tree then tree else tree.insert fm.sha256 []

/-- `alist_add` to the list of a file. -/
def addToList (tree : DuplicateTree) (fm item : FileMetadata) : DuplicateTree :=
  tree.insert fm.sha256 (duplicateTreeFind tree fm ++ [item])

/-- The section of `visit_entry` on the duplicates: the list is found, the match is added to an
empty one, a verbose run prints it, and the file is added. -/
def recordDuplicates (cfg : Config) (old fm : FileMetadata) : List (Access n .duplicates) :=
  [.access fun (tree, pc) => (findList tree fm, pc),
    .access fun (tree, pc) =>
      (if (duplicateTreeFind tree fm).isEmpty then addToList tree fm old else tree, pc)] ++
  (if cfg.verbosity > 0 && cfg.shown then [.under .progress] else []) ++
  [.access fun (tree, _) => (addToList tree fm fm, .recorded old fm)]

/-- `ctx->found++`. -/
def countDuplicate (old fm : FileMetadata) : List (Access n .metrics) :=
  [.access fun (found, _) => (found, .tallying found old fm),
    .access fun (found, pc) =>
      match pc with
      | .tallying value old fm => (value + 1, .reporting old fm)
      | pc => (found, pc)]

/-- `main`, from its traversal loop to the joins. -/
def mainNext (cfg : Config) : Point n → Next n
  | .reading [] => .critical .done [.access fun _ => (true, .joining (List.finRange n))]
  | .reading (.failed :: rest) =>
      progressLock cfg [displayProgress fun _ => .reading rest] (.reading rest)
  | .reading (.eligible fe :: rest) => progressLock cfg (countTotal fe rest) (.appending fe rest)
  | .appending fe rest =>
      .critical .queue [.access fun (queue, _) => (queue ++ [fe], .reading rest)]
  | .joining (i :: threads) => .join (some i) (.joining threads)
  | _ => .stop

/-- Where a thread goes with the value of `done` it read. -/
def testDone (done : Bool) : Point n :=
  if done then .returned else .popping

/-- `dedup_work` with `visit_entry`.  `done` is read without its mutex first. -/
def threadNext (cfg : Config) : Point n → Next n
  | .starting => .read .done testDone
  | .popping => .critical .queue fileEntryNext
  | .checking => .critical .done [.access fun (done, _) => (done, testDone done)]
  | .visiting fe =>
      match metadataFromEntry cfg.env fe with
      | none => progressLock cfg [printBeside .completing] .completing
      | some fm => .critical .visited (insertVisited cfg.env fm)
  | .matched old fm => .critical .duplicates (recordDuplicates cfg old fm)
  | .recorded old fm =>
      if fm.cloneId ≠ old.cloneId then .critical .metrics (countDuplicate old fm)
      else .tau .completing
  | .reporting _ _ =>
      if cfg.verbosity > 1 then progressLock cfg [printBeside .completing] .completing
      else .tau .completing
  | .completing => progressLock cfg countCompleted .popping
  | _ => .stop

/-- The process: `main` is `none`. -/
def program (cfg : Config) : Program (Option (Fin n)) Guarded (Point n)
  | none => mainNext cfg
  | some _ => threadNext cfg

/-- The context and the threads at the start of the traversal. -/
def start (entries : List (Traversed FileEntry)) : Atomic (Option (Fin n)) Guarded (Point n) where
  shared
    | .metrics => (0 : Nat)
    | .progress => ({ totalUnitCount := 0, completedUnitCount := 0 }, [])
    | .queue => ([] : List FileEntry)
    | .visited => newVisitedTree
    | .duplicates => newDuplicateTree
    | .done => false
  locals
    | none => .reading entries
    | some _ => .starting

/-! ### The process with atomic sections -/

/-- A point of `main` between its sections. -/
inductive MainAt : Point n → MainPc FileEntry → Prop where
  | reading (rest : List (Traversed FileEntry)) : MainAt (.reading rest) (.reading rest)
  | appending (fe : FileEntry) (rest : List (Traversed FileEntry)) :
      MainAt (.appending fe rest) (.appending fe rest)
  | joining (threads : List (Fin n)) : MainAt (.joining threads) .joining

/-- A point of a thread between its sections. -/
inductive ThreadAt : Point n → ThreadPc → Prop where
  | starting : ThreadAt .starting .starting
  | popping : ThreadAt .popping .popping
  | checking : ThreadAt .checking .checking
  | visiting (fe : FileEntry) : ThreadAt (.visiting fe) (.visiting fe)
  | matched (old fm : FileMetadata) : ThreadAt (.matched old fm) (.matched old fm)
  | recorded (old fm : FileMetadata) : ThreadAt (.recorded old fm) (.recorded old fm)
  | reporting (old fm : FileMetadata) : ThreadAt (.reporting old fm) .completing
  | completing : ThreadAt .completing .completing
  | returned : ThreadAt .returned .returned

/-- The guarded parts are those of the context; of the duplicate tree the lists under the digests
count, not how it came about. -/
structure Shares (cfg : Config) (shared : (m : Mutex) → Guarded m) (queue : List FileEntry)
    (done : Bool) (ctx : ScanContext) (progress : Option Progress)
    (displayed : List Progress) : Prop where
  queue : shared .queue = queue
  done : shared .done = done
  visited : shared .visited = ctx.visited
  duplicates : ∀ digest : Digest, (shared .duplicates)[digest]? = ctx.duplicates[digest]?
  found : shared .metrics = ctx.found
  progress : progress = if cfg.shown then some (shared .progress).1 else none
  displayed : displayed = (shared .progress).2

/-- The process with atomic sections, between two of them. -/
structure Represents (cfg : Config) (c : Atomic (Option (Fin n)) Guarded (Point n))
    (s : ThreadedScan.State n) : Prop where
  main : MainAt (c.locals none) s.main
  threads : ∀ i, ThreadAt (c.locals (some i)) (s.threads i)
  shares : Shares cfg c.shared s.queue s.done s.ctx s.progress s.displayed

namespace Shares

variable {cfg : Config} {shared : (m : Mutex) → Guarded m} {queue : List FileEntry} {done : Bool}
  {ctx : ScanContext} {progress : Option Progress} {displayed : List Progress}

theorem set_queue (h : Shares cfg shared queue done ctx progress displayed)
    (queue' : List FileEntry) :
    Shares cfg (Function.update shared .queue queue') queue' done ctx progress displayed :=
  ⟨by simp, by simpa using h.done, by simpa using h.visited, by simpa using h.duplicates,
    by simpa using h.found, by simpa using h.progress, by simpa using h.displayed⟩

theorem set_done (h : Shares cfg shared queue done ctx progress displayed) (done' : Bool) :
    Shares cfg (Function.update shared .done done') queue done' ctx progress displayed :=
  ⟨by simpa using h.queue, by simp, by simpa using h.visited, by simpa using h.duplicates,
    by simpa using h.found, by simpa using h.progress, by simpa using h.displayed⟩

theorem set_visited (h : Shares cfg shared queue done ctx progress displayed)
    (visited : VisitedTree) :
    Shares cfg (Function.update shared .visited visited) queue done
      { ctx with visited := visited } progress displayed :=
  ⟨by simpa using h.queue, by simpa using h.done, by simp, by simpa using h.duplicates,
    by simpa using h.found, by simpa using h.progress, by simpa using h.displayed⟩

theorem set_duplicates (h : Shares cfg shared queue done ctx progress displayed)
    {tree tree' : DuplicateTree} (same : ∀ digest : Digest, tree[digest]? = tree'[digest]?) :
    Shares cfg (Function.update shared .duplicates tree) queue done
      { ctx with duplicates := tree' } progress displayed :=
  ⟨by simpa using h.queue, by simpa using h.done, by simpa using h.visited, by simpa using same,
    by simpa using h.found, by simpa using h.progress, by simpa using h.displayed⟩

theorem set_found (h : Shares cfg shared queue done ctx progress displayed) (found : Nat) :
    Shares cfg (Function.update shared .metrics found) queue done { ctx with found := found }
      progress displayed :=
  ⟨by simpa using h.queue, by simpa using h.done, by simpa using h.visited,
    by simpa using h.duplicates, by simp, by simpa using h.progress, by simpa using h.displayed⟩

/-- A bar that is displayed after an update. -/
theorem set_progress (h : Shares cfg shared queue done ctx progress displayed)
    (shown : cfg.shown = true) (update : Progress → Progress) :
    Shares cfg
      (Function.update shared .progress
        (update (shared .progress).1, (shared .progress).2 ++ [update (shared .progress).1]))
      queue done ctx (progress.map update) (displayed ++ (progress.map update).toList) := by
  refine ⟨by simpa using h.queue, by simpa using h.done, by simpa using h.visited,
    by simpa using h.duplicates, by simpa using h.found, ?_, ?_⟩
  · simp [h.progress, shown]
  · simp [h.progress, h.displayed, shown]

/-- Without a bar nothing is displayed. -/
theorem hidden (h : Shares cfg shared queue done ctx progress displayed)
    (hidden : cfg.shown = false) (update : Progress → Progress) :
    Shares cfg shared queue done ctx (progress.map update)
      (displayed ++ (progress.map update).toList) := by
  refine ⟨h.queue, h.done, h.visited, h.duplicates, h.found, ?_, ?_⟩
  · simp [h.progress, hidden]
  · simp [h.progress, h.displayed, hidden]

end Shares

/-! ### What the sections do -/

theorem effect_fileEntryNext_nil (pc : Point n) :
    Op.effect fileEntryNext (([] : List FileEntry), pc) = ([], .checking) := rfl

theorem effect_fileEntryNext_cons (fe : FileEntry) (rest : List FileEntry) (pc : Point n) :
    Op.effect fileEntryNext (fe :: rest, pc) = (rest, .visiting fe) := rfl

/-- Where a thread goes once the visited tree has answered. -/
def answered (fm : FileMetadata) : Option FileMetadata → Point n
  | none => .completing
  | some old => .matched old fm

theorem effect_insertVisited (env : ScanEnv) (fm : FileMetadata) (tree : VisitedTree)
    (pc : Point n) :
    Op.effect (insertVisited env fm) (tree, pc) =
      ((visitedTreeInsert env tree fm).1,
        answered (visitedTreeInsert env tree fm).2.1 (visitedTreeInsert env tree fm).2.2) := by
  simp only [Op.effect, insertVisited, List.foldl_cons, List.foldl_nil, Op.run]
  cases (visitedTreeInsert env tree fm).2.2 <;> rfl

theorem effect_countDuplicate (old fm : FileMetadata) (found : Nat) (pc : Point n) :
    Op.effect (countDuplicate old fm) (found, pc) = (found + 1, .reporting old fm) := rfl

theorem find_findList (tree : DuplicateTree) (fm : FileMetadata) :
    duplicateTreeFind (findList tree fm) fm = duplicateTreeFind tree fm := by
  unfold findList
  split
  · rfl
  · simp [duplicateTreeFind, Std.TreeMap.getElem?_eq_none ‹_›]

theorem getElem?_findList_of_ne {fm : FileMetadata} {digest : Digest} (tree : DuplicateTree)
    (h : fm.sha256 ≠ digest) : (findList tree fm)[digest]? = tree[digest]? := by
  unfold findList
  split
  · rfl
  · simp [Std.TreeMap.getElem?_insert, h]

theorem find_addToList (tree : DuplicateTree) (fm item : FileMetadata) :
    duplicateTreeFind (addToList tree fm item) fm = duplicateTreeFind tree fm ++ [item] := by
  simp [addToList, duplicateTreeFind]

theorem getElem?_addToList_of_ne {fm item : FileMetadata} {digest : Digest} (tree : DuplicateTree)
    (h : fm.sha256 ≠ digest) : (addToList tree fm item)[digest]? = tree[digest]? := by
  simp [addToList, Std.TreeMap.getElem?_insert, h]

/-- The list of a file once the match is in it. -/
def withMatch (tree : DuplicateTree) (old fm : FileMetadata) : DuplicateTree :=
  if (duplicateTreeFind (findList tree fm) fm).isEmpty then addToList (findList tree fm) fm old
  else findList tree fm

/-- The section on the duplicates, run to its end. -/
theorem effect_recordDuplicates (cfg : Config) (old fm : FileMetadata) (tree : DuplicateTree)
    (pc : Point n) :
    Op.effect (recordDuplicates cfg old fm) (tree, pc) =
      (addToList (withMatch tree old fm) fm fm, .recorded old fm) := by
  have hprint : ∀ x : Guarded .duplicates × Point n,
      Op.effect (if cfg.verbosity > 0 && cfg.shown then [.under .progress] else []) x = x := by
    intro x
    split <;> rfl
  unfold recordDuplicates
  rw [Op.effect_append, Op.effect_append, hprint]
  rfl

/-- It leaves the lists that `recordDuplicate` leaves, in any tree with the same lists. -/
theorem getElem?_addToList_withMatch (old fm : FileMetadata) {tree tree' : DuplicateTree}
    (same : ∀ digest : Digest, tree[digest]? = tree'[digest]?) (digest : Digest) :
    (addToList (withMatch tree old fm) fm fm)[digest]? =
      (recordDuplicate tree' old fm)[digest]? := by
  have hfind : duplicateTreeFind tree' fm = duplicateTreeFind tree fm := by
    unfold duplicateTreeFind
    rw [same]
  have hmatch : duplicateTreeFind (withMatch tree old fm) fm =
      if (duplicateTreeFind tree fm).isEmpty then duplicateTreeFind tree fm ++ [old]
      else duplicateTreeFind tree fm := by
    unfold withMatch
    rw [find_findList]
    split
    · rw [find_addToList, find_findList]
    · rw [find_findList]
  unfold recordDuplicate
  by_cases hdigest : fm.sha256 = digest
  · subst hdigest
    simp only [addToList, Std.TreeMap.getElem?_insert_self, hmatch, hfind]
  · rw [getElem?_addToList_of_ne _ hdigest, Std.TreeMap.getElem?_insert,
      if_neg (by simpa using hdigest), ← same]
    unfold withMatch
    split
    · rw [getElem?_addToList_of_ne _ hdigest, getElem?_findList_of_ne _ hdigest]
    · rw [getElem?_findList_of_ne _ hdigest]

/-! ### The steps of the process -/

section Refinement

variable {cfg : Config} {c c' : Atomic (Option (Fin n)) Guarded (Point n)}
  {s : ThreadedScan.State n}

/-- Where the next step leads, by the command. -/
theorem after_critical {t : Option (Fin n)} {m : Mutex} {body : List (Access n m)}
    (command : program cfg t (c.locals t) = .critical m body) :
    c.after (program cfg) t =
      { shared := Function.update c.shared m (Op.effect body (c.shared m, c.locals t)).1
        locals := Function.update c.locals t (Op.effect body (c.shared m, c.locals t)).2 } := by
  rw [Atomic.after, command]

theorem after_tau {t : Option (Fin n)} {next : Point n}
    (command : program cfg t (c.locals t) = .tau next) :
    c.after (program cfg) t = { c with locals := Function.update c.locals t next } := by
  rw [Atomic.after, command]

/-- `main` moved. -/
theorem Represents.main_move (h : Represents cfg c s) {p : Point n} {pc : MainPc FileEntry}
    (hpc : MainAt p pc) {shared : (m : Mutex) → Guarded m} {queue : List FileEntry} {done : Bool}
    {progress : Option Progress} {displayed : List Progress}
    (shares : Shares cfg shared queue done s.ctx progress displayed) :
    Represents cfg { shared := shared, locals := Function.update c.locals none p }
      { s with main := pc, queue := queue, done := done, progress := progress,
               displayed := displayed } where
  main := by simpa using hpc
  threads := by simpa using h.threads
  shares := shares

/-- Thread `i` moved. -/
theorem Represents.thread_move (h : Represents cfg c s) (i : Fin n) {p : Point n} {pc : ThreadPc}
    (hpc : ThreadAt p pc) {shared : (m : Mutex) → Guarded m} {queue : List FileEntry}
    {ctx : ScanContext} {progress : Option Progress} {displayed : List Progress}
    (shares : Shares cfg shared queue s.done ctx progress displayed) :
    Represents cfg { shared := shared, locals := Function.update c.locals (some i) p }
      { s.setThread i pc with
        queue := queue, ctx := ctx, progress := progress, displayed := displayed } where
  main := by simpa [ThreadedScan.State.setThread] using h.main
  threads := by
    intro j
    by_cases hj : j = i
    · subst hj
      simpa [ThreadedScan.State.setThread] using hpc
    · simpa [ThreadedScan.State.setThread, hj] using h.threads j
  shares := shares

/-- A step of `main` is a step of the process with atomic sections, but for the joins. -/
theorem main_refines (h : Represents cfg c s) (hstep : AtomicStep (program cfg) c none c') :
    ∃ labels s', Run (ThreadedScan.Step cfg.env) s labels s' ∧ Represents cfg c' s' := by
  obtain ⟨rfl, running⟩ := hstep.eq_after
  have hmain := h.main
  generalize hpc : c.locals none = p at hmain running
  generalize hat : s.main = pc at hmain
  have command : ∀ {next}, mainNext cfg p = next → program cfg none (c.locals none) = next := by
    rintro next rfl
    rw [hpc]
    rfl
  cases hmain with
  | reading rest =>
      cases rest with
      | nil =>
          refine ⟨_, _, .cons (.finish s hat) (.nil _), ?_⟩
          rw [after_critical (command rfl)]
          exact h.main_move (.joining _) (h.shares.set_done true)
      | cons first rest =>
          cases first with
          | failed =>
              refine ⟨_, _, .cons (.readFailed s rest hat) (.nil _), ?_⟩
              cases hshown : cfg.shown with
              | true =>
                  rw [after_critical (command (progressLock_shown hshown _ _))]
                  exact h.main_move (.reading rest) (h.shares.set_progress hshown id)
              | false =>
                  rw [after_tau (command (progressLock_hidden hshown _ _))]
                  exact h.main_move (.reading rest) (h.shares.hidden hshown id)
          | eligible fe =>
              refine ⟨_, _, .cons (.count s fe rest hat) (.nil _), ?_⟩
              cases hshown : cfg.shown with
              | true =>
                  rw [after_critical (command (progressLock_shown hshown _ _))]
                  exact h.main_move (.appending fe rest) (h.shares.set_progress hshown fun p =>
                    { p with totalUnitCount := p.totalUnitCount + 1 })
              | false =>
                  rw [after_tau (command (progressLock_hidden hshown _ _))]
                  exact h.main_move (.appending fe rest) (h.shares.hidden hshown _)
  | appending fe rest =>
      refine ⟨_, _, .cons (.append s fe rest hat) (.nil _), ?_⟩
      rw [after_critical (command rfl)]
      exact h.main_move (.reading rest) (by rw [← h.shares.queue]; exact h.shares.set_queue _)
  | joining threads =>
      cases threads with
      | nil =>
          exact absurd rfl running
      | cons i threads =>
          refine ⟨[], s, .nil s, ?_⟩
          have hafter : c.after (program cfg) none =
              { c with locals := Function.update c.locals none (.joining threads) } := by
            rw [Atomic.after, command rfl]
            rfl
          rw [hafter]
          have hmove := h.main_move (.joining threads) h.shares
          rwa [← hat] at hmove

theorem threadAt_testDone (done : Bool) :
    ThreadAt (testDone done : Point n) (if done then .returned else .popping) := by
  cases done
  · exact .popping
  · exact .returned

/-- A point of a thread after the visited tree has answered. -/
theorem threadAt_answered (fm : FileMetadata) (old : Option FileMetadata) :
    ThreadAt (answered fm old : Point n) (ThreadedScan.afterInsert fm old) := by
  cases old with
  | none => exact .completing
  | some old => exact .matched old fm

/-- A thread that prints beside the bar, or would, and takes no step of the scan. -/
theorem Represents.print (h : Represents cfg c s) {i : Fin n} {pc : ThreadPc}
    (command : program cfg (some i) (c.locals (some i)) =
      progressLock cfg [printBeside .completing] .completing)
    (hpc : ThreadAt (.completing : Point n) pc) :
    Represents cfg (c.after (program cfg) (some i)) (s.setThread i pc) := by
  cases hshown : cfg.shown with
  | true =>
      rw [after_critical (command.trans (progressLock_shown hshown _ _))]
      have hsame : Function.update c.shared .progress (c.shared .progress) = c.shared :=
        Function.update_eq_self _ _
      have hshares := h.shares
      rw [← hsame] at hshares
      exact h.thread_move i hpc hshares
  | false =>
      rw [after_tau (command.trans (progressLock_hidden hshown _ _))]
      exact h.thread_move i hpc h.shares

/-- A step of a thread is a step of the process with atomic sections, or prints. -/
theorem thread_refines {i : Fin n} (h : Represents cfg c s)
    (hstep : AtomicStep (program cfg) c (some i) c') :
    ∃ labels s', Run (ThreadedScan.Step cfg.env) s labels s' ∧ Represents cfg c' s' := by
  obtain ⟨rfl, running⟩ := hstep.eq_after
  have hthread := h.threads i
  generalize hpc : c.locals (some i) = p at hthread running
  generalize hat : s.threads i = pc at hthread
  have command : ∀ {next}, threadNext cfg p = next →
      program cfg (some i) (c.locals (some i)) = next := by
    rintro next rfl
    rw [hpc]
    rfl
  cases hthread with
  | starting =>
      refine ⟨_, _, .cons (.enter s i hat) (.nil _), ?_⟩
      have hafter : c.after (program cfg) (some i) =
          { c with locals := Function.update c.locals (some i) (testDone (c.shared .done)) } := by
        rw [Atomic.after, command rfl]
        rfl
      rw [hafter, h.shares.done]
      exact h.thread_move i (threadAt_testDone s.done) h.shares
  | popping =>
      rw [after_critical (command rfl)]
      have hqueue := h.shares.queue
      cases hfront : s.queue with
      | nil =>
          refine ⟨_, _, .cons (.popEmpty s i hat hfront) (.nil _), ?_⟩
          rw [hqueue, hfront, effect_fileEntryNext_nil, ← hfront]
          exact h.thread_move i .checking (h.shares.set_queue s.queue)
      | cons fe rest =>
          refine ⟨_, _, .cons (.pop s i fe rest hat hfront) (.nil _), ?_⟩
          rw [hqueue, hfront, effect_fileEntryNext_cons]
          exact h.thread_move i (.visiting fe) (h.shares.set_queue rest)
  | checking =>
      refine ⟨_, _, .cons (.check s i hat) (.nil _), ?_⟩
      rw [after_critical (command rfl)]
      have hdone : c.shared .done = s.done := h.shares.done
      have hshares := h.shares.set_done s.done
      rw [hdone]
      exact h.thread_move i (threadAt_testDone s.done) hshares
  | visiting fe =>
      cases hfm : metadataFromEntry cfg.env fe with
      | none =>
          refine ⟨_, _, .cons (.skip s i fe hat hfm) (.nil _), ?_⟩
          exact h.print (command (by simp only [threadNext, hfm])) .completing
      | some fm =>
          refine ⟨_, _, .cons (.insert s i fe fm hat hfm) (.nil _), ?_⟩
          have hvisit : threadNext cfg (.visiting fe : Point n) =
              .critical .visited (insertVisited cfg.env fm) := by
            simp only [threadNext, hfm]
          have htree : c.shared .visited = s.ctx.visited := h.shares.visited
          rw [after_critical (command hvisit), htree, effect_insertVisited]
          exact h.thread_move i (threadAt_answered _ _) (h.shares.set_visited _)
  | matched old fm =>
      refine ⟨_, _, .cons (.record s i old fm hat) (.nil _), ?_⟩
      rw [after_critical (command rfl), effect_recordDuplicates]
      exact h.thread_move i (.recorded old fm) (h.shares.set_duplicates
        (getElem?_addToList_withMatch old fm h.shares.duplicates))
  | recorded old fm =>
      refine ⟨_, _, .cons (.found s i old fm hat) (.nil _), ?_⟩
      by_cases hdiffers : fm.cloneId ≠ old.cloneId
      · have hcount : countFound s.ctx.found old fm = s.ctx.found + 1 := if_pos hdiffers
        have hfound : c.shared .metrics = s.ctx.found := h.shares.found
        rw [after_critical (command (if_pos hdiffers)), hfound, effect_countDuplicate, hcount]
        exact h.thread_move i (.reporting old fm) (h.shares.set_found _)
      · have hcount : countFound s.ctx.found old fm = s.ctx.found := if_neg hdiffers
        rw [after_tau (command (if_neg hdiffers)), hcount]
        exact h.thread_move i .completing h.shares
  | reporting old fm =>
      have hstay : s.setThread i .completing = s := by
        rw [ThreadedScan.State.setThread, ← hat, Function.update_eq_self]
      refine ⟨[], s, .nil s, ?_⟩
      rw [← hstay]
      by_cases hverbose : cfg.verbosity > 1
      · exact h.print (command (if_pos hverbose)) .completing
      · rw [after_tau (command (if_neg hverbose))]
        exact h.thread_move i .completing h.shares
  | completing =>
      refine ⟨_, _, .cons (.complete s i hat) (.nil _), ?_⟩
      cases hshown : cfg.shown with
      | true =>
          rw [after_critical (command (progressLock_shown hshown _ _))]
          exact h.thread_move i .popping (h.shares.set_progress hshown fun p =>
            { p with completedUnitCount := p.completedUnitCount + 1 })
      | false =>
          rw [after_tau (command (progressLock_hidden hshown _ _))]
          exact h.thread_move i .popping (h.shares.hidden hshown _)
  | returned => exact absurd rfl running

end Refinement

/-- With atomic sections the process is the threaded scan. -/
theorem sections_refine (cfg : Config) :
    Simulates (AtomicStep (program (n := n) cfg)) (ThreadedScan.Step cfg.env) (Represents cfg) := by
  intro c t c' s hstep h
  cases t with
  | none => exact main_refines h hstep
  | some i => exact thread_refines h hstep

/-! ### The order of the mutexes -/

/-- The mutex of the duplicates comes before the others. -/
def rank : Mutex → Nat
  | .duplicates => 0
  | _ => 1

theorem rank_le (m : Mutex) : rank m ≤ 1 := by
  cases m <;> decide

/-- `main` comes after its threads. -/
def level : Option (Fin n) → Nat
  | none => 1
  | some _ => 0

/-- A section of `main` or of a thread: one under `PROGRESS_LOCK`, one that takes no further mutex,
or the one on the duplicates.  Only `done` has sections of one access. -/
inductive Sectional (cfg : Config) : Next n → Prop where
  | bar (block : List (Access n .progress)) (plain : ∀ inner, Op.under inner ∉ block) :
      Sectional cfg (.critical .progress block)
  | plain (m : Mutex) (body : List (Access n m)) (other : m ≠ .done)
      (plain : ∀ inner, Op.under inner ∉ body) : Sectional cfg (.critical m body)
  | done (run : Bool × Point n → Bool × Point n) : Sectional cfg (.critical .done [.access run])
  | duplicates (old fm : FileMetadata) :
      Sectional cfg (.critical .duplicates (recordDuplicates cfg old fm))
  | readDone (next : Bool → Point n) : Sectional cfg (.read .done next)
  | tau (next : Point n) : Sectional cfg (.tau next)
  | stop : Sectional cfg .stop

theorem sectional_progressLock (cfg : Config) {block : List (Access n .progress)}
    (next : Point n) (plain : ∀ inner, Op.under inner ∉ block) :
    Sectional cfg (progressLock cfg block next) := by
  unfold progressLock
  split
  · exact .bar block plain
  · exact .tau next

/-- What a thread does next, in any state. -/
theorem sectional_threadNext (cfg : Config) (p : Point n) : Sectional cfg (threadNext cfg p) := by
  cases p with
  | starting => exact .readDone testDone
  | popping => exact .plain .queue _ (by decide) (by simp [fileEntryNext])
  | checking => exact .done _
  | visiting fe =>
      simp only [threadNext]
      split
      · exact sectional_progressLock cfg _ (by simp [printBeside])
      · exact .plain .visited _ (by decide) (by simp [insertVisited])
  | matched old fm => exact .duplicates old fm
  | recorded old fm =>
      simp only [threadNext]
      split
      · exact .plain .metrics _ (by decide) (by simp [countDuplicate])
      · exact .tau _
  | reporting old fm =>
      simp only [threadNext]
      split
      · exact sectional_progressLock cfg _ (by simp [printBeside])
      · exact .tau _
  | completing =>
      exact sectional_progressLock cfg _ (by simp [countCompleted, displayProgress])
  | _ => exact .stop

/-- What `main` does next, in any state, if it does not wait for a thread. -/
theorem sectional_mainNext (cfg : Config) (p : Point n) :
    Sectional cfg (mainNext cfg p) ∨ ∃ i next, mainNext cfg p = .join (some i) next := by
  cases p with
  | reading rest =>
      left
      cases rest with
      | nil => exact .done _
      | cons first rest =>
          cases first with
          | failed => exact sectional_progressLock cfg _ (by simp [displayProgress])
          | eligible fe =>
              exact sectional_progressLock cfg _ (by simp [countTotal, displayProgress])
  | appending fe rest => exact .inl (.plain .queue _ (by decide) (by simp))
  | joining threads =>
      cases threads with
      | nil => exact .inl .stop
      | cons i threads => exact .inr ⟨i, _, rfl⟩
  | _ => exact .inl .stop

/-- What the process does next: a section or a step of its own, or `main` waits. -/
theorem sectional_program (cfg : Config) (t : Option (Fin n)) (p : Point n) :
    Sectional cfg (program cfg t p) ∨
      t = none ∧ ∃ i next, program cfg t p = .join (some i) next := by
  cases t with
  | none => exact (sectional_mainNext cfg p).imp_right fun h => ⟨rfl, h⟩
  | some i => exact .inl (sectional_threadNext cfg p)

/-- The only mutex taken inside of a section is that of the bar, inside the one on the
duplicates. -/
theorem ranked_program (cfg : Config) : Ranked (program (n := n) cfg) rank := by
  intro t p m body command inner hinner
  rcases sectional_program cfg t p with h | ⟨-, i, next, hjoin⟩
  · rw [command] at h
    cases h with
    | bar block plain => exact absurd hinner (plain inner)
    | plain m body other plain => exact absurd hinner (plain inner)
    | done run => simp at hinner
    | duplicates old fm =>
        have hbar : inner = .progress := by
          simp only [recordDuplicates, List.mem_append] at hinner
          rcases hinner with (hinner | hinner) | hinner
          · simp at hinner
          · split at hinner
            · simpa using hinner
            · simp at hinner
          · simp at hinner
        subst hbar
        decide
  · rw [command] at hjoin
    cases hjoin

/-- `main` joins its threads, and they join none. -/
theorem joins_program (cfg : Config) (t : Option (Fin n)) (p : Point n) (other : Option (Fin n))
    (next : Point n) (command : program cfg t p = .join other next) : level other < level t := by
  rcases sectional_program cfg t p with h | ⟨rfl, i, next', hjoin⟩
  · rw [command] at h
    cases h
  · rw [command] at hjoin
    cases hjoin
    exact Nat.zero_lt_one

/-- The sections on `done` are of one access. -/
theorem changesLast_done (cfg : Config) : ChangesLast (program (n := n) cfg) .done := by
  apply changesLast_of_single
  intro t p body command
  rcases sectional_program cfg t p with h | ⟨-, i, next, hjoin⟩
  · rw [command] at h
    cases h with
    | plain m body other plain => exact absurd rfl other
    | done run => rfl
  · rw [command] at hjoin
    cases hjoin

/-- `done` is the only part that is read without its mutex. -/
theorem readsSafely_program (cfg : Config) : ReadsSafely (program (n := n) cfg) := by
  intro t p m next command
  rcases sectional_program cfg t p with h | ⟨-, i, next', hjoin⟩
  · rw [command] at h
    cases h with
    | readDone next => exact changesLast_done cfg
  · rw [command] at hjoin
    cases hjoin

/-! ### Whole runs -/

/-- `dc.progress` at the start. -/
def Config.progress (cfg : Config) : Option Progress :=
  if cfg.shown then some { totalUnitCount := 0, completedUnitCount := 0 } else none

theorem represents_start (cfg : Config) (entries : List (Traversed FileEntry)) :
    Represents (n := n) cfg (start entries) (ThreadedScan.State.init entries cfg.progress) where
  main := .reading entries
  threads := fun _ => .starting
  shares := ⟨rfl, rfl, rfl, fun _ => rfl, rfl, rfl, rfl⟩

/-- The process with its mutexes, from the start of the traversal. -/
abbrev Process (cfg : Config) (entries : List (Traversed FileEntry))
    (labels : List (Option (Fin n))) (s : Interleaved (Option (Fin n)) Guarded (Point n)) : Prop :=
  Run (Step (program cfg)) (start entries).start labels s

/-- Whatever the process does, the process with atomic sections does, and the threaded scan. -/
theorem refines_of_run {cfg : Config} {entries : List (Traversed FileEntry)}
    {labels : List (Option (Fin n))} {s : Interleaved (Option (Fin n)) Guarded (Point n)}
    (run : Process cfg entries labels s) :
    ∃ c labels' u, Related (program cfg) s c ∧ Represents cfg c u ∧
      Run (ThreadedScan.Step cfg.env) (ThreadedScan.State.init entries cfg.progress) labels' u := by
  have simulates := (sections_atomic (readsSafely_program (n := n) cfg)).trans (sections_refine cfg)
  obtain ⟨labels', u, hrun, c, hrelated, hrepresents⟩ :=
    simulates.run run ⟨_, related_start _, represents_start cfg entries⟩
  exact ⟨c, labels', u, hrelated, hrepresents, hrun⟩

/-- `main` has joined its threads, which have returned. -/
structure Returned (s : Interleaved (Option (Fin n)) Guarded (Point n)) : Prop where
  main : s.places none = .outside (.joining [])
  threads : ∀ i, s.places (some i) = .outside .returned

/-- A verbose run with a bar, over files of one byte that are no clones of each other. -/
def loud : Config where
  env := { oneByteEnv with cloneId := fun path => some (if path = ['a'] then 1 else 2) }
  verbosity := 2
  shown := true

/-- Two equal files. -/
def twoEntries : List (Traversed FileEntry) :=
  [.eligible (oneByteFile 1 ['a']), .eligible (oneByteFile 1 ['b'])]

/-- `main` counts and appends both files and sets `done`, while the thread is in its loop.  Then the
thread takes both: the second one is recorded and reported, with the mutex of the bar inside of that
of the duplicates. -/
theorem exists_returned :
    ∃ (before after : List (Option (Fin 1)))
      (s t : Interleaved (Option (Fin 1)) Guarded (Point 1)),
      Process loud twoEntries before s ∧ s.shared .done = true ∧
        Run (Step (program loud)) s after t ∧ Returned t := by
  refine ⟨_, _, _, _, (.cons (.read _ (some 0) _ _ _ rfl rfl) <|
    -- `main`: twice the counter and the queue, and `done`
    .cons (.acquire _ none _ _ _ rfl rfl rfl) <| .cons (.access _ none _ _ _ _ rfl) <|
    .cons (.access _ none _ _ _ _ rfl) <| .cons (.access _ none _ _ _ _ rfl) <|
    .cons (.release _ none _ _ rfl) <|
    .cons (.acquire _ none _ _ _ rfl rfl rfl) <| .cons (.access _ none _ _ _ _ rfl) <|
    .cons (.release _ none _ _ rfl) <|
    .cons (.acquire _ none _ _ _ rfl rfl rfl) <| .cons (.access _ none _ _ _ _ rfl) <|
    .cons (.access _ none _ _ _ _ rfl) <| .cons (.access _ none _ _ _ _ rfl) <|
    .cons (.release _ none _ _ rfl) <|
    .cons (.acquire _ none _ _ _ rfl rfl rfl) <| .cons (.access _ none _ _ _ _ rfl) <|
    .cons (.release _ none _ _ rfl) <|
    .cons (.acquire _ none _ _ _ rfl rfl rfl) <| .cons (.access _ none _ _ _ _ rfl) <| .nil _),
    rfl, (.cons (.release _ none _ _ rfl) <|
    -- the first file: the queue, the visited tree, the counter
    .cons (.acquire _ (some 0) _ _ _ rfl rfl rfl) <| .cons (.access _ (some 0) _ _ _ _ rfl) <|
    .cons (.access _ (some 0) _ _ _ _ rfl) <| .cons (.release _ (some 0) _ _ rfl) <|
    .cons (.acquire _ (some 0) _ _ _ rfl rfl rfl) <| .cons (.access _ (some 0) _ _ _ _ rfl) <|
    .cons (.access _ (some 0) _ _ _ _ rfl) <| .cons (.release _ (some 0) _ _ rfl) <|
    .cons (.acquire _ (some 0) _ _ _ rfl rfl rfl) <| .cons (.access _ (some 0) _ _ _ _ rfl) <|
    .cons (.access _ (some 0) _ _ _ _ rfl) <| .cons (.access _ (some 0) _ _ _ _ rfl) <|
    .cons (.release _ (some 0) _ _ rfl) <|
    -- the second one: the queue and the visited tree,
    .cons (.acquire _ (some 0) _ _ _ rfl rfl rfl) <| .cons (.access _ (some 0) _ _ _ _ rfl) <|
    .cons (.access _ (some 0) _ _ _ _ rfl) <| .cons (.release _ (some 0) _ _ rfl) <|
    .cons (.acquire _ (some 0) _ _ _ rfl rfl rfl) <| .cons (.access _ (some 0) _ _ _ _ rfl) <|
    .cons (.access _ (some 0) _ _ _ _ rfl) <| .cons (.release _ (some 0) _ _ rfl) <|
    -- the duplicates, with the list printed in the midst,
    .cons (.acquire _ (some 0) _ _ _ rfl rfl rfl) <| .cons (.access _ (some 0) _ _ _ _ rfl) <|
    .cons (.access _ (some 0) _ _ _ _ rfl) <| .cons (.nest _ (some 0) _ _ _ _ rfl rfl) <|
    .cons (.unnest _ (some 0) _ _ _ _ rfl) <| .cons (.access _ (some 0) _ _ _ _ rfl) <|
    .cons (.release _ (some 0) _ _ rfl) <|
    -- `found`, the report, and the counter
    .cons (.acquire _ (some 0) _ _ _ rfl rfl rfl) <| .cons (.access _ (some 0) _ _ _ _ rfl) <|
    .cons (.access _ (some 0) _ _ _ _ rfl) <| .cons (.release _ (some 0) _ _ rfl) <|
    .cons (.acquire _ (some 0) _ _ _ rfl rfl rfl) <| .cons (.access _ (some 0) _ _ _ _ rfl) <|
    .cons (.release _ (some 0) _ _ rfl) <|
    .cons (.acquire _ (some 0) _ _ _ rfl rfl rfl) <| .cons (.access _ (some 0) _ _ _ _ rfl) <|
    .cons (.access _ (some 0) _ _ _ _ rfl) <| .cons (.access _ (some 0) _ _ _ _ rfl) <|
    .cons (.release _ (some 0) _ _ rfl) <|
    -- an empty queue, `done`, and the join
    .cons (.acquire _ (some 0) _ _ _ rfl rfl rfl) <| .cons (.access _ (some 0) _ _ _ _ rfl) <|
    .cons (.access _ (some 0) _ _ _ _ rfl) <| .cons (.release _ (some 0) _ _ rfl) <|
    .cons (.acquire _ (some 0) _ _ _ rfl rfl rfl) <| .cons (.access _ (some 0) _ _ _ _ rfl) <|
    .cons (.release _ (some 0) _ _ rfl) <|
    .cons (.join _ none (some 0) _ _ _ rfl rfl rfl rfl) <| .nil _), rfl, fun i => ?_⟩
  rw [Subsingleton.elim i 0]
  rfl

/-- A thread that has stopped has returned. -/
theorem returned_of_stopped {cfg : Config}
    {s : Interleaved (Option (Fin n)) Guarded (Point n)}
    {c : Atomic (Option (Fin n)) Guarded (Point n)} {u : ThreadedScan.State n}
    (related : Related (program cfg) s c) (represents : Represents cfg c u)
    (stopped : ∀ t, (s.places t).Stopped (program cfg) t) : Returned s := by
  have hplace : ∀ t, s.places t = .outside (c.locals t) ∧ program cfg t (c.locals t) = .stop := by
    intro t
    have htracks := related.tracks t
    have hstopped := stopped t
    cases hpc : s.places t with
    | outside a =>
        rw [hpc] at htracks hstopped
        obtain rfl : c.locals t = a := htracks
        exact ⟨rfl, hstopped⟩
    | inside l a rest =>
        rw [hpc] at hstopped
        exact hstopped.elim
    | nested l inner a rest =>
        rw [hpc] at hstopped
        exact hstopped.elim
  constructor
  · obtain ⟨hpc, hstop⟩ := hplace none
    rw [hpc]
    have hmain := represents.main
    generalize c.locals none = p at hmain hstop ⊢
    generalize u.main = pc at hmain
    cases hmain with
    | reading rest =>
        cases rest with
        | nil => cases hstop
        | cons first rest =>
            cases first <;> cases hshown : cfg.shown <;>
              simp [program, mainNext, progressLock, hshown] at hstop
    | appending fe rest => cases hstop
    | joining threads =>
        cases threads with
        | nil => rfl
        | cons i threads => cases hstop
  · intro i
    obtain ⟨hpc, hstop⟩ := hplace (some i)
    rw [hpc]
    have hthread := represents.threads i
    generalize c.locals (some i) = p at hthread hstop ⊢
    generalize u.threads i = pc at hthread
    cases hthread with
    | returned => rfl
    | visiting fe =>
        cases hfm : metadataFromEntry cfg.env fe <;> cases hshown : cfg.shown <;>
          simp [program, threadNext, progressLock, hfm, hshown] at hstop
    | recorded old fm =>
        simp only [program, threadNext] at hstop
        split at hstop <;> cases hstop
    | reporting old fm =>
        simp only [program, threadNext, progressLock] at hstop
        split at hstop
        · split at hstop <;> cases hstop
        · cases hstop
    | completing =>
        simp only [program, threadNext, progressLock] at hstop
        split at hstop <;> cases hstop
    | _ => cases hstop

/-- Where no thread can take a step, all have returned. -/
theorem returned_of_stuck {cfg : Config} {entries : List (Traversed FileEntry)}
    {labels : List (Option (Fin n))} {s : Interleaved (Option (Fin n)) Guarded (Point n)}
    (run : Process cfg entries labels s) (stuck : ∀ t s', ¬ Step (program cfg) s t s') :
    Returned s := by
  obtain ⟨c, -, u, related, represents, -⟩ := refines_of_run run
  apply returned_of_stopped related represents
  intro t
  by_contra running
  have ranked : ∀ t, (s.places t).Ranked rank :=
    run.invariant (I := fun u => ∀ t, (u.places t).Ranked rank)
      (fun u t u' => ranked_step (ranked_program cfg) u t u') fun _ => trivial
  obtain ⟨t', s', hstep⟩ := deadlock_free rank_le (joins_program cfg) related.locked ranked running
  exact stuck t' s' hstep

/-- The process does not deadlock: in every state it can reach, whatever the scheduler did in the
midst of its sections, some thread can take a step, unless all threads have returned and `main`
has joined them. -/
theorem lockedScan_deadlockFree (cfg : Config) (entries : List (Traversed FileEntry))
    (labels : List (Option (Fin n))) (s : Interleaved (Option (Fin n)) Guarded (Point n))
    (run : Process cfg entries labels s) :
    (∀ t s', ¬ Step (program cfg) s t s') ↔ Returned s := by
  constructor
  · exact returned_of_stuck run
  · rintro ⟨hmain, hthreads⟩ t s'
    apply no_step_of_stopped
    cases t with
    | none =>
        rw [hmain]
        rfl
    | some i =>
        rw [hthreads i]
        rfl

theorem lockedScan_deadlockFree_loud :
    ∃ (labels : List (Option (Fin 1))) (s : Interleaved (Option (Fin 1)) Guarded (Point 1)),
      Process loud twoEntries labels s ∧
        ((∀ t s', ¬ Step (program loud) s t s') ↔ Returned s) := by
  obtain ⟨before, after, s, t, run, _, rest, _⟩ := exists_returned
  exact ⟨_, t, run.append rest, lockedScan_deadlockFree loud _ _ t (run.append rest)⟩

/-- What the mutexes guard of the context of the scan. -/
def scanContext (shared : (m : Mutex) → Guarded m) : ScanContext where
  visited := shared .visited
  duplicates := shared .duplicates
  found := shared .metrics

/-- Where all threads are outside of their sections the memory is the atomic one. -/
theorem shared_of_returned {cfg : Config} {s : Interleaved (Option (Fin n)) Guarded (Point n)}
    {c : Atomic (Option (Fin n)) Guarded (Point n)} (related : Related (program cfg) s c)
    (returned : Returned s) (m : Mutex) : c.shared m = s.shared m := by
  apply related.free
  cases howner : s.owner m with
  | none => rfl
  | some t =>
      have holds := (related.locked.owner_iff m t).mp howner
      cases t with
      | none =>
          rw [returned.main] at holds
          exact holds.elim
      | some i =>
          rw [returned.threads i] at holds
          exact holds.elim

/-- Where the process has returned, a threaded scan has, with the context that the mutexes guard. -/
theorem threadedScan_of_returned {cfg : Config} {entries : List (Traversed FileEntry)}
    {labels : List (Option (Fin n))} {s : Interleaved (Option (Fin n)) Guarded (Point n)}
    (run : Process cfg entries labels s) (returned : Returned s) :
    ∃ (labels' : List (ThreadedScan.Label n)) (u : ThreadedScan.State n),
      Run (ThreadedScan.Step cfg.env) (ThreadedScan.State.init entries cfg.progress) labels' u ∧
        u.main = .joining ∧ (∀ i, u.threads i = .returned) ∧
          Shares cfg s.shared u.queue u.done u.ctx u.progress u.displayed := by
  obtain ⟨c, labels', u, related, represents, hrun⟩ := refines_of_run run
  refine ⟨labels', u, hrun, ?_, fun i => ?_, ?_⟩
  · have hat := represents.main
    have htracks := related.tracks none
    rw [returned.main] at htracks
    rw [show c.locals none = .joining [] from htracks] at hat
    generalize u.main = pc at hat
    cases hat
    rfl
  · have hat := represents.threads i
    have htracks := related.tracks (some i)
    rw [returned.threads i] at htracks
    rw [show c.locals (some i) = .returned from htracks] at hat
    generalize u.threads i = pc at hat
    cases hat
    rfl
  · rw [← show c.shared = s.shared from funext (shared_of_returned related returned)]
    exact represents.shares

/-- With the accesses of its sections interleaved too, the process ends with the context of a serial
scan of the files its threads took, in some order, and with the other eligible files in the
queue. -/
theorem lockedScan_serializes (cfg : Config) (entries : List (Traversed FileEntry))
    (labels : List (Option (Fin n))) (s : Interleaved (Option (Fin n)) Guarded (Point n))
    (run : Process cfg entries labels s) (returned : Returned s) :
    ∃ files : List FileEntry, (files ++ s.shared .queue).Perm (eligible entries) ∧
      Serializes cfg.env (scanContext s.shared) files := by
  obtain ⟨labels', u, hrun, hmain, hthreads, shares⟩ := threadedScan_of_returned run returned
  obtain ⟨files, hfiles, hserializes⟩ :=
    ThreadedScan.serialOrder_of_returned hrun hmain hthreads
  refine ⟨files, shares.queue ▸ hfiles, ?_⟩
  have hcongr := hserializes.congr (s.shared .duplicates) shares.duplicates
  simpa only [scanContext, shares.visited, shares.found] using hcongr

theorem lockedScan_serializes_loud :
    ∃ (s : Interleaved (Option (Fin 1)) Guarded (Point 1)) (files : List FileEntry),
      (files ++ s.shared .queue).Perm (eligible twoEntries) ∧
        Serializes loud.env (scanContext s.shared) files := by
  obtain ⟨before, after, s, t, run, _, rest, returned⟩ := exists_returned
  exact ⟨t, lockedScan_serializes loud _ _ t (run.append rest) returned⟩

end Dedup.LockedScan
