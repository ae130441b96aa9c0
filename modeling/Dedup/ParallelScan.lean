/-
Module: Dedup.ParallelScan
Purpose: `visit_entry` run by several workers at once.  Its lock-protected sections interleave:
  the insertion into the visited tree with the copy of the match, the update of the duplicate
  list, and the update of `found`.  A match found under the first lock waits with its worker
  until it is recorded under the second, so the log of recorded matches is a permutation of the
  matches found, less those that wait.
Imports: Dedup.DuplicateLists, Dedup.Lib.Run
Trusted boundary: human-reviewed spec of the lock-protected sections as atomic steps
Main exports: VisitPc, Worker, State, Step, Accounts, accounts_run, HoldsClasses,
  scan_holds_classes
-/
import Dedup.DuplicateLists
import Dedup.Lib.Run

namespace Dedup.ParallelScan

/-! ### The machine -/

/-- Where a worker is in `visit_entry`: between two visits, or with a match that is still to be
recorded or to be counted. -/
inductive VisitPc where
  | idle
  | matched (old fm : FileMetadata)
  | recorded (old fm : FileMetadata)
deriving DecidableEq, Repr

/-- A worker with the files it still has to visit. -/
structure Worker where
  todo : List FileEntry
  pc : VisitPc
deriving DecidableEq, Repr

/-- The shared context and the workers. -/
structure State (n : Nat) where
  ctx : ScanContext
  workers : Fin n → Worker

/-- The lock-protected sections, by worker.  `skip` is a visit whose `metadata_from_entry`
fails, which enters none of them. -/
inductive Label (n : Nat) where
  | skip (i : Fin n)
  | insert (i : Fin n)
  | record (i : Fin n)
  | count (i : Fin n)
deriving DecidableEq, Repr

variable {n : Nat}

/-- The scan before the first visit, with the files distributed over the workers. -/
def State.init (todo : Fin n → List FileEntry) : State n where
  ctx := ScanContext.new
  workers := fun i => { todo := todo i, pc := .idle }

/-- All visits have finished. -/
def State.Finished (s : State n) : Prop :=
  ∀ i, s.workers i = { todo := [], pc := .idle }

/-- Worker `i` moves to `worker`. -/
def State.setWorker (s : State n) (i : Fin n) (worker : Worker) : State n :=
  { s with workers := Function.update s.workers i worker }

/-- Where a worker goes once the visited tree has answered. -/
def afterInsert (rest : List FileEntry) (fm : FileMetadata) : Option FileMetadata → Worker
  | none => { todo := rest, pc := .idle }
  | some old => { todo := rest, pc := .matched old fm }

/-- One section of one worker. -/
inductive Step (env : ScanEnv) : State n → Label n → State n → Prop where
  /-- `metadata_from_entry` returns `NULL`. -/
  | skip (s : State n) (i : Fin n) (fe : FileEntry) (rest : List FileEntry)
      (pc : s.workers i = { todo := fe :: rest, pc := .idle })
      (unreadable : metadataFromEntry env fe = none) :
      Step env s (.skip i) (s.setWorker i { todo := rest, pc := .idle })
  /-- Under `visited_mutex`: insert, and copy the match. -/
  | insert (s : State n) (i : Fin n) (fe : FileEntry) (rest : List FileEntry) (fm : FileMetadata)
      (pc : s.workers i = { todo := fe :: rest, pc := .idle })
      (readable : metadataFromEntry env fe = some fm) :
      Step env s (.insert i)
        { s.setWorker i
            (afterInsert rest (visitedTreeInsert env s.ctx.visited fm).2.1
              (visitedTreeInsert env s.ctx.visited fm).2.2) with
          ctx := { s.ctx with visited := (visitedTreeInsert env s.ctx.visited fm).1 } }
  /-- Under `duplicates_mutex`. -/
  | record (s : State n) (i : Fin n) (todo : List FileEntry) (old fm : FileMetadata)
      (pc : s.workers i = { todo := todo, pc := .matched old fm }) :
      Step env s (.record i)
        { s.setWorker i { todo := todo, pc := .recorded old fm } with
          ctx := { s.ctx with duplicates := recordDuplicate s.ctx.duplicates old fm } }
  /-- Under `metrics_mutex`, which is taken only where the clone ids differ. -/
  | count (s : State n) (i : Fin n) (todo : List FileEntry) (old fm : FileMetadata)
      (pc : s.workers i = { todo := todo, pc := .recorded old fm }) :
      Step env s (.count i)
        { s.setWorker i { todo := todo, pc := .idle } with
          ctx := { s.ctx with found := countFound s.ctx.found old fm } }

/-! ### Matches found and matches recorded -/

/-- The match a worker holds and has not recorded, under its keys. -/
def waiting (worker : Worker) : Multiset (VisitedKey × FileMetadata × FileMetadata) :=
  match worker.pc with
  | .matched old fm => {((fm.leafKey, fm.sha256), old, fm)}
  | _ => 0

/-- What a match adds to `found`. -/
def differs (entry : VisitedKey × FileMetadata × FileMetadata) : Bool :=
  entry.2.2.cloneId ≠ entry.2.1.cloneId

/-- What a worker has recorded and not counted. -/
def uncounted (worker : Worker) : Nat :=
  match worker.pc with
  | .recorded old fm => if fm.cloneId ≠ old.cloneId then 1 else 0
  | _ => 0

/-- The bindings of the files a worker has still to visit. -/
def toVisit (env : ScanEnv) (worker : Worker) : Multiset (VisitedKey × FileMetadata) :=
  bindings env worker.todo

/-- The books of a scan in progress: `files` were inserted, in this order, and the matches in
`log` were recorded, in that order. -/
structure Accounts (env : ScanEnv) (s : State n)
    (total : Multiset (VisitedKey × FileMetadata)) (files : List (VisitedKey × FileMetadata))
    (log : List (VisitedKey × FileMetadata × FileMetadata)) : Prop where
  visited : view env s.ctx.visited = FirstWins.run files
  duplicates : Recorded s.ctx.duplicates (log.map Prod.snd)
  visits : (files : Multiset (VisitedKey × FileMetadata)) + ∑ i, toVisit env (s.workers i) = total
  recorded : (log : Multiset (VisitedKey × FileMetadata × FileMetadata)) +
    ∑ i, waiting (s.workers i) = FirstWins.matched files
  found : s.ctx.found + ∑ i, uncounted (s.workers i) = log.countP differs

theorem accounts_init (env : ScanEnv) (todo : Fin n → List FileEntry) :
    Accounts env (State.init todo) (∑ i, (bindings env (todo i) : Multiset _)) [] [] where
  visited := view_newVisitedTree env
  duplicates := recorded_new
  visits := by simp [State.init, toVisit]
  recorded := by simp [State.init, waiting, FirstWins.matched, FirstWins.matched.go]
  found := by simp [State.init, uncounted, ScanContext.new]

/-- The sum over the workers after worker `i` moved. -/
theorem sum_setWorker {M : Type} [AddCommMonoid M] (s : State n) (i : Fin n) (worker : Worker)
    (measure : Worker → M) :
    (∑ j, measure ((s.setWorker i worker).workers j)) + measure (s.workers i) =
      (∑ j, measure (s.workers j)) + measure worker :=
  sum_update s.workers i worker measure

section Preservation

variable {env : ScanEnv} {total : Multiset (VisitedKey × FileMetadata)}
  {files : List (VisitedKey × FileMetadata)}
  {log : List (VisitedKey × FileMetadata × FileMetadata)} {s : State n} {i : Fin n}
  {fe : FileEntry} {rest todo : List FileEntry} {old fm : FileMetadata}

theorem toVisit_cons (pc : VisitPc) :
    toVisit env { todo := fe :: rest, pc := pc } =
      ((scanRecord env fe).toList : Multiset _) + toVisit env { todo := rest, pc := pc } := by
  simp only [toVisit, bindings, List.filterMap_cons]
  cases scanRecord env fe <;> simp

/-- A visit that finds nothing to insert passes over its file. -/
theorem Accounts.pass (h : Accounts env s total files log)
    (pc : s.workers i = { todo := fe :: rest, pc := .idle }) (hfe : scanRecord env fe = none) :
    Accounts env (s.setWorker i { todo := rest, pc := .idle }) total files log where
  visited := h.visited
  duplicates := h.duplicates
  visits := by
    have hsum := sum_setWorker s i { todo := rest, pc := .idle } (toVisit env)
    rw [pc, toVisit_cons, hfe, Option.toList_none, Multiset.coe_nil, zero_add] at hsum
    rw [add_right_cancel hsum, h.visits]
  recorded := by
    have hsum := sum_setWorker s i { todo := rest, pc := .idle } waiting
    rw [pc] at hsum
    rw [add_right_cancel hsum, h.recorded]
  found := by
    have hsum := sum_setWorker s i { todo := rest, pc := .idle } uncounted
    rw [pc] at hsum
    rw [add_right_cancel hsum]
    exact h.found

/-- An insertion appends its file; a match it finds waits with the worker. -/
theorem Accounts.insert {key : VisitedKey} {value : FileMetadata}
    (h : Accounts env s total files log)
    (pc : s.workers i = { todo := fe :: rest, pc := .idle })
    (readable : metadataFromEntry env fe = some fm)
    (hidentified : identified env fm = some (key, value)) :
    Accounts env
      { s.setWorker i (afterInsert rest (visitedTreeInsert env s.ctx.visited fm).2.1
          (visitedTreeInsert env s.ctx.visited fm).2.2) with
        ctx := { s.ctx with visited := (visitedTreeInsert env s.ctx.visited fm).1 } }
      total (files ++ [(key, value)]) log := by
  rcases visitedTreeInsert_of_identified hidentified s.ctx.visited with ⟨hold, hview⟩
  rw [FirstWins.insert_snd, h.visited] at hold
  rw [h.visited, ← FirstWins.run_append_singleton] at hview
  have hfe : scanRecord env fe = some (key, value) := by
    simp [scanRecord, readable, hidentified]
  -- the worker keeps exactly the match that the insertion adds
  obtain ⟨worker, hworker, htodo, hwaiting, huncounted⟩ : ∃ worker : Worker,
      afterInsert rest (visitedTreeInsert env s.ctx.visited fm).2.1
        (visitedTreeInsert env s.ctx.visited fm).2.2 = worker ∧ worker.todo = rest ∧
      waiting worker = ((FirstWins.run files key).map fun old => (key, old, value)).toList ∧
      uncounted worker = 0 := by
    cases hrun : FirstWins.run files key with
    | none =>
        rw [hold, hrun]
        exact ⟨_, rfl, rfl, rfl, rfl⟩
    | some old =>
        rw [hrun] at hold
        rcases identified_keys hidentified with ⟨hleaf, hsha⟩
        rw [visitedTreeInsert_populated hidentified hold, hold]
        exact ⟨_, rfl, rfl, by simp [waiting, afterInsert, hleaf, hsha], rfl⟩
  rw [hworker]
  refine ⟨hview, h.duplicates, ?_, ?_, ?_⟩
  · have hsum := sum_setWorker s i worker (toVisit env)
    have hrest : toVisit env worker = toVisit env { todo := rest, pc := .idle } := by
      simp [toVisit, htodo]
    rw [pc, toVisit_cons, hfe, hrest, ← add_assoc] at hsum
    rw [← h.visits, ← add_right_cancel hsum, ← Multiset.coe_add]
    simp only [Option.toList_some]
    abel
  · have hsum := sum_setWorker s i worker waiting
    rw [pc, hwaiting, show waiting { todo := fe :: rest, pc := .idle } = 0 from rfl,
      add_zero] at hsum
    rw [FirstWins.matched_append_singleton, ← Multiset.coe_add, ← h.recorded, add_assoc, ← hsum]
  · have hsum := sum_setWorker s i worker uncounted
    rw [pc, huncounted] at hsum
    rw [← h.found, ← add_right_cancel hsum]

/-- Recording a match moves it from the worker to the log. -/
theorem Accounts.record (h : Accounts env s total files log)
    (pc : s.workers i = { todo := todo, pc := .matched old fm }) :
    Accounts env
      { s.setWorker i { todo := todo, pc := .recorded old fm } with
        ctx := { s.ctx with duplicates := recordDuplicate s.ctx.duplicates old fm } }
      total files (log ++ [((fm.leafKey, fm.sha256), old, fm)]) := by
  refine ⟨h.visited, ?_, ?_, ?_, ?_⟩
  · simpa using h.duplicates.record old fm
  · have hsum := sum_setWorker s i { todo := todo, pc := .recorded old fm } (toVisit env)
    rw [pc] at hsum
    rw [← h.visits, ← add_right_cancel hsum]
  · have hsum := sum_setWorker s i { todo := todo, pc := .recorded old fm } waiting
    rw [pc] at hsum
    rw [← h.recorded, ← Multiset.coe_add, add_assoc]
    congr 1
    rw [add_comm]
    simpa [waiting] using hsum
  · have hsum := sum_setWorker s i { todo := todo, pc := .recorded old fm } uncounted
    rw [pc] at hsum
    rw [List.countP_append, ← h.found]
    simp only [uncounted, add_zero, differs, List.countP_singleton, decide_eq_true_eq] at hsum ⊢
    omega

/-- Counting a match adds it to `found` if its clone ids differ. -/
theorem Accounts.count (h : Accounts env s total files log)
    (pc : s.workers i = { todo := todo, pc := .recorded old fm }) :
    Accounts env
      { s.setWorker i { todo := todo, pc := .idle } with
        ctx := { s.ctx with found := countFound s.ctx.found old fm } }
      total files log := by
  refine ⟨h.visited, h.duplicates, ?_, ?_, ?_⟩
  · have hsum := sum_setWorker s i { todo := todo, pc := .idle } (toVisit env)
    rw [pc] at hsum
    rw [← h.visits, ← add_right_cancel hsum]
  · have hsum := sum_setWorker s i { todo := todo, pc := .idle } waiting
    rw [pc] at hsum
    rw [← h.recorded, ← add_right_cancel hsum]
  · have hsum := sum_setWorker s i { todo := todo, pc := .idle } uncounted
    rw [pc] at hsum
    rw [← h.found]
    simp only [uncounted, add_zero, countFound] at hsum ⊢
    split_ifs at hsum ⊢ <;> omega

/-- Every section of every worker keeps the books. -/
theorem accounts_step {label : Label n} {s' : State n} (hstep : Step env s label s')
    (h : Accounts env s total files log) : ∃ files log, Accounts env s' total files log := by
  cases hstep with
  | skip i fe rest pc unreadable =>
      exact ⟨files, log, h.pass pc (by simp [scanRecord, unreadable])⟩
  | insert i fe rest fm pc readable =>
      cases hidentified : identified env fm with
      | none =>
          rcases visitedTreeInsert_of_unreadable hidentified s.ctx.visited with ⟨hold, hview⟩
          have hpass := h.pass pc (by simp [scanRecord, readable, hidentified])
          rw [hold]
          exact ⟨files, log, hview.trans h.visited, h.duplicates, hpass.visits, hpass.recorded,
            hpass.found⟩
      | some binding =>
          exact ⟨files ++ [binding], log, h.insert pc readable hidentified⟩
  | record i todo old fm pc => exact ⟨files, _, h.record pc⟩
  | count i todo old fm pc => exact ⟨files, log, h.count pc⟩

end Preservation

/-- A whole run keeps the books. -/
theorem accounts_run {env : ScanEnv} {todo : Fin n → List FileEntry} {s : State n}
    {labels : List (Label n)} (run : Run (Step env) (State.init todo) labels s) :
    ∃ files log, Accounts env s (∑ i, (bindings env (todo i) : Multiset _)) files log := by
  apply run.invariant
    (I := fun u => ∃ files log,
      Accounts env u (∑ i, (bindings env (todo i) : Multiset _)) files log)
  · rintro s label s' hstep ⟨files, log, h⟩
    exact accounts_step hstep h
  · exact ⟨[], [], accounts_init env todo⟩

/-! ### The duplicate sets of one volume -/

/-- Files of one device, with the sizes of their contents, on whose contents SHA-256 has no
collision. -/
structure OneVolume (env : ScanEnv) (fes : List FileEntry) (device : Int) : Prop where
  device_eq : ∀ fe ∈ fes, fe.device = device
  size_eq : ∀ fe ∈ fes, fe.size = (env.contents fe.path).length
  faithful : ∀ a ∈ fes, ∀ b ∈ fes, ∀ keyA keyB : VisitedKey, ∀ fmA fmB : FileMetadata,
    scanRecord env a = some (keyA, fmA) → scanRecord env b = some (keyB, fmB) →
      keyA.2 = keyB.2 → env.contents a.path = env.contents b.path

/-- There is exactly one list for each class of at least two readable files that agree in their
keys; it holds the files of its class, each as often as it was visited, and nothing else; a class
of one file has no list. -/
structure HoldsClasses (env : ScanEnv) (fes : List FileEntry) (tree : DuplicateTree) : Prop where
  list_of_class : ∀ key : VisitedKey, 2 ≤ (filesUnder env fes key).length →
    ∃ list, tree[key.2]? = some list ∧ list.Perm (filesUnder env fes key)
  class_of_list : ∀ (digest : Digest) (list : List FileMetadata), tree[digest]? = some list →
    ∃ key : VisitedKey, key.2 = digest ∧ 2 ≤ (filesUnder env fes key).length ∧
      list.Perm (filesUnder env fes key)
  class_unique : ∀ key key' : VisitedKey, 2 ≤ (filesUnder env fes key).length →
    2 ≤ (filesUnder env fes key').length → key.2 = key'.2 → key = key'
  no_list_of_one : ∀ key : VisitedKey, (filesUnder env fes key).length = 1 → tree[key.2]? = none

section OneVolume

variable {env : ScanEnv} {fes : List FileEntry} {device : Int}

/-- The keys of a readable file, read off its content. -/
theorem scanRecord_leafKey {fe : FileEntry} {key : VisitedKey} {value : FileMetadata}
    (h : scanRecord env fe = some (key, value)) :
    key.1.device = fe.device ∧ key.1.size = fe.size ∧
      (env.contents fe.path).head?.map charOfByte = some key.1.first ∧
      (env.contents fe.path).getLast?.map charOfByte = some key.1.last := by
  rcases Option.bind_eq_some_iff.mp h with ⟨fm, hfm, hidentified⟩
  rcases Option.map_eq_some_iff.mp hidentified with ⟨digest, _, hpair⟩
  rcases Prod.mk.inj hpair with ⟨rfl, rfl⟩
  rcases metadataFromEntry_eq_some hfm with ⟨first, last, hfirst, hlast, rfl⟩
  simp [FileMetadata.leafKey, hfirst, hlast]

/-- On one volume the digest of a file determines its other keys. -/
theorem OneVolume.key_eq (h : OneVolume env fes device)
    {binding binding' : VisitedKey × FileMetadata}
    (hmem : binding ∈ bindings env fes) (hmem' : binding' ∈ bindings env fes)
    (hdigest : binding.1.2 = binding'.1.2) : binding.1 = binding'.1 := by
  rcases List.mem_filterMap.mp hmem with ⟨fe, hfe, hrecord⟩
  rcases List.mem_filterMap.mp hmem' with ⟨fe', hfe', hrecord'⟩
  have hcontents := h.faithful fe hfe fe' hfe' _ _ _ _ hrecord hrecord' hdigest
  rcases scanRecord_leafKey hrecord with ⟨hdevice, hsize, hfirst, hlast⟩
  rcases scanRecord_leafKey hrecord' with ⟨hdevice', hsize', hfirst', hlast'⟩
  rw [h.device_eq fe hfe] at hdevice
  rw [h.device_eq fe' hfe'] at hdevice'
  rw [h.size_eq fe hfe, hcontents] at hsize
  rw [h.size_eq fe' hfe'] at hsize'
  rw [hcontents, hfirst', Option.some.injEq] at hfirst
  rw [hcontents, hlast', Option.some.injEq] at hlast
  have hleaf : binding.1.1 = binding'.1.1 :=
    LeafKey.ext (hdevice.trans hdevice'.symm) (hsize.trans hsize'.symm) hfirst.symm hlast.symm
  exact Prod.ext hleaf hdigest

/-- A class that is not empty has a file. -/
theorem exists_binding_of_length_pos {key : VisitedKey}
    (h : 0 < (filesUnder env fes key).length) : ∃ fm, (key, fm) ∈ bindings env fes := by
  rcases List.exists_mem_of_length_pos h with ⟨fm, hfm⟩
  rcases List.mem_map.mp hfm with ⟨⟨key', fm'⟩, hfilter, rfl⟩
  rcases List.mem_filter.mp hfilter with ⟨hmem, hkey⟩
  obtain rfl : key' = key := by simpa using hkey
  exact ⟨fm', hmem⟩

/-- On one volume classes with one digest are one class. -/
theorem OneVolume.class_eq (h : OneVolume env fes device) {key key' : VisitedKey}
    (hkey : 0 < (filesUnder env fes key).length) (hkey' : 0 < (filesUnder env fes key').length)
    (hdigest : key.2 = key'.2) : key = key' := by
  rcases exists_binding_of_length_pos hkey with ⟨fm, hmem⟩
  rcases exists_binding_of_length_pos hkey' with ⟨fm', hmem'⟩
  exact h.key_eq hmem hmem' hdigest

/-- The list of matches that share their earlier file. -/
theorem joined_of_same_earlier {log : List (FileMetadata × FileMetadata)} {old : FileMetadata}
    (hsame : ∀ entry ∈ log, entry.1 = old) (hne : log ≠ []) :
    joined log = some (old :: log.map Prod.snd) := by
  cases log with
  | nil => exact absurd rfl hne
  | cons first log => simp [joined, hsame first List.mem_cons_self]

/-- Below the digest of a file the log holds the matches of its key only. -/
theorem OneVolume.getElem?_eq_joined (h : OneVolume env fes device)
    {files : List (VisitedKey × FileMetadata)}
    {log : List (VisitedKey × FileMetadata × FileMetadata)} {tree : DuplicateTree}
    (hfiles : files.Perm (bindings env fes)) (hlog : log.Perm (FirstWins.matched files))
    (htree : Recorded tree (log.map Prod.snd)) {key : VisitedKey} {fm : FileMetadata}
    (hmem : (key, fm) ∈ files) :
    tree[key.2]? = joined ((log.filter fun entry => entry.1 = key).map Prod.snd) := by
  have hunder : log.filter (fun entry => entry.2.2.sha256 = key.2) =
      log.filter (fun entry => entry.1 = key) := by
    apply List.filter_congr
    rintro ⟨key', old', fm'⟩ hentry
    obtain ⟨rest, hfilter, hrest⟩ := FirstWins.mem_matched (hlog.subset hentry)
    have hmem' : (key', fm') ∈ files := by
      have hin : (key', fm') ∈ files.filter fun binding => binding.1 = key' := by
        rw [hfilter]
        exact List.mem_cons_of_mem _ hrest
      exact (List.mem_filter.mp hin).1
    obtain ⟨fe, _, hfe⟩ := List.mem_filterMap.mp (hfiles.subset hmem')
    have hsha : fm'.sha256 = key'.2 := (scanRecord_keys hfe).2
    have hiff : fm'.sha256 = key.2 ↔ key' = key := by
      rw [hsha]
      constructor
      · intro hdigest
        exact h.key_eq (hfiles.subset hmem') (hfiles.subset hmem) hdigest
      · rintro rfl
        rfl
    simp [hiff]
  rw [htree key.2, List.filter_map, ← hunder]
  rfl

/-- The list under a digest, where the books are closed: the class with that digest if it has two
files, and no list otherwise. -/
theorem OneVolume.list_of_log (h : OneVolume env fes device)
    {files : List (VisitedKey × FileMetadata)}
    {log : List (VisitedKey × FileMetadata × FileMetadata)} {tree : DuplicateTree}
    (hfiles : files.Perm (bindings env fes)) (hlog : log.Perm (FirstWins.matched files))
    (htree : Recorded tree (log.map Prod.snd)) {key : VisitedKey} {fm : FileMetadata}
    (hmem : (key, fm) ∈ files) :
    if 2 ≤ (filesUnder env fes key).length then
      ∃ list, tree[key.2]? = some list ∧ list.Perm (filesUnder env fes key)
    else tree[key.2]? = none := by
  have hget := h.getElem?_eq_joined hfiles hlog htree hmem
  -- the matches of the key are its later files, each with the first one
  have hclass : (filesUnder env fes key).Perm
      ((files.filter fun binding => binding.1 = key).map Prod.snd) :=
    ((hfiles.filter _).map _).symm
  have hmatches : (log.filter fun entry => entry.1 = key).Perm
      ((FirstWins.matched files).filter fun entry => entry.1 = key) := hlog.filter _
  rw [FirstWins.matched_filter] at hmatches
  rw [hget, hclass.length_eq, List.length_map]
  cases hfilter : files.filter fun binding => binding.1 = key with
  | nil =>
      have hnil := List.filter_eq_nil_iff.mp hfilter (key, fm) hmem
      simp at hnil
  | cons first rest =>
      rw [hfilter] at hmatches hclass
      cases rest with
      | nil =>
          have hempty : log.filter (fun entry => entry.1 = key) = [] := by simpa using hmatches
          rw [if_neg (by simp), hempty]
          rfl
      | cons second rest =>
          rw [if_pos (by simp)]
          have hsame : ∀ entry ∈ (log.filter fun entry => entry.1 = key).map Prod.snd,
              entry.1 = first.2 := by
            intro entry hentry
            rcases List.mem_map.mp hentry with ⟨entry', hentry', rfl⟩
            obtain ⟨binding, _, rfl⟩ := List.mem_map.mp (hmatches.subset hentry')
            rfl
          have hne : (log.filter fun entry => entry.1 = key).map Prod.snd ≠ [] := by
            intro hnil
            have hlength := hmatches.length_eq
            rw [List.map_eq_nil_iff.mp hnil] at hlength
            simp at hlength
          refine ⟨_, joined_of_same_earlier hsame hne, ?_⟩
          have hlater := (hmatches.map Prod.snd).map Prod.snd
          apply List.Perm.trans _ hclass.symm
          rw [List.map_cons]
          apply List.Perm.cons
          simpa [List.map_map, Function.comp_def] using hlater

/-- Where every match was recorded the tree holds the classes. -/
theorem OneVolume.holdsClasses (h : OneVolume env fes device)
    {files : List (VisitedKey × FileMetadata)}
    {log : List (VisitedKey × FileMetadata × FileMetadata)} {tree : DuplicateTree}
    (hfiles : files.Perm (bindings env fes)) (hlog : log.Perm (FirstWins.matched files))
    (htree : Recorded tree (log.map Prod.snd)) : HoldsClasses env fes tree where
  list_of_class := by
    intro key hkey
    have hpos : 0 < (filesUnder env fes key).length := by omega
    rcases exists_binding_of_length_pos hpos with ⟨fm, hmem⟩
    have hlist := h.list_of_log hfiles hlog htree (hfiles.symm.subset hmem)
    rwa [if_pos hkey] at hlist
  class_of_list := by
    intro digest list hlist
    rw [htree digest] at hlist
    -- a list has a match, and its later file has a class
    have hne : (log.map Prod.snd).filter (fun entry => entry.2.sha256 = digest) ≠ [] := by
      intro hnil
      simp [hnil, joined] at hlist
    rcases List.exists_mem_of_ne_nil _ hne with ⟨pair, hpair⟩
    rcases List.mem_filter.mp hpair with ⟨hpair, hdigest⟩
    rcases List.mem_map.mp hpair with ⟨⟨key, old, fm⟩, hentry, rfl⟩
    obtain ⟨rest, hfilter, hrest⟩ := FirstWins.mem_matched (hlog.subset hentry)
    have hin : (key, fm) ∈ files.filter fun binding => binding.1 = key := by
      rw [hfilter]
      exact List.mem_cons_of_mem _ hrest
    have hmem := (List.mem_filter.mp hin).1
    obtain ⟨fe, _, hfe⟩ := List.mem_filterMap.mp (hfiles.subset hmem)
    obtain rfl : key.2 = digest := by
      have hsha : fm.sha256 = digest := by simpa using hdigest
      rw [← hsha, (scanRecord_keys hfe).2]
    have htwo : 2 ≤ (filesUnder env fes key).length := by
      have hperm : (filesUnder env fes key).Perm
          ((files.filter fun binding => binding.1 = key).map Prod.snd) :=
        ((hfiles.filter _).map _).symm
      have hpos := List.length_pos_of_mem hrest
      rw [hperm.length_eq, hfilter, List.length_map, List.length_cons]
      omega
    have hclass := h.list_of_log hfiles hlog htree hmem
    rw [if_pos htwo, htree key.2, hlist] at hclass
    rcases hclass with ⟨list', hlist', hperm⟩
    obtain rfl := Option.some.inj hlist'
    exact ⟨key, rfl, htwo, hperm⟩
  class_unique := by
    intro key key' hkey hkey' hdigest
    exact h.class_eq (by omega) (by omega) hdigest
  no_list_of_one := by
    intro key hkey
    have hpos : 0 < (filesUnder env fes key).length := by omega
    rcases exists_binding_of_length_pos hpos with ⟨fm, hmem⟩
    have hlist := h.list_of_log hfiles hlog htree (hfiles.symm.subset hmem)
    rwa [if_neg (by omega)] at hlist

end OneVolume

/-- A run that has finished has inserted every file and recorded every match. -/
theorem closed_of_finished {env : ScanEnv} {fes : List FileEntry} {todo : Fin n → List FileEntry}
    {s : State n} {labels : List (Label n)}
    (distributed : (∑ i, (todo i : Multiset FileEntry)) = fes)
    (run : Run (Step env) (State.init todo) labels s) (finished : s.Finished) :
    ∃ (files : List (VisitedKey × FileMetadata))
      (log : List (VisitedKey × FileMetadata × FileMetadata)),
      files.Perm (bindings env fes) ∧ log.Perm (FirstWins.matched files) ∧
      Recorded s.ctx.duplicates (log.map Prod.snd) ∧ s.ctx.found = log.countP differs := by
  rcases accounts_run run with ⟨files, log, h⟩
  have htotal : (∑ i, (bindings env (todo i) : Multiset (VisitedKey × FileMetadata))) =
      bindings env fes := by
    have hmap := congrArg (Multiset.filterMap (scanRecord env)) distributed
    rw [Multiset.filterMap_coe] at hmap
    rw [bindings, ← hmap]
    induction (Finset.univ : Finset (Fin n)) using Finset.induction_on with
    | empty => simp
    | insert i indices hi ih =>
        rw [Finset.sum_insert hi, Finset.sum_insert hi, ih, Multiset.filterMap_add]
        simp [bindings]
  refine ⟨files, log, ?_, ?_, h.duplicates, ?_⟩
  · have hvisits := h.visits
    rw [htotal] at hvisits
    simp only [finished _, toVisit, bindings, List.filterMap_nil, Multiset.coe_nil,
      Finset.sum_const_zero, add_zero] at hvisits
    exact Multiset.coe_eq_coe.mp hvisits
  · have hrecorded := h.recorded
    simp only [finished _, waiting, Finset.sum_const_zero, add_zero] at hrecorded
    exact Multiset.coe_eq_coe.mp hrecorded
  · have hfound := h.found
    simpa [finished _, uncounted] using hfound

/-- Threaded and serial scans build the same duplicate sets.  Whatever the number of workers, the
distribution of the files and the order of the sections, the tree holds the classes of the files
when all visits have finished, as it does after a serial scan. -/
theorem scan_holds_classes (env : ScanEnv) (fes : List FileEntry) (device : Int)
    (volume : OneVolume env fes device) (todo : Fin n → List FileEntry)
    (distributed : (∑ i, (todo i : Multiset FileEntry)) = fes) (s : State n)
    (labels : List (Label n)) (run : Run (Step env) (State.init todo) labels s)
    (finished : s.Finished) :
    HoldsClasses env fes s.ctx.duplicates ∧ HoldsClasses env fes (visitAll env fes).duplicates := by
  constructor
  · rcases closed_of_finished distributed run finished with ⟨files, log, hfiles, hlog, htree, _⟩
    exact volume.holdsClasses hfiles hlog htree
  · exact volume.holdsClasses (List.Perm.refl _) (List.Perm.refl _)
      (describes_visitAll env fes).duplicates

/-! ### Serial scans -/

/-- One worker at the end of its work. -/
theorem setWorker_single (s : State 1) (worker : Worker) :
    s.setWorker 0 worker = { s with workers := fun _ => worker } := by
  unfold State.setWorker
  congr 1
  funext i
  rw [Subsingleton.elim i 0]
  simp

/-- One worker that runs alone visits its files one after the other. -/
theorem run_single (env : ScanEnv) (fes : List FileEntry) (ctx : ScanContext) :
    ∃ labels, Run (Step env) ({ ctx := ctx, workers := fun _ => ⟨fes, .idle⟩ } : State 1) labels
      { ctx := fes.foldl (visitEntry env) ctx, workers := fun _ => ⟨[], .idle⟩ } := by
  induction fes generalizing ctx with
  | nil => exact ⟨[], .nil _⟩
  | cons fe fes ih =>
      obtain ⟨labels, run⟩ := ih (visitEntry env ctx fe)
      rw [List.foldl_cons]
      cases hfm : metadataFromEntry env fe with
      | none =>
          have hvisit : visitEntry env ctx fe = ctx := by simp [visitEntry, hfm]
          rw [hvisit] at run ⊢
          have hstep : Step env _ _ _ :=
            .skip { ctx := ctx, workers := fun _ => ⟨fe :: fes, .idle⟩ } (0 : Fin 1) fe fes rfl hfm
          rw [setWorker_single] at hstep
          exact ⟨_, .cons hstep run⟩
      | some fm =>
          have hinsert : Step env _ _ _ := .insert
            { ctx := ctx, workers := fun _ => ⟨fe :: fes, .idle⟩ } (0 : Fin 1) fe fes fm rfl hfm
          rw [setWorker_single] at hinsert
          obtain ⟨⟨visited, populated, old⟩, hanswer⟩ :
            ∃ answer, visitedTreeInsert env ctx.visited fm = answer := ⟨_, rfl⟩
          cases old with
          | none =>
              have hvisit : visitEntry env ctx fe = { ctx with visited := visited } := by
                simp [visitEntry, hfm, hanswer]
              rw [hvisit] at run ⊢
              simp only [hanswer, afterInsert] at hinsert
              exact ⟨_, .cons hinsert run⟩
          | some old =>
              have hvisit : visitEntry env ctx fe =
                  { visited := visited, duplicates := recordDuplicate ctx.duplicates old populated,
                    found := countFound ctx.found old populated } := by
                simp [visitEntry, hfm, hanswer]
              rw [hvisit] at run ⊢
              simp only [hanswer, afterInsert] at hinsert
              have hrecord : Step env _ _ _ := .record
                { ctx := { ctx with visited := visited },
                  workers := fun _ => ⟨fes, .matched old populated⟩ } (0 : Fin 1) fes old populated
                    rfl
              rw [setWorker_single] at hrecord
              have hcount : Step env _ _ _ := .count
                { ctx := { ctx with
                    visited := visited
                    duplicates := recordDuplicate ctx.duplicates old populated },
                  workers := fun _ => ⟨fes, .recorded old populated⟩ } (0 : Fin 1) fes old populated
                    rfl
              rw [setWorker_single] at hcount
              exact ⟨_, .cons hinsert (.cons hrecord (.cons hcount run))⟩

/-- A serial scan is a run of one worker. -/
theorem run_visitAll (env : ScanEnv) (fes : List FileEntry) :
    ∃ (s : State 1) (labels : List (Label 1)),
      Run (Step env) (State.init fun _ => fes) labels s ∧ s.Finished ∧
        s.ctx = visitAll env fes := by
  rcases run_single env fes ScanContext.new with ⟨labels, run⟩
  exact ⟨_, labels, run, fun _ => rfl, rfl⟩

/-- Two equal files, one for each of two workers. -/
def oneEach : Fin 2 → List FileEntry :=
  ![[oneByteFile 1 ['a']], [oneByteFile 1 ['b']]]

theorem oneVolume_oneEach :
    OneVolume oneByteEnv [oneByteFile 1 ['a'], oneByteFile 1 ['b']] 1 where
  device_eq := by simp [oneByteFile]
  size_eq := by simp [oneByteFile, oneByteEnv]
  faithful := by simp [oneByteEnv]

/-- The scan of the two files. -/
theorem scan_holds_classes_oneEach :
    ∃ s : State 2, HoldsClasses oneByteEnv [oneByteFile 1 ['a'], oneByteFile 1 ['b']]
        s.ctx.duplicates ∧
      HoldsClasses oneByteEnv [oneByteFile 1 ['a'], oneByteFile 1 ['b']]
        (visitAll oneByteEnv [oneByteFile 1 ['a'], oneByteFile 1 ['b']]).duplicates := by
  obtain ⟨s, run, finished⟩ : ∃ s : State 2, Run (Step oneByteEnv) (State.init oneEach)
      [.insert 0, .insert 1, .record 1, .count 1] s ∧ s.Finished := by
    refine ⟨_, .cons (.insert _ 0 _ _ _ rfl rfl) (.cons (.insert _ 1 _ _ _ rfl rfl)
      (.cons (.record _ 1 _ _ _ rfl) (.cons (.count _ 1 _ _ _ rfl) (.nil _)))), ?_⟩
    intro i
    fin_cases i <;> rfl
  exact ⟨s, scan_holds_classes oneByteEnv _ 1 oneVolume_oneEach oneEach
    (Fin.sum_univ_two _) s _ run finished⟩

end Dedup.ParallelScan
