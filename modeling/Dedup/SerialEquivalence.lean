/-
Module: Dedup.SerialEquivalence
Purpose: What a threaded scan leaves when its threads have returned: the context of a serial scan
  of the files they took, in the order of their insertions.  The visited tree stands for the same
  map and the same number of duplicates is found; the lists of the duplicate tree hold the same
  files behind their first one, which on one volume is the same too.  The files that no thread took
  are those left in the queue.
Imports: Dedup.ThreadedScan, Dedup.ReportedTotals
Trusted boundary: human-reviewed spec of the lock-protected sections as atomic steps
Main exports: Serializes, serializes_of_closed, serialOrder_of_returned,
  threadedScan_serializes
-/
import Dedup.ThreadedScan
import Dedup.ReportedTotals

namespace Dedup.ThreadedScan

open WorkQueue (Traversed eligible MainPc Progress pending PopsAfterLastAppend)
open ParallelScan (Accounts accounts_run OneVolume HoldsClasses differs)

/-! ### Logs in another order -/

/-- Lists that hold the same files behind their first one. -/
def SameLater (list list' : List FileMetadata) : Prop :=
  list.tail.Perm list'.tail

/-- A log in another order leaves the same later files. -/
theorem joined_perm {log log' : List (FileMetadata × FileMetadata)} (h : log.Perm log') :
    Option.Rel SameLater (joined log) (joined log') := by
  cases log with
  | nil =>
      rw [List.nil_perm.mp h]
      exact .none
  | cons first log =>
      cases log' with
      | nil => simp at h
      | cons first' log' =>
          apply Option.Rel.some
          exact h.map Prod.snd

/-! ### Scans in another order -/

/-- `ctx` is what a serial scan of `files` leaves, up to the order within the lists of
duplicates. -/
structure Serializes (env : ScanEnv) (ctx : ScanContext) (files : List FileEntry) : Prop where
  visited : view env ctx.visited = view env (visitAll env files).visited
  found : ctx.found = (visitAll env files).found
  later : ∀ digest : Digest,
    Option.Rel SameLater ctx.duplicates[digest]? (visitAll env files).duplicates[digest]?
  lists : ∀ device, OneVolume env files device → ∀ digest : Digest,
    Option.Rel List.Perm ctx.duplicates[digest]? (visitAll env files).duplicates[digest]?
  classes : ∀ device, OneVolume env files device → HoldsClasses env files ctx.duplicates
  members : ∀ (digest : Digest) (list : List FileMetadata), ctx.duplicates[digest]? = some list →
    ∀ fm ∈ list, ∃ fe ∈ files, ∃ leafKey, scanRecord env fe = some ((leafKey, digest), fm)

/-- The members of a list that a log of matches leaves are records of the files. -/
theorem exists_file_of_recorded {env : ScanEnv} {files : List FileEntry} {tree : DuplicateTree}
    {log : List (VisitedKey × FileMetadata × FileMetadata)} (hlog : log.Perm (matchesOf env files))
    (recorded : Recorded tree (log.map Prod.snd)) {digest : Digest} {list : List FileMetadata}
    (hlist : tree[digest]? = some list) {fm : FileMetadata} (hmem : fm ∈ list) :
    ∃ fe ∈ files, ∃ leafKey, scanRecord env fe = some ((leafKey, digest), fm) := by
  rw [recorded digest] at hlist
  obtain ⟨entry, hentry, hfm⟩ := mem_joined hlist hmem
  obtain ⟨hmapped, hdigest⟩ := List.mem_filter.mp hentry
  obtain ⟨⟨key, old, new⟩, hmatch, rfl⟩ := List.mem_map.mp hmapped
  have hmatch : (key, old, new) ∈ matchesOf env files := hlog.subset hmatch
  obtain rfl : key.2 = digest := (mem_matchesOf hmatch).2.1.2.symm.trans (by simpa using hdigest)
  obtain ⟨rest, hfilter, hnew⟩ := FirstWins.mem_matched hmatch
  have hbinding : (key, fm) ∈ (key, old) :: rest := by
    rcases hfm with rfl | rfl
    · exact List.mem_cons_self
    · exact List.mem_cons_of_mem _ hnew
  rw [← hfilter] at hbinding
  obtain ⟨fe, hfe, hrecord⟩ := List.mem_filterMap.mp (List.mem_filter.mp hbinding).1
  exact ⟨fe, hfe, key.1, hrecord⟩

/-- Two trees that hold the same classes hold the same lists. -/
theorem lists_of_holdsClasses {env : ScanEnv} {files : List FileEntry} {tree tree' : DuplicateTree}
    (h : HoldsClasses env files tree) (h' : HoldsClasses env files tree') (digest : Digest) :
    Option.Rel List.Perm tree[digest]? tree'[digest]? := by
  cases hlist : tree[digest]? with
  | none =>
      cases hlist' : tree'[digest]? with
      | none => exact .none
      | some list' =>
          obtain ⟨key, rfl, hkey, _⟩ := h'.class_of_list digest list' hlist'
          obtain ⟨list, hfound, _⟩ := h.list_of_class key hkey
          simp [hlist] at hfound
  | some list =>
      obtain ⟨key, rfl, hkey, hperm⟩ := h.class_of_list digest list hlist
      obtain ⟨list', hlist', hperm'⟩ := h'.list_of_class key hkey
      rw [hlist']
      exact .some (hperm.trans hperm'.symm)

/-- Closed books are those of a serial scan in the order of the insertions. -/
theorem serializes_of_closed {env : ScanEnv} {ctx : ScanContext} {files : List FileEntry}
    (log : List (VisitedKey × FileMetadata × FileMetadata))
    (visited : view env ctx.visited = FirstWins.run (bindings env files))
    (hlog : log.Perm (matchesOf env files))
    (duplicates : Recorded ctx.duplicates (log.map Prod.snd))
    (found : ctx.found = log.countP differs) : Serializes env ctx files := by
  have serial := describes_visitAll env files
  have classes : ∀ device, OneVolume env files device → HoldsClasses env files ctx.duplicates :=
    fun device volume => volume.holdsClasses (List.Perm.refl _) hlog duplicates
  refine ⟨?_, ?_, ?_, ?_, classes, fun digest list hlist fm hmem =>
    exists_file_of_recorded hlog duplicates hlist hmem⟩
  · rw [visited, serial.visited]
  · rw [found, serial.found]
    exact hlog.countP_eq _
  · intro digest
    rw [duplicates digest, serial.duplicates digest]
    exact joined_perm ((hlog.map Prod.snd).filter _)
  · intro device volume
    have hserial : HoldsClasses env files (visitAll env files).duplicates :=
      volume.holdsClasses (List.Perm.refl _) (List.Perm.refl _) serial.duplicates
    exact lists_of_holdsClasses (classes device volume) hserial

/-- Only the lists under the digests count. -/
theorem holdsClasses_congr {env : ScanEnv} {files : List FileEntry} {tree tree' : DuplicateTree}
    (same : ∀ digest : Digest, tree'[digest]? = tree[digest]?) (h : HoldsClasses env files tree) :
    HoldsClasses env files tree' where
  list_of_class := by simpa only [same] using h.list_of_class
  class_of_list := by simpa only [same] using h.class_of_list
  class_unique := h.class_unique
  no_list_of_one := by simpa only [same] using h.no_list_of_one

/-- So do they here. -/
theorem Serializes.congr {env : ScanEnv} {ctx : ScanContext} {files : List FileEntry}
    (h : Serializes env ctx files) (tree : DuplicateTree)
    (same : ∀ digest : Digest, tree[digest]? = ctx.duplicates[digest]?) :
    Serializes env { ctx with duplicates := tree } files where
  visited := h.visited
  found := h.found
  later := by simpa only [same] using h.later
  lists := by simpa only [same] using h.lists
  classes := fun device volume => holdsClasses_congr same (h.classes device volume)
  members := fun digest list hlist => h.members digest list ((same digest).symm.trans hlist)

/-! ### The end of a threaded scan -/

variable {n : Nat}

/-- The bindings of the files of all workers. -/
theorem sum_bindings (env : ScanEnv) (todo : Fin n → List FileEntry) :
    (∑ i, (bindings env (todo i) : Multiset (VisitedKey × FileMetadata))) =
      Multiset.filterMap (scanRecord env) (∑ i, (todo i : Multiset FileEntry)) := by
  induction (Finset.univ : Finset (Fin n)) using Finset.induction_on with
  | empty => simp
  | insert i indices hi ih =>
      rw [Finset.sum_insert hi, Finset.sum_insert hi, ih, Multiset.filterMap_add]
      simp [bindings]

/-- The books of a parallel scan that has finished are closed. -/
theorem closed_of_accounts {env : ScanEnv} {p : ParallelScan.State n}
    {total : Multiset (VisitedKey × FileMetadata)} {files : List (VisitedKey × FileMetadata)}
    {log : List (VisitedKey × FileMetadata × FileMetadata)}
    (h : Accounts env p total files log) (finished : p.Finished) :
    (files : Multiset (VisitedKey × FileMetadata)) = total ∧
      log.Perm (FirstWins.matched files) ∧ p.ctx.found = log.countP differs := by
  have hvisits := h.visits
  have hrecorded := h.recorded
  have hfound := h.found
  simp only [finished _, ParallelScan.toVisit, bindings, List.filterMap_nil, Multiset.coe_nil,
    Finset.sum_const_zero, add_zero] at hvisits
  simp only [finished _, ParallelScan.waiting, Finset.sum_const_zero, add_zero] at hrecorded
  simp only [finished _, ParallelScan.uncounted, Finset.sum_const_zero, add_zero] at hfound
  exact ⟨hvisits, Multiset.coe_eq_coe.mp hrecorded, hfound⟩

/-- A parallel scan that has finished is a serial scan in the order of its insertions. -/
theorem serializes_of_finished {env : ScanEnv} {todo : Fin n → List FileEntry}
    {p : ParallelScan.State n} {labels : List (ParallelScan.Label n)}
    (run : Run (ParallelScan.Step env) (ParallelScan.State.init todo) labels p)
    (finished : p.Finished) :
    ∃ files : List FileEntry, (files : Multiset FileEntry) = ∑ i, (todo i : Multiset FileEntry) ∧
      Serializes env p.ctx files := by
  obtain ⟨inserted, log, h⟩ := accounts_run run
  obtain ⟨htotal, hlog, hfound⟩ := closed_of_accounts h finished
  obtain ⟨source, hsource⟩ : ∃ source : List FileEntry,
      (source : Multiset FileEntry) = ∑ i, (todo i : Multiset FileEntry) := Quot.exists_rep _
  have hinserted : inserted.Perm (source.filterMap (scanRecord env)) := by
    rw [sum_bindings, ← hsource] at htotal
    exact Multiset.coe_eq_coe.mp (htotal.trans (Multiset.filterMap_coe _ _))
  obtain ⟨files, hperm, hfiles⟩ :=
    exists_perm_filterMap (scanRecord env) hinserted source rfl
  refine ⟨files, (Multiset.coe_eq_coe.mpr hperm).trans hsource, ?_⟩
  have hbindings : bindings env files = inserted := hfiles
  apply serializes_of_closed log
  · rw [hbindings]
    exact h.visited
  · rw [matchesOf, hbindings]
    exact hlog
  · exact h.duplicates
  · exact hfound

/-- The visits of a process whose threads have returned have finished. -/
theorem Visits.finished {env : ScanEnv} {s : State n} {todo : Fin n → List FileEntry}
    {p : ParallelScan.State n} (h : Visits env s todo p)
    (returned : ∀ i, s.threads i = .returned) : p.Finished := by
  intro i
  rw [h.workers i, returned i]
  rfl

/-- Where `main` waits and its threads have returned, the context is that of a serial scan of the
files they took, in some order, and the other eligible files are queued. -/
theorem serialOrder_of_returned {env : ScanEnv} {entries : List (Traversed FileEntry)}
    {progress : Option Progress} {s : State n} {labels : List (Label n)}
    (run : Run (Step env) (State.init entries progress) labels s) (hmain : s.main = .joining)
    (returned : ∀ i, s.threads i = .returned) :
    ∃ files : List FileEntry, (files ++ s.queue).Perm (eligible entries) ∧
      Serializes env s.ctx files := by
  obtain ⟨todo, p, h, haccount⟩ := visits_run run
  obtain ⟨_, prun⟩ := h.run
  obtain ⟨files, hfiles, hserializes⟩ := serializes_of_finished prun (h.finished returned)
  refine ⟨files, ?_, h.ctx ▸ hserializes⟩
  rw [account, hmain, ← hfiles] at haccount
  simpa [pending] using haccount

/-- In every run of a threaded scan that ends with its threads returned after `done`, the context
is that of a serial scan of the files they took, in some order; these are all eligible files but
those left in the queue, and none is left there if and only if there was none or some thread calls
`file_entry_next` after the last append. -/
theorem threadedScan_serializes (env : ScanEnv) (entries : List (Traversed FileEntry))
    (progress : Option Progress) (s : State n) (labels : List (Label n))
    (run : Run (Step env) (State.init entries progress) labels s) (hdone : s.done = true)
    (returned : ∀ i, s.threads i = .returned) :
    ∃ files : List FileEntry, (files ++ s.queue).Perm (eligible entries) ∧
      Serializes env s.ctx files ∧
      (s.queue = [] ↔
        eligible entries = [] ∨ PopsAfterLastAppend (labels.flatMap queueLabels)) := by
  obtain ⟨w, qrun, visited, hw⟩ := (queueSimulation env).run run ⟨[], rfl⟩
  have hinit : (State.init entries progress : State n).queueView [] =
      WorkQueue.State.init entries progress := rfl
  rw [hinit] at qrun
  have hreturned : ∀ i, w.workers i = .returned := by
    intro i
    rw [hw]
    simp [State.queueView, returned i, ThreadPc.worker]
  have hmain : s.main = .joining := by
    have hjoining : w.done = true → w.main = .joining :=
      qrun.invariant (I := fun u => u.done = true → u.main = .joining)
        (fun _ _ _ hstep h => WorkQueue.done_step hstep h) (by simp [WorkQueue.State.init])
    rw [hw] at hjoining
    exact hjoining hdone
  obtain ⟨files, hfiles, hserializes⟩ := serialOrder_of_returned run hmain returned
  refine ⟨files, hfiles, hserializes, ?_⟩
  have hiff := WorkQueue.queue_nil_iff qrun (by rw [hw]; exact hdone) hreturned
  rw [hw] at hiff
  exact hiff

/-- Two equal files and two threads; the second file is inserted first. -/
def overlappingSchedule : List (Label 2) :=
  [.enter 0, .enter 1, .count, .append, .pop 0, .count, .append, .finish, .pop 1, .insert 1,
    .insert 0, .complete 1, .popEmpty 1, .check 1, .record 0, .found 0, .complete 0, .popEmpty 0,
    .check 0]

theorem threadedScan_serializes_overlappingSchedule :
    ∃ (s : State 2) (files : List FileEntry),
      (files ++ s.queue).Perm (eligible
        [.eligible (oneByteFile 1 ['a']), .eligible (oneByteFile 1 ['b'])]) ∧
      Serializes oneByteEnv s.ctx files ∧
      (s.queue = [] ↔
        eligible [.eligible (oneByteFile 1 ['a']), .eligible (oneByteFile 1 ['b'])] = [] ∨
          PopsAfterLastAppend (overlappingSchedule.flatMap queueLabels)) := by
  obtain ⟨s, run, hdone, returned⟩ : ∃ s : State 2,
      Run (Step oneByteEnv) (State.init
        [.eligible (oneByteFile 1 ['a']), .eligible (oneByteFile 1 ['b'])] none)
        overlappingSchedule s ∧ s.done = true ∧ ∀ i, s.threads i = .returned := by
    refine ⟨_, .cons (.enter _ 0 rfl) (.cons (.enter _ 1 rfl) (.cons (.count _ _ _ rfl)
      (.cons (.append _ _ _ rfl) (.cons (.pop _ 0 _ _ rfl rfl) (.cons (.count _ _ _ rfl)
      (.cons (.append _ _ _ rfl) (.cons (.finish _ rfl) (.cons (.pop _ 1 _ _ rfl rfl)
      (.cons (.insert _ 1 _ _ rfl rfl) (.cons (.insert _ 0 _ _ rfl rfl)
      (.cons (.complete _ 1 rfl) (.cons (.popEmpty _ 1 rfl rfl) (.cons (.check _ 1 rfl)
      (.cons (.record _ 0 _ _ rfl) (.cons (.found _ 0 _ _ rfl) (.cons (.complete _ 0 rfl)
      (.cons (.popEmpty _ 0 rfl rfl) (.cons (.check _ 0 rfl)
      (.nil _))))))))))))))))))), rfl, ?_⟩
    intro i
    fin_cases i <;> rfl
  exact ⟨s, threadedScan_serializes oneByteEnv _ none s overlappingSchedule run hdone returned⟩

end Dedup.ThreadedScan
