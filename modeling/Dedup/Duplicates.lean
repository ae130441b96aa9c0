/-
Module: Dedup.Duplicates
Purpose: The duplicate tree of `map.c` and `visit_entry` of `dedup.c`: the file is looked up in
  the visited tree and, when an earlier file matched it, recorded in the list of its digest.  The
  lists are read off the log of the matches: a list starts with the earlier file of the first
  match and then holds the later files of all of them.
Imports: Dedup.VisitedRefinement
Trusted boundary: rbtree(3) as an ordered map; an `AList` is told by the list of its items
Main exports: DuplicateTree, recordDuplicate, ScanContext, visitEntry, visitAll, scanRecord,
  describes_visitAll
-/
import Dedup.VisitedRefinement

namespace Dedup

open Std (TreeMap)

/-! ### The duplicate tree -/

/-- The duplicate tree: the list of a `SHA256ListNode` under its digest. -/
abbrev DuplicateTree := TreeMap Digest (List FileMetadata)

/-- `new_duplicate_tree`. -/
def newDuplicateTree : DuplicateTree := ∅

/-- `duplicate_tree_find`: the list under the digest of `fm`, created empty where there is none. -/
def duplicateTreeFind (tree : DuplicateTree) (fm : FileMetadata) : List FileMetadata :=
  tree[fm.sha256]?.getD []

/-- The section of `visit_entry` under `duplicates_mutex`: the earlier file is added to an empty
list, and then the file itself. -/
def recordDuplicate (tree : DuplicateTree) (old fm : FileMetadata) : DuplicateTree :=
  let list := duplicateTreeFind tree fm
  let list := if list.isEmpty then list ++ [old] else list
  tree.insert fm.sha256 (list ++ [fm])

/-- The section of `visit_entry` under `metrics_mutex`, on `ctx->found`. -/
def countFound (found : Nat) (old fm : FileMetadata) : Nat :=
  if fm.cloneId ≠ old.cloneId then found + 1 else found

/-! ### `visit_entry` -/

/-- The fields of `DedupContext` that `visit_entry` updates. -/
structure ScanContext where
  visited : VisitedTree
  duplicates : DuplicateTree
  found : Nat

/-- The context before the first visit. -/
def ScanContext.new : ScanContext where
  visited := newVisitedTree
  duplicates := newDuplicateTree
  found := 0

/-- `visit_entry`, run to its end without an interruption. -/
def visitEntry (env : ScanEnv) (ctx : ScanContext) (fe : FileEntry) : ScanContext :=
  match metadataFromEntry env fe with
  | none => ctx
  | some fm =>
      let (visited, fm, old) := visitedTreeInsert env ctx.visited fm
      match old with
      | none => { ctx with visited := visited }
      | some old =>
          { visited := visited
            duplicates := recordDuplicate ctx.duplicates old fm
            found := countFound ctx.found old fm }

/-- The visits of a list of files, one after the other. -/
def visitAll (env : ScanEnv) (fes : List FileEntry) : ScanContext :=
  fes.foldl (visitEntry env) ScanContext.new

/-- The earlier file that `visit_entry` finds for a file, with the record of the file itself. -/
def matchOfVisit (env : ScanEnv) (ctx : ScanContext) (fe : FileEntry) :
    Option (FileMetadata × FileMetadata) :=
  (metadataFromEntry env fe).bind fun fm =>
    let (_, fm, old) := visitedTreeInsert env ctx.visited fm
    old.map fun old => (old, fm)

/-! ### Lists as logs of matches -/

/-- The list a log of matches leaves: the earlier file of the first match, then every later
file. -/
def joined : List (FileMetadata × FileMetadata) → Option (List FileMetadata)
  | [] => none
  | (old, fm) :: log => some (old :: fm :: log.map Prod.snd)

/-- One more match at the end of a log. -/
theorem joined_append_singleton (log : List (FileMetadata × FileMetadata))
    (old fm : FileMetadata) :
    joined (log ++ [(old, fm)]) = some (((joined log).getD [old]) ++ [fm]) := by
  cases log with
  | nil => rfl
  | cons first log => simp [joined]

/-- A log leaves no empty list. -/
theorem joined_ne_some_nil (log : List (FileMetadata × FileMetadata)) :
    joined log ≠ some [] := by
  cases log <;> simp [joined]

/-- `tree` holds, under each digest, the list of the matches recorded under it. -/
def Recorded (tree : DuplicateTree) (log : List (FileMetadata × FileMetadata)) : Prop :=
  ∀ digest, tree[digest]? = joined (log.filter fun entry => entry.2.sha256 = digest)

theorem recorded_new : Recorded newDuplicateTree [] := by
  intro digest
  simp [newDuplicateTree, joined]

/-- Recording a match appends it to the log. -/
theorem Recorded.record {tree : DuplicateTree} {log : List (FileMetadata × FileMetadata)}
    (h : Recorded tree log) (old fm : FileMetadata) :
    Recorded (recordDuplicate tree old fm) (log ++ [(old, fm)]) := by
  intro digest
  unfold recordDuplicate duplicateTreeFind
  rw [TreeMap.getElem?_insert, h, List.filter_append]
  rcases eq_or_ne fm.sha256 digest with rfl | hdigest
  · simp only [Std.compare_self, if_true, List.filter_cons_of_pos, List.filter_nil,
      joined_append_singleton, decide_true]
    cases hlog : joined (log.filter fun entry => entry.2.sha256 = fm.sha256) with
    | none => simp
    | some list =>
        have hne : list ≠ [] := fun hnil => joined_ne_some_nil _ (hnil ▸ hlog)
        simp [hne]
  · simp [hdigest, h digest]

/-! ### The matches of a sequence of visits -/

/-- The record of a file with its digest written, under its five keys; `none` where the file
cannot be read or its digest cannot be obtained. -/
def scanRecord (env : ScanEnv) (fe : FileEntry) : Option (VisitedKey × FileMetadata) :=
  (metadataFromEntry env fe).bind (identified env)

/-- A record carries the keys it is found under. -/
theorem identified_keys {env : ScanEnv} {fm value : FileMetadata} {key : VisitedKey}
    (h : identified env fm = some (key, value)) :
    value.leafKey = key.1 ∧ value.sha256 = key.2 := by
  rcases Option.map_eq_some_iff.mp h with ⟨digest, _, hpair⟩
  rcases Prod.mk.inj hpair with ⟨rfl, rfl⟩
  exact ⟨rfl, rfl⟩

theorem scanRecord_keys {env : ScanEnv} {fe : FileEntry} {value : FileMetadata}
    {key : VisitedKey} (h : scanRecord env fe = some (key, value)) :
    value.leafKey = key.1 ∧ value.sha256 = key.2 := by
  rcases Option.bind_eq_some_iff.mp h with ⟨fm, _, hfm⟩
  exact identified_keys hfm

/-- The record that a call with a match leaves behind carries its digest. -/
theorem visitedTreeInsert_populated {env : ScanEnv} {tree : VisitedTree}
    {fm value old : FileMetadata} {key : VisitedKey} (h : identified env fm = some (key, value))
    (hold : (visitedTreeInsert env tree fm).2.2 = some old) :
    (visitedTreeInsert env tree fm).2.1 = value := by
  rcases Option.map_eq_some_iff.mp h with ⟨digest, hobtain, hpair⟩
  rcases Prod.mk.inj hpair with ⟨-, rfl⟩
  simp only [visitedTreeInsert, lastNodeInsert_eq, hobtain] at hold ⊢
  split at hold
  · split at hold
    · simp at hold
    · rename_i shortcut hshortcut
      cases hdigest : obtainSha256 env shortcut <;> simp_all
      split at hold <;> simp_all
  · split at hold <;> simp_all

/-- The bindings that the readable files of a list stand for. -/
def bindings (env : ScanEnv) (fes : List FileEntry) : List (VisitedKey × FileMetadata) :=
  fes.filterMap (scanRecord env)

/-- The matches of a list of visits, in order: key, earlier file, later file. -/
def matchesOf (env : ScanEnv) (fes : List FileEntry) :
    List (VisitedKey × FileMetadata × FileMetadata) :=
  FirstWins.matched (bindings env fes)

/-- One more visit adds the match of its file, if there is one. -/
theorem matchesOf_append_singleton (env : ScanEnv) (fes : List FileEntry) (fe : FileEntry) :
    matchesOf env (fes ++ [fe]) = matchesOf env fes ++
      ((scanRecord env fe).bind fun binding =>
        (FirstWins.run (bindings env fes) binding.1).map fun old =>
          (binding.1, old, binding.2)).toList := by
  unfold matchesOf bindings
  rw [List.filterMap_append]
  cases h : scanRecord env fe with
  | none => simp [h]
  | some binding =>
      rw [List.filterMap_cons_some h, List.filterMap_nil]
      exact FirstWins.matched_append_singleton _ binding.1 binding.2

/-- What a scan leaves behind, told by the files visited: the naive map, the log of the matches,
and the number of matches of different clone ids. -/
structure ScanContext.Describes (env : ScanEnv) (ctx : ScanContext)
    (files : List (VisitedKey × FileMetadata))
    (log : List (VisitedKey × FileMetadata × FileMetadata)) : Prop where
  visited : view env ctx.visited = FirstWins.run files
  duplicates : Recorded ctx.duplicates (log.map Prod.snd)
  found : ctx.found = log.countP fun entry => entry.2.2.cloneId ≠ entry.2.1.cloneId

theorem describes_new (env : ScanEnv) : ScanContext.new.Describes env [] [] where
  visited := view_newVisitedTree env
  duplicates := recorded_new
  found := rfl

/-- A visit of a file that cannot be read or hashed records nothing. -/
theorem ScanContext.Describes.visit_none {env : ScanEnv} {ctx : ScanContext}
    {files : List (VisitedKey × FileMetadata)}
    {log : List (VisitedKey × FileMetadata × FileMetadata)} (h : ctx.Describes env files log)
    {fe : FileEntry} (hfe : scanRecord env fe = none) :
    (visitEntry env ctx fe).Describes env files log ∧ matchOfVisit env ctx fe = none := by
  unfold visitEntry matchOfVisit
  cases hfm : metadataFromEntry env fe with
  | none => exact ⟨h, rfl⟩
  | some fm =>
      have hidentified : identified env fm = none := by simpa [scanRecord, hfm] using hfe
      rcases visitedTreeInsert_of_unreadable hidentified ctx.visited with ⟨hold, hview⟩
      simp only [hold, Option.bind_some, Option.map_none, and_true]
      exact ⟨hview.trans h.visited, h.duplicates, h.found⟩

/-- A visit of a readable file records what the naive map holds under its keys. -/
theorem ScanContext.Describes.visit_some {env : ScanEnv} {ctx : ScanContext}
    {files : List (VisitedKey × FileMetadata)}
    {log : List (VisitedKey × FileMetadata × FileMetadata)} (h : ctx.Describes env files log)
    {fe : FileEntry} {key : VisitedKey} {value : FileMetadata}
    (hfe : scanRecord env fe = some (key, value)) :
    (visitEntry env ctx fe).Describes env (files ++ [(key, value)])
        (log ++ ((FirstWins.run files key).map fun old => (key, old, value)).toList) ∧
      matchOfVisit env ctx fe = (FirstWins.run files key).map fun old => (old, value) := by
  rcases Option.bind_eq_some_iff.mp hfe with ⟨fm, hfm, hidentified⟩
  rcases visitedTreeInsert_of_identified hidentified ctx.visited with ⟨hold, hview⟩
  rw [FirstWins.insert_snd, h.visited] at hold
  rw [h.visited, ← FirstWins.run_append_singleton] at hview
  unfold visitEntry matchOfVisit
  simp only [hfm, Option.bind_some, hold]
  cases hrun : FirstWins.run files key with
  | none =>
      refine ⟨⟨hview, by simpa using h.duplicates, by simpa using h.found⟩, rfl⟩
  | some old =>
      rw [hrun] at hold
      rw [visitedTreeInsert_populated hidentified hold]
      refine ⟨⟨hview, ?_, ?_⟩, rfl⟩
      · simpa using h.duplicates.record old value
      · simp only [countFound, h.found, List.countP_append, Option.map_some, Option.toList_some]
        split <;> simp_all

/-- The scan of a list of files, told by the list. -/
theorem describes_visitAll (env : ScanEnv) (fes : List FileEntry) :
    (visitAll env fes).Describes env (bindings env fes) (matchesOf env fes) := by
  induction fes using List.reverseRecOn with
  | nil => exact describes_new env
  | append_singleton fes fe ih =>
      have hvisit : visitAll env (fes ++ [fe]) = visitEntry env (visitAll env fes) fe := by
        simp [visitAll, List.foldl_append]
      rw [hvisit, matchesOf_append_singleton]
      have hbindings : bindings env (fes ++ [fe]) =
          bindings env fes ++ (scanRecord env fe).toList := by
        simp only [bindings, List.filterMap_append, List.filterMap_cons, List.filterMap_nil]
        cases scanRecord env fe <;> rfl
      rw [hbindings]
      cases hfe : scanRecord env fe with
      | none => simpa using (ih.visit_none hfe).1
      | some binding => simpa using (ih.visit_some hfe).1

/-- The visit after a list of files matches the first of them under the same five keys. -/
theorem matchOfVisit_visitAll (env : ScanEnv) (fes : List FileEntry) (fe : FileEntry) :
    matchOfVisit env (visitAll env fes) fe =
      (scanRecord env fe).bind fun binding =>
        (FirstWins.run (bindings env fes) binding.1).map fun old => (old, binding.2) := by
  have h := describes_visitAll env fes
  cases hfe : scanRecord env fe with
  | none => exact (h.visit_none hfe).2
  | some binding => exact (h.visit_some hfe).2

end Dedup
