/-
Module: Dedup.LostStrings
Purpose: Which paths `visited_tree_insert` loses.  It frees a shortcut whose digest cannot be
  computed without the path, when the next file of the leaf arrives.  Told without the tree: a file
  is lost when another one of its leaf arrives after it and none of that leaf could be hashed
  before.
Imports: Dedup.VisitedOwnership
Trusted boundary: none
Main exports: insertions, supersededBy, superseded, Shows, shows_insert, insertions_lost
-/
import Dedup.VisitedOwnership

namespace Dedup.ScanMemory

/-- The visited tree after insertions in an order, with the shortcuts that were overwritten. -/
def insertions (env : ScanEnv) (fms : List FileMetadata) : VisitedTree × List FileMetadata :=
  fms.foldl
    (fun (tree, lost) fm =>
      ((Dedup.visitedTreeInsert env tree fm).1, lost ++ (overwrites env tree fm).toList))
    (newVisitedTree, [])

theorem insertions_append_singleton (env : ScanEnv) (fms : List FileMetadata)
    (fm : FileMetadata) :
    insertions env (fms ++ [fm]) =
      ((Dedup.visitedTreeInsert env (insertions env fms).1 fm).1,
        (insertions env fms).2 ++ (overwrites env (insertions env fms).1 fm).toList) := by
  simp [insertions, List.foldl_append]

/-! ### The files that are lost -/

/-- The files of a leaf, in their order. -/
def sameLeaf (fms : List FileMetadata) (key : LeafKey) : List FileMetadata :=
  fms.filter fun fm => fm.leafKey = key

/-- No digest of these files can be computed. -/
def Unreadable (env : ScanEnv) (fms : List FileMetadata) : Prop :=
  ∀ fm ∈ fms, obtainSha256 env fm = none

instance (env : ScanEnv) (fms : List FileMetadata) : Decidable (Unreadable env fms) :=
  inferInstanceAs (Decidable (∀ fm ∈ fms, obtainSha256 env fm = none))

/-- The file that is lost when `fm` arrives after `before`. -/
def supersededBy (env : ScanEnv) (before : List FileMetadata) (fm : FileMetadata) :
    Option FileMetadata :=
  if Unreadable env (sameLeaf before fm.leafKey) then (sameLeaf before fm.leafKey).getLast?
  else none

/-- The files that are lost while `fms` arrive after `before`. -/
def supersededAfter (env : ScanEnv) (before : List FileMetadata) :
    List FileMetadata → List FileMetadata
  | [] => []
  | fm :: fms => (supersededBy env before fm).toList ++ supersededAfter env (before ++ [fm]) fms

/-- The files that are lost while `fms` arrive. -/
def superseded (env : ScanEnv) (fms : List FileMetadata) : List FileMetadata :=
  supersededAfter env [] fms

theorem supersededAfter_append_singleton (env : ScanEnv) (before fms : List FileMetadata)
    (fm : FileMetadata) :
    supersededAfter env before (fms ++ [fm]) =
      supersededAfter env before fms ++ (supersededBy env (before ++ fms) fm).toList := by
  induction fms generalizing before with
  | nil => simp [supersededAfter]
  | cons first fms ih => simp [supersededAfter, ih]

theorem superseded_append_singleton (env : ScanEnv) (fms : List FileMetadata)
    (fm : FileMetadata) :
    superseded env (fms ++ [fm]) = superseded env fms ++ (supersededBy env fms fm).toList :=
  supersededAfter_append_singleton env [] fms fm

theorem sameLeaf_append_singleton (fms : List FileMetadata) (fm : FileMetadata) (key : LeafKey) :
    sameLeaf (fms ++ [fm]) key =
      if fm.leafKey = key then sameLeaf fms key ++ [fm] else sameLeaf fms key := by
  simp only [sameLeaf, List.filter_append, List.filter_cons, List.filter_nil, decide_eq_true_eq]
  split
  · rfl
  · rw [List.append_nil]

/-! ### What a leaf shows of its files -/

/-- A leaf that loses nothing any more: it has children, or a shortcut with a digest. -/
def Settled (env : ScanEnv) (lastNode : LastNode) : Prop :=
  lastNode.children.size ≠ 0 ∨
    ∃ fm, lastNode.fm = some fm ∧ (obtainSha256 env fm).isSome

/-- A leaf after its files: the last one is the shortcut as long as none can be hashed. -/
def Shows (env : ScanEnv) (same : List FileMetadata) (lastNode : LastNode) : Prop :=
  if Unreadable env same then lastNode.fm = same.getLast? ∧ lastNode.children.size = 0
  else Settled env lastNode

/-- The next insertion overwrites the last file of a leaf where none could be hashed. -/
theorem overwritten_eq {env : ScanEnv} {same : List FileMetadata} {lastNode : LastNode}
    (h : Shows env same lastNode) :
    overwritten env lastNode = if Unreadable env same then same.getLast? else none := by
  unfold Shows at h
  unfold overwritten
  by_cases hun : Unreadable env same
  · rw [if_pos hun] at h ⊢
    rw [if_pos h.2, h.1]
    cases hlast : same.getLast? with
    | none => rfl
    | some last =>
        have hnone := hun last (List.mem_of_getLast? hlast)
        simp [Option.filter, hnone]
  · rw [if_neg hun] at h ⊢
    rcases h with hsize | ⟨fm, hfm, hsome⟩
    · rw [if_neg hsize]
    · rw [Option.isSome_iff_ne_none] at hsome
      simp [hfm, Option.filter, hsome]

/-- A settled leaf stays settled. -/
theorem settled_insert {env : ScanEnv} {lastNode : LastNode} (h : Settled env lastNode)
    (fm : FileMetadata) : Settled env (Dedup.lastNodeInsert env lastNode fm).1 := by
  rw [lastNodeInsert_eq]
  by_cases hsize : lastNode.children.size = 0
  · obtain ⟨shortcut, hshortcut, hsome⟩ := h.resolve_left (not_not_intro hsize)
    obtain ⟨digest, hdigest⟩ := Option.isSome_iff_exists.mp hsome
    have hkept : (obtainSha256 env (shortcut.withSha digest)).isSome := by
      rw [obtain_withSha hdigest]
      rfl
    simp only [if_pos hsize, hshortcut, hdigest]
    cases obtainSha256 env fm with
    | none => exact Or.inr ⟨_, rfl, hkept⟩
    | some digest' =>
        simp only
        split
        · exact Or.inr ⟨_, rfl, hkept⟩
        · exact Or.inl (OrderedMap.size_insertIfNew_ne_zero _ _ _)
  · simp only [if_neg hsize]
    cases obtainSha256 env fm with
    | none => exact Or.inl hsize
    | some digest =>
        simp only
        split
        · exact Or.inl hsize
        · exact Or.inl (OrderedMap.size_insertIfNew_ne_zero _ _ _)

/-- The leaf after one more file. -/
theorem shows_insert {env : ScanEnv} {same : List FileMetadata} {lastNode : LastNode}
    (h : Shows env same lastNode) (fm : FileMetadata) :
    Shows env (same ++ [fm]) (Dedup.lastNodeInsert env lastNode fm).1 := by
  unfold Shows at h ⊢
  by_cases hun : Unreadable env same
  · rw [if_pos hun] at h
    obtain ⟨hshortcut, hsize⟩ := h
    have hstored : (Dedup.lastNodeInsert env lastNode fm).1 = { lastNode with fm := some fm } := by
      rw [lastNodeInsert_eq, if_pos hsize, hshortcut]
      cases hlast : same.getLast? with
      | none => rfl
      | some last => simp only [hun last (List.mem_of_getLast? hlast)]
    rw [hstored]
    split
    · exact ⟨by simp, hsize⟩
    · rename_i hread
      refine Or.inr ⟨fm, rfl, ?_⟩
      by_contra hnone
      refine hread fun other hother => ?_
      rcases List.mem_append.mp hother with hother | hother
      · exact hun other hother
      · rw [List.mem_singleton.mp hother]
        simpa using hnone
  · rw [if_neg hun] at h
    have hread : ¬ Unreadable env (same ++ [fm]) :=
      fun hall => hun fun other hother => hall other (List.mem_append_left _ hother)
    rw [if_neg hread]
    exact settled_insert h fm

/-! ### What the tree loses -/

/-- Every leaf shows its files. -/
theorem shows_insertions (env : ScanEnv) (fms : List FileMetadata) (key : LeafKey) :
    Shows env (sameLeaf fms key)
      ((Dedup.leaf (insertions env fms).1 key).getD { fm := none, children := ∅ }) := by
  induction fms using List.reverseRecOn with
  | nil =>
      rw [show Dedup.leaf (insertions env []).1 key = none from leaf_newVisitedTree key]
      exact ⟨rfl, Std.TreeMap.size_emptyc⟩
  | append_singleton fms fm ih =>
      rw [insertions_append_singleton, sameLeaf_append_singleton]
      simp only [Dedup.visitedTreeInsert, leaf_store]
      by_cases hkey : fm.leafKey = key
      · subst hkey
        simp only [if_true, Option.getD_some]
        exact shows_insert ih fm
      · simp only [if_neg hkey, if_neg (Ne.symm hkey)]
        exact ih

/-- The tree loses the files that are superseded, in this order. -/
theorem insertions_lost (env : ScanEnv) (fms : List FileMetadata) :
    (insertions env fms).2 = superseded env fms := by
  induction fms using List.reverseRecOn with
  | nil => rfl
  | append_singleton fms fm ih =>
      have hlost : overwrites env (insertions env fms).1 fm = supersededBy env fms fm :=
        overwritten_eq (shows_insertions env fms fm.leafKey)
      rw [insertions_append_singleton, superseded_append_singleton, hlost, ih]

end Dedup.ScanMemory
