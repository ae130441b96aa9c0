/-
Module: Dedup.VisitedRefinement
Purpose: The lazily hashed visited tree refines the naive map keyed by device, size, first, last
  and digest.  `view` reads the tree as that map: below a leaf without a hash subtree the
  shortcut stands for the one entry it may hold, hashed or not.  One insertion is then one
  insertion into the map, or none where the digest cannot be obtained.
Imports: Dedup.Lib.FirstWins, Dedup.VisitedTree
Trusted boundary: none
Main exports: VisitedKey, identified, view, insertAll, naiveMap, firstMatch,
  visitedTreeInsert_of_identified, visitedTreeInsert_refines_naiveMap
-/
import Dedup.Lib.FirstWins
import Dedup.VisitedTree

namespace Dedup

open Std (TreeMap)
open OrderedMap

/-- The key of the naive map: device, size, first, last and SHA-256. -/
abbrev VisitedKey := LeafKey × Digest

/-- The binding a record stands for, or `none` where its digest cannot be obtained. -/
def identified (env : ScanEnv) (fm : FileMetadata) : Option (VisitedKey × FileMetadata) :=
  (obtainSha256 env fm).map fun digest => ((fm.leafKey, digest), fm.withSha digest)

/-- What a leaf holds under a digest. -/
def LastNode.find (env : ScanEnv) (lastNode : LastNode) (digest : Digest) : Option FileMetadata :=
  if lastNode.children.size = 0 then
    lastNode.fm.bind fun shortcut =>
      if obtainSha256 env shortcut = some digest then some (shortcut.withSha digest) else none
  else lastNode.children[digest]?

/-- The tree read as a naive map. -/
def view (env : ScanEnv) (tree : VisitedTree) (key : VisitedKey) : Option FileMetadata :=
  (leaf tree key.1).bind fun lastNode => lastNode.find env key.2

/-! ### One leaf -/

/-- What is under a digest after the two files of a leaf moved into its hash subtree. -/
theorem getElem?_promoted {children : TreeMap Digest FileMetadata} (hsize : children.size = 0)
    (digest digest' : Digest) (shortcut fm : FileMetadata) (key : Digest) :
    ((children.insertIfNew digest shortcut).insertIfNew digest' fm)[key]? =
      (if key = digest then some shortcut else none).or
        (if key = digest' then some fm else none) := by
  simp only [getElem?_insertIfNew_or, getElem?_of_size_eq_zero hsize, Option.none_or]

/-- A file whose digest cannot be obtained matches nothing, and the leaf holds what it held. -/
theorem lastNodeInsert_of_unreadable {env : ScanEnv} {fm : FileMetadata}
    (hfm : obtainSha256 env fm = none) (lastNode : LastNode) :
    (lastNodeInsert env lastNode fm).2.2 = none ∧
      ∀ digest, (lastNodeInsert env lastNode fm).1.find env digest = lastNode.find env digest := by
  rw [lastNodeInsert_eq]
  by_cases hsize : lastNode.children.size = 0
  · rw [if_pos hsize]
    cases hshortcut : lastNode.fm with
    | none => simp [LastNode.find, hsize, hshortcut, hfm]
    | some shortcut =>
        cases hobtain : obtainSha256 env shortcut with
        | none => simp [LastNode.find, hsize, hshortcut, hobtain, hfm]
        | some digest' =>
            simp [LastNode.find, hsize, hshortcut, hobtain, hfm, obtain_withSha hobtain]
  · rw [if_neg hsize]
    simp [hfm]

/-- A file whose digest is obtained: a match is returned and stays; without one the leaf holds
the file from now on. -/
theorem lastNodeInsert_of_obtain {env : ScanEnv} {fm : FileMetadata} {digest : Digest}
    (hfm : obtainSha256 env fm = some digest) (lastNode : LastNode) :
    (lastNodeInsert env lastNode fm).2.2 = lastNode.find env digest ∧
      ∀ key, (lastNodeInsert env lastNode fm).1.find env key =
        (lastNode.find env key).or (if key = digest then some (fm.withSha digest) else none) := by
  rw [lastNodeInsert_eq]
  by_cases hsize : lastNode.children.size = 0
  · rw [if_pos hsize]
    cases hshortcut : lastNode.fm with
    | none =>
        refine ⟨by simp [LastNode.find, hsize, hshortcut], fun key => ?_⟩
        by_cases hkey : key = digest
        · simp [LastNode.find, hsize, hshortcut, hfm, hkey]
        · simp [LastNode.find, hsize, hshortcut, hfm, hkey, Ne.symm hkey]
    | some shortcut =>
        cases hobtain : obtainSha256 env shortcut with
        | none =>
            refine ⟨by simp [LastNode.find, hsize, hshortcut, hobtain], fun key => ?_⟩
            by_cases hkey : key = digest
            · simp [LastNode.find, hsize, hshortcut, hobtain, hfm, hkey]
            · simp [LastNode.find, hsize, hshortcut, hobtain, hfm, hkey, Ne.symm hkey]
        | some digest' =>
            by_cases hsame : digest' = digest
            · subst hsame
              refine ⟨by simp [LastNode.find, hsize, hshortcut, hobtain, hfm], fun key => ?_⟩
              by_cases hkey : key = digest' <;>
                simp [LastNode.find, hsize, hshortcut, hobtain, hfm, obtain_withSha hobtain, hkey]
            · -- both files move into the hash subtree
              refine ⟨by simp [LastNode.find, hsize, hshortcut, hobtain, hfm, hsame],
                fun key => ?_⟩
              simp only [hfm, hsame, if_false, LastNode.find, size_insertIfNew_ne_zero,
                getElem?_promoted hsize, hsize, if_true, hshortcut, Option.bind_some,
                hobtain, Option.some.injEq]
              by_cases hkey : key = digest'
              · subst hkey
                simp
              · simp [hkey, Ne.symm hkey]
  · rw [if_neg hsize]
    cases hfind : lastNode.children[digest]? with
    | some existing =>
        refine ⟨by simp [LastNode.find, hsize, hfm, hfind], fun key => ?_⟩
        by_cases hkey : key = digest
        · subst hkey
          simp [LastNode.find, hsize, hfm, hfind]
        · simp [LastNode.find, hsize, hfm, hfind, hkey]
    | none =>
        refine ⟨by simp [LastNode.find, hsize, hfm, hfind], fun key => ?_⟩
        simp only [hfm, hfind, LastNode.find, size_insertIfNew_ne_zero, if_false, hsize,
          getElem?_insertIfNew_or]

/-! ### The whole tree -/

@[simp] theorem view_newVisitedTree (env : ScanEnv) : view env newVisitedTree = fun _ => none := by
  funext key
  simp [view]

/-- What the leaf of a record holds, whether or not it exists yet. -/
theorem find_findOrCreate (env : ScanEnv) (tree : VisitedTree) (fm : FileMetadata)
    (digest : Digest) :
    (visitedTreeFindOrCreateLastNode tree fm).find env digest =
      view env tree (fm.leafKey, digest) := by
  unfold visitedTreeFindOrCreateLastNode view
  cases leaf tree fm.leafKey with
  | none => simp [LastNode.find]
  | some lastNode => rfl

/-- The view after the leaf of a record was written. -/
theorem view_store (env : ScanEnv) (tree : VisitedTree) (fm : FileMetadata) (lastNode : LastNode)
    (key : VisitedKey) :
    view env (visitedTreeStoreLastNode tree fm lastNode) key =
      if key.1 = fm.leafKey then lastNode.find env key.2 else view env tree key := by
  simp only [view, leaf_store]
  split <;> rfl

/-- A call on a file whose digest cannot be obtained. -/
theorem visitedTreeInsert_of_unreadable {env : ScanEnv} {fm : FileMetadata}
    (h : identified env fm = none) (tree : VisitedTree) :
    (visitedTreeInsert env tree fm).2.2 = none ∧
      view env (visitedTreeInsert env tree fm).1 = view env tree := by
  have hobtain : obtainSha256 env fm = none := by simpa [identified] using h
  obtain ⟨hold, hfind⟩ :=
    lastNodeInsert_of_unreadable hobtain (visitedTreeFindOrCreateLastNode tree fm)
  refine ⟨hold, funext fun key => ?_⟩
  simp only [visitedTreeInsert, view_store, hfind, find_findOrCreate]
  split
  · rename_i hkey
    rw [← hkey]
  · rfl

/-- A call on a file whose digest is obtained is one insertion into the naive map. -/
theorem visitedTreeInsert_of_identified {env : ScanEnv} {fm value : FileMetadata}
    {key : VisitedKey} (h : identified env fm = some (key, value)) (tree : VisitedTree) :
    (visitedTreeInsert env tree fm).2.2 = (FirstWins.insert (view env tree) key value).2 ∧
      view env (visitedTreeInsert env tree fm).1 =
        (FirstWins.insert (view env tree) key value).1 := by
  rcases Option.map_eq_some_iff.mp h with ⟨digest, hobtain, hpair⟩
  rcases Prod.mk.inj hpair with ⟨rfl, rfl⟩
  obtain ⟨hold, hfind⟩ :=
    lastNodeInsert_of_obtain hobtain (visitedTreeFindOrCreateLastNode tree fm)
  refine ⟨?_, funext fun key => ?_⟩
  · rw [FirstWins.insert_snd, ← find_findOrCreate]
    exact hold
  · simp only [visitedTreeInsert, view_store, hfind, find_findOrCreate,
      FirstWins.insert_fst_apply]
    rcases key with ⟨leafKey, digest'⟩
    by_cases hleaf : leafKey = fm.leafKey
    · simp [hleaf]
    · simp [hleaf]

/-! ### Whole runs -/

/-- The tree after the files of a list were inserted into it. -/
def insertAll (env : ScanEnv) (tree : VisitedTree) (fms : List FileMetadata) : VisitedTree :=
  fms.foldl (fun tree fm => (visitedTreeInsert env tree fm).1) tree

/-- The naive map fed with the files whose digest is obtained, and with no others. -/
def naiveMap (env : ScanEnv) (fms : List FileMetadata) : VisitedKey → Option FileMetadata :=
  FirstWins.run (fms.filterMap (identified env))

/-- The first file of a list that agrees with `fm` in device, size, first, last and digest, with
the digest written; `none` also where the digest of `fm` cannot be obtained. -/
def firstMatch (env : ScanEnv) (fms : List FileMetadata) (fm : FileMetadata) :
    Option FileMetadata :=
  (obtainSha256 env fm).bind fun digest =>
    (fms.find? fun earlier =>
      earlier.leafKey = fm.leafKey ∧ obtainSha256 env earlier = some digest).map
        fun earlier => earlier.withSha digest

theorem naiveMap_append_singleton (env : ScanEnv) (fms : List FileMetadata) (fm : FileMetadata) :
    naiveMap env (fms ++ [fm]) =
      match identified env fm with
      | none => naiveMap env fms
      | some (key, value) => (FirstWins.insert (naiveMap env fms) key value).1 := by
  unfold naiveMap
  rw [List.filterMap_append]
  cases h : identified env fm with
  | none => simp [h]
  | some binding =>
      rcases binding with ⟨key, value⟩
      simp [h, FirstWins.run_append_singleton]

/-- The tree, read as a map, is the naive map of the files inserted so far. -/
theorem view_insertAll (env : ScanEnv) (fms : List FileMetadata) :
    view env (insertAll env newVisitedTree fms) = naiveMap env fms := by
  induction fms using List.reverseRecOn with
  | nil => simp [insertAll, naiveMap, FirstWins.run]
  | append_singleton fms fm ih =>
      have hstep : insertAll env newVisitedTree (fms ++ [fm]) =
          (visitedTreeInsert env (insertAll env newVisitedTree fms) fm).1 := by
        simp [insertAll, List.foldl_append]
      rw [hstep, naiveMap_append_singleton]
      cases h : identified env fm with
      | none => rw [(visitedTreeInsert_of_unreadable h _).2, ih]
      | some binding => rw [(visitedTreeInsert_of_identified h _).2, ih]

/-- The naive map holds the first match. -/
theorem naiveMap_eq_firstMatch {env : ScanEnv} {fm : FileMetadata} {digest : Digest}
    (h : obtainSha256 env fm = some digest) (fms : List FileMetadata) :
    naiveMap env fms (fm.leafKey, digest) = firstMatch env fms fm := by
  rw [naiveMap, FirstWins.run_apply]
  simp only [firstMatch, h, Option.bind_some]
  induction fms with
  | nil => rfl
  | cons earlier fms ih =>
      cases hearlier : obtainSha256 env earlier with
      | none =>
          rw [List.find?_cons_of_neg (by simp [hearlier]), ← ih]
          simp only [List.filterMap_cons, identified, hearlier, Option.map_none]
      | some digest' =>
          by_cases hmatch : earlier.leafKey = fm.leafKey ∧ digest' = digest
          · rcases hmatch with ⟨hleaf, rfl⟩
            simp [identified, hearlier, hleaf]
          · simp only [List.filterMap_cons, identified, hearlier, Option.map_some]
            rw [List.find?_cons_of_neg (by simpa using hmatch),
              List.find?_cons_of_neg (by simpa [hearlier] using hmatch)]
            exact ih

/-- Any call of `visited_tree_insert` after any sequence of calls on a fresh tree returns the
first match among the earlier files. -/
theorem visitedTreeInsert_eq_firstMatch (env : ScanEnv) (before : List FileMetadata)
    (fm : FileMetadata) :
    (visitedTreeInsert env (insertAll env newVisitedTree before) fm).2.2 =
      firstMatch env before fm := by
  cases hobtain : obtainSha256 env fm with
  | none =>
      have h : identified env fm = none := by simp [identified, hobtain]
      rw [(visitedTreeInsert_of_unreadable h _).1]
      simp [firstMatch, hobtain]
  | some digest =>
      have h : identified env fm = some ((fm.leafKey, digest), fm.withSha digest) := by
        simp [identified, hobtain]
      rw [(visitedTreeInsert_of_identified h _).1, FirstWins.insert_snd, view_insertAll,
        naiveMap_eq_firstMatch hobtain]

/-- The visited tree answers as the naive map does.  After any sequence of calls on a fresh tree,
a call on a file whose digest cannot be obtained returns nothing; any other call returns what the
naive map fed with the obtainable files holds under the five keys of the file, which is the first
earlier obtainable file with the same five keys. -/
theorem visitedTreeInsert_refines_naiveMap (env : ScanEnv) (before : List FileMetadata)
    (fm : FileMetadata) :
    (visitedTreeInsert env (insertAll env newVisitedTree before) fm).2.2 =
        (identified env fm).bind (fun binding =>
          (FirstWins.insert (naiveMap env before) binding.1 binding.2).2) ∧
      (visitedTreeInsert env (insertAll env newVisitedTree before) fm).2.2 =
        firstMatch env before fm := by
  refine ⟨?_, visitedTreeInsert_eq_firstMatch env before fm⟩
  rw [← view_insertAll]
  cases h : identified env fm with
  | none => exact (visitedTreeInsert_of_unreadable h _).1
  | some binding => exact (visitedTreeInsert_of_identified h _).1

end Dedup
