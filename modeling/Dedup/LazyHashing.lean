/-
Module: Dedup.LazyHashing
Purpose: Which files the visited tree opens.  `visited_tree_insert` is told once more with a log of
  the files that `populate_sha256_if_empty` opens, each with the entry it is opened for: the one
  being inserted, or the one whose copy the shortcut of the leaf is.  A shortcut without a digest
  is a copy of an entry that was never opened, and every leaf has an entry of its key.
Imports: Dedup.VisitedRefinement
Trusted boundary: none
Main exports: Opened, Hashing.populateSha256IfEmpty, Hashing.lastNodeInsert, lastNodeInsert_forget,
  Traced, tracedRun, tracedRun_tree, HashedLazily, hashedLazily_tracedRun
-/
import Dedup.VisitedRefinement

namespace Dedup.Hashing

/-- A file that was opened, and the entry, by its place among the calls, it was opened for. -/
structure Opened where
  entry : Nat
  path : Path
deriving DecidableEq, Repr

/-- `populate_sha256_if_empty` on the record of an entry, with the log. -/
def populateSha256IfEmpty (env : ScanEnv) (entry : Nat) (fm : FileMetadata)
    (opened : List Opened) : (Nat × FileMetadata) × List Opened :=
  if !shaIsEmpty fm.sha256 then ((0, fm), opened)
  else
    -- the call of `open`, whatever it returns
    let opened := opened ++ [{ entry := entry, path := fm.path }]
    if !env.openOk fm.path then ((2, fm), opened)
    else if !env.mmapOk fm.path then ((2, fm), opened)
    else if !env.updateOk fm.path then ((3, fm), opened)
    else
      ((if env.finalOk fm.path then 0 else 1, fm.withSha (env.sha256 (hashedBytes env fm))),
        opened)

/-- What the log gains by a record of an entry. -/
def opens (entry : Nat) (fm : FileMetadata) : List Opened :=
  if shaIsEmpty fm.sha256 then [{ entry := entry, path := fm.path }] else []

/-- Without the log the call is `populate_sha256_if_empty`. -/
theorem populateSha256IfEmpty_eq (env : ScanEnv) (entry : Nat) (fm : FileMetadata)
    (opened : List Opened) :
    populateSha256IfEmpty env entry fm opened =
      (Dedup.populateSha256IfEmpty env fm, opened ++ opens entry fm) := by
  unfold populateSha256IfEmpty Dedup.populateSha256IfEmpty opens
  cases shaIsEmpty fm.sha256 with
  | false => simp
  | true =>
      simp only [Bool.not_true, Bool.false_eq_true, if_false, if_true]
      split
      · rfl
      · split
        · rfl
        · split <;> rfl

/-- `visited_tree_insert` below the leaf it found, with the log.  `owner` is the entry whose copy
the shortcut is. -/
def lastNodeInsert (env : ScanEnv) (lastNode : LastNode) (owner entry : Nat) (fm : FileMetadata)
    (opened : List Opened) :
    ((LastNode × Nat) × FileMetadata × Option FileMetadata) × List Opened :=
  if lastNode.children.size = 0 then
    match lastNode.fm with
    | none => ((({ lastNode with fm := some fm }, entry), fm, none), opened)
    | some shortcut =>
        let ((result, shortcut), opened) := populateSha256IfEmpty env owner shortcut opened
        if result ≠ 0 || shaIsEmpty shortcut.sha256 then
          ((({ lastNode with fm := some fm }, entry), fm, none), opened)
        else
          let ((result, fm), opened) := populateSha256IfEmpty env entry fm opened
          if result ≠ 0 || shaIsEmpty fm.sha256 then
            ((({ lastNode with fm := some shortcut }, owner), fm, none), opened)
          else if shortcut.sha256 = fm.sha256 then
            ((({ lastNode with fm := some shortcut }, owner), fm, some shortcut), opened)
          else
            ((({ fm := none
                 children := (lastNode.children.insertIfNew shortcut.sha256 shortcut).insertIfNew
                   fm.sha256 fm }, owner), fm, none), opened)
  else
    let ((result, fm), opened) := populateSha256IfEmpty env entry fm opened
    if result ≠ 0 || shaIsEmpty fm.sha256 then (((lastNode, owner), fm, none), opened)
    else
      match lastNode.children[fm.sha256]? with
      | some existing => (((lastNode, owner), fm, some existing), opened)
      | none =>
          ((({ lastNode with children := lastNode.children.insertIfNew fm.sha256 fm }, owner), fm,
            none), opened)

/-- The visited tree with the owners of its shortcuts and the log. -/
structure Traced where
  tree : VisitedTree
  owner : LeafKey → Nat
  opened : List Opened

/-- `new_visited_tree`, where nothing was opened. -/
def newTraced : Traced where
  tree := newVisitedTree
  owner := fun _ => 0
  opened := []

/-- `visited_tree_insert`, with the log. -/
def visitedTreeInsert (env : ScanEnv) (t : Traced) (entry : Nat) (fm : FileMetadata) :
    Traced × FileMetadata × Option FileMetadata :=
  let lastNode := visitedTreeFindOrCreateLastNode t.tree fm
  let (((lastNode, owner), result), opened) :=
    lastNodeInsert env lastNode (t.owner fm.leafKey) entry fm t.opened
  ({ tree := visitedTreeStoreLastNode t.tree fm lastNode
     owner := Function.update t.owner fm.leafKey owner
     opened := opened }, result)

/-- A sequence of calls into a fresh tree. -/
def tracedRun (env : ScanEnv) (fms : List FileMetadata) : Traced :=
  fms.zipIdx.foldl (fun t call => (visitedTreeInsert env t call.2 call.1).1) newTraced

/-- The entry of an opened file is among those inserted, and another one has its device, size,
first and last. -/
def Matched (fms : List FileMetadata) (file : Opened) : Prop :=
  ∃ fm, fms[file.entry]? = some fm ∧ fm.path = file.path ∧
    ∃ j other, j ≠ file.entry ∧ fms[j]? = some other ∧ other.leafKey = fm.leafKey

/-- No entry was opened twice, and none without a match of its four-part key. -/
structure HashedLazily (fms : List FileMetadata) (opened : List Opened) : Prop where
  once : (opened.map Opened.entry).Nodup
  matched : ∀ file ∈ opened, Matched fms file

/-! ### One leaf -/

/-- What a call at a leaf opens, and what the leaf's shortcut is a copy of afterwards. -/
inductive LeafTrace (lastNode : LastNode) (owner entry : Nat) (fm : FileMetadata) :
    LastNode → Nat → List Opened → Prop where
  | stored (lastNode' : LastNode) (now : lastNode'.fm = some fm) :
      LeafTrace lastNode owner entry fm lastNode' entry []
  | replaced (lastNode' : LastNode) (shortcut : FileMetadata) (held : lastNode.fm = some shortcut)
      (now : lastNode'.fm = some fm) :
      LeafTrace lastNode owner entry fm lastNode' entry (opens owner shortcut)
  | compared (lastNode' : LastNode) (shortcut : FileMetadata) (digest : Digest)
      (held : lastNode.fm = some shortcut) (hdigest : digest ≠ emptySha256)
      (now : lastNode'.fm = some (shortcut.withSha digest) ∨ lastNode'.fm = none) :
      LeafTrace lastNode owner entry fm lastNode' owner (opens owner shortcut ++ opens entry fm)
  | searched (lastNode' : LastNode) (promoted : lastNode.children.size ≠ 0)
      (now : lastNode'.fm = lastNode.fm) :
      LeafTrace lastNode owner entry fm lastNode' owner (opens entry fm)

section Leaf

variable (env : ScanEnv) (lastNode : LastNode) (owner entry : Nat) (fm : FileMetadata)
  (opened : List Opened)

/-- Without the log and the owner the call is `visited_tree_insert` at that leaf. -/
theorem lastNodeInsert_forget :
    ((lastNodeInsert env lastNode owner entry fm opened).1.1.1,
        (lastNodeInsert env lastNode owner entry fm opened).1.2) =
      Dedup.lastNodeInsert env lastNode fm := by
  unfold lastNodeInsert Dedup.lastNodeInsert
  simp only [populateSha256IfEmpty_eq]
  split
  · cases lastNode.fm with
    | none => rfl
    | some shortcut =>
        dsimp only
        split
        · rfl
        · split
          · rfl
          · split <;> rfl
  · split
    · rfl
    · cases lastNode.children[(Dedup.populateSha256IfEmpty env fm).2.sha256]? <;> rfl

/-- A digest that passes the tree's test is the obtained one. -/
theorem populated_of_passed {env : ScanEnv} {fm : FileMetadata}
    (h : ¬((Dedup.populateSha256IfEmpty env fm).1 ≠ 0 ||
      shaIsEmpty (Dedup.populateSha256IfEmpty env fm).2.sha256) = true) :
    ∃ digest, digest ≠ emptySha256 ∧
      (Dedup.populateSha256IfEmpty env fm).2 = fm.withSha digest := by
  rw [populate_failed_iff] at h
  obtain ⟨digest, hdigest⟩ := Option.ne_none_iff_exists'.mp h
  have hpopulate := populate_of_obtain hdigest
  exact ⟨digest, hpopulate.2, by rw [hpopulate.1]⟩

/-- What the log gains, and what becomes of the shortcut. -/
theorem lastNodeInsert_trace :
    ∃ news, (lastNodeInsert env lastNode owner entry fm opened).2 = opened ++ news ∧
      LeafTrace lastNode owner entry fm
        (lastNodeInsert env lastNode owner entry fm opened).1.1.1
        (lastNodeInsert env lastNode owner entry fm opened).1.1.2 news := by
  unfold lastNodeInsert
  simp only [populateSha256IfEmpty_eq]
  split
  · cases hheld : lastNode.fm with
    | none => exact ⟨[], (List.append_nil _).symm, .stored _ rfl⟩
    | some shortcut =>
        dsimp only
        split
        · exact ⟨_, rfl, .replaced _ shortcut hheld rfl⟩
        · rename_i hpassed
          obtain ⟨digest, hdigest, hshortcut⟩ := populated_of_passed hpassed
          have hkept : some (Dedup.populateSha256IfEmpty env shortcut).2 =
              some (shortcut.withSha digest) := congrArg some hshortcut
          split
          · exact ⟨_, List.append_assoc _ _ _,
              .compared _ shortcut digest hheld hdigest (.inl hkept)⟩
          · split
            · exact ⟨_, List.append_assoc _ _ _,
                .compared _ shortcut digest hheld hdigest (.inl hkept)⟩
            · exact ⟨_, List.append_assoc _ _ _,
                .compared _ shortcut digest hheld hdigest (.inr rfl)⟩
  · rename_i hsize
    split
    · exact ⟨_, rfl, .searched _ hsize rfl⟩
    · split
      · exact ⟨_, rfl, .searched _ hsize rfl⟩
      · exact ⟨_, rfl, .searched _ hsize rfl⟩

end Leaf

/-! ### The log -/

/-- An entry keeps its place when more files are inserted. -/
theorem entry_append {fms : List FileMetadata} {entry : Nat} {fm : FileMetadata}
    (h : fms[entry]? = some fm) (other : FileMetadata) : (fms ++ [other])[entry]? = some fm := by
  rw [List.getElem?_append_left (List.getElem?_eq_some_iff.mp h).1]
  exact h

/-- A match stays one when more files are inserted. -/
theorem Matched.append {fms : List FileMetadata} {file : Opened} (h : Matched fms file)
    (fm : FileMetadata) : Matched (fms ++ [fm]) file := by
  obtain ⟨entry, hentry, hpath, j, other, hne, hother, hkey⟩ := h
  exact ⟨entry, entry_append hentry fm, hpath, j, other, hne, entry_append hother fm, hkey⟩

theorem HashedLazily.append {fms : List FileMetadata} {opened : List Opened}
    (h : HashedLazily fms opened) (fm : FileMetadata) : HashedLazily (fms ++ [fm]) opened :=
  ⟨h.once, fun file hfile => (h.matched file hfile).append fm⟩

/-- Every file of the log was opened for one of the entries. -/
theorem HashedLazily.lt_length {fms : List FileMetadata} {opened : List Opened}
    (h : HashedLazily fms opened) {entry : Nat} (hmem : entry ∈ opened.map Opened.entry) :
    entry < fms.length := by
  obtain ⟨file, hfile, rfl⟩ := List.mem_map.mp hmem
  obtain ⟨fm, hfm, _⟩ := h.matched file hfile
  exact (List.getElem?_eq_some_iff.mp hfm).1

theorem mem_opens {entry other : Nat} {fm : FileMetadata}
    (h : other ∈ (opens entry fm).map Opened.entry) : other = entry := by
  unfold opens at h
  split at h
  · simpa using h
  · simp at h

/-- An entry that has a match and was not opened yet may be opened. -/
theorem HashedLazily.opens {fms : List FileMetadata} {opened : List Opened}
    (h : HashedLazily fms opened) {entry : Nat} {fm : FileMetadata}
    (unopened : fm.sha256 = emptySha256 → entry ∉ opened.map Opened.entry)
    (hmatched : Matched fms { entry := entry, path := fm.path }) :
    HashedLazily fms (opened ++ Hashing.opens entry fm) := by
  unfold Hashing.opens
  split
  · rename_i hempty
    refine ⟨?_, ?_⟩
    · rw [List.map_append, List.nodup_append]
      refine ⟨h.once, by simp, ?_⟩
      rintro _ hmem _ hlast rfl
      simp only [List.map_cons, List.map_nil, List.mem_singleton] at hlast
      exact unopened (of_decide_eq_true hempty) (hlast ▸ hmem)
    · intro file hfile
      rcases List.mem_append.mp hfile with hfile | hfile
      · exact h.matched file hfile
      · rw [List.mem_singleton.mp hfile]
        exact hmatched
  · rw [List.append_nil]
    exact h

/-- An earlier entry of the same key and the entry that is being inserted match each other. -/
theorem matched_inserted {fms : List FileMetadata} {fm first : FileMetadata} {owner : Nat}
    (hfirst : fms[owner]? = some first) (hkey : first.leafKey = fm.leafKey) :
    Matched (fms ++ [fm]) { entry := owner, path := first.path } ∧
      Matched (fms ++ [fm]) { entry := fms.length, path := fm.path } := by
  have hlt : owner < fms.length := (List.getElem?_eq_some_iff.mp hfirst).1
  have hlast : (fms ++ [fm])[fms.length]? = some fm := by simp
  exact ⟨⟨first, entry_append hfirst fm, rfl, fms.length, fm, Nat.ne_of_gt hlt, hlast, hkey.symm⟩,
    ⟨fm, hlast, rfl, owner, first, Nat.ne_of_lt hlt, entry_append hfirst fm, hkey⟩⟩

/-- A record is a copy of its owner, an entry of the given key, which was not opened as long as the
copy carries no digest. -/
structure CopyOf (fms : List FileMetadata) (opened : List Opened) (key : LeafKey) (owner : Nat)
    (copy : FileMetadata) : Prop where
  owned : ∃ fm, fms[owner]? = some fm ∧ fm.leafKey = key ∧ fm.path = copy.path
  unopened : copy.sha256 = emptySha256 → owner ∉ opened.map Opened.entry

/-- The entry that is being inserted was not opened before. -/
theorem inserted_unopened {fms : List FileMetadata} {opened news : List Opened}
    (log : HashedLazily fms opened) (hnews : ∀ e ∈ news.map Opened.entry, e < fms.length) :
    fms.length ∉ (opened ++ news).map Opened.entry := by
  rw [List.map_append, List.mem_append]
  rintro (hmem | hmem)
  · exact Nat.lt_irrefl _ (log.lt_length hmem)
  · exact Nat.lt_irrefl _ (hnews _ hmem)

/-- It may stand in the shortcut. -/
theorem copyOf_inserted {fms : List FileMetadata} {opened news : List Opened} {fm : FileMetadata}
    (log : HashedLazily fms opened) (hnews : ∀ e ∈ news.map Opened.entry, e < fms.length) :
    CopyOf (fms ++ [fm]) (opened ++ news) fm.leafKey fms.length fm :=
  ⟨⟨fm, by simp, rfl, rfl⟩, fun _ => inserted_unopened log hnews⟩

/-- A copy stays one when its owner is not opened. -/
theorem CopyOf.append {fms : List FileMetadata} {opened news : List Opened} {key : LeafKey}
    {owner : Nat} {copy : FileMetadata} (h : CopyOf fms opened key owner copy) (fm : FileMetadata)
    (hnews : copy.sha256 = emptySha256 → owner ∉ news.map Opened.entry) :
    CopyOf (fms ++ [fm]) (opened ++ news) key owner copy := by
  obtain ⟨first, hfirst, hkey, hpath⟩ := h.owned
  refine ⟨⟨first, entry_append hfirst fm, hkey, hpath⟩, fun hempty hmem => ?_⟩
  rw [List.map_append, List.mem_append] at hmem
  rcases hmem with hmem | hmem
  · exact h.unopened hempty hmem
  · exact hnews hempty hmem

/-- What a call at a leaf does to the log and to the shortcut of the leaf; the files it opens are of
the key of the leaf. -/
theorem lazy_of_leafTrace {fms : List FileMetadata} {opened news : List Opened}
    {lastNode lastNode' : LastNode} {owner owner' : Nat} {fm : FileMetadata}
    (log : HashedLazily fms opened)
    (held : ∀ copy, lastNode.fm = some copy → CopyOf fms opened fm.leafKey owner copy)
    (visited : lastNode.children.size ≠ 0 →
      ∃ (j : Nat) (other : FileMetadata), fms[j]? = some other ∧ other.leafKey = fm.leafKey)
    (trace : LeafTrace lastNode owner fms.length fm lastNode' owner' news) :
    HashedLazily (fms ++ [fm]) (opened ++ news) ∧
      (∀ copy, lastNode'.fm = some copy →
        CopyOf (fms ++ [fm]) (opened ++ news) fm.leafKey owner' copy) ∧
      ∀ e ∈ news.map Opened.entry, ∃ other : FileMetadata,
        (fms ++ [fm])[e]? = some other ∧ other.leafKey = fm.leafKey := by
  have hlast : (fms ++ [fm])[fms.length]? = some fm := by simp
  cases trace with
  | stored now =>
      refine ⟨by simpa using log.append fm, fun copy hcopy => ?_, by simp⟩
      obtain rfl : fm = copy := Option.some.inj (now.symm.trans hcopy)
      exact copyOf_inserted log (by simp)
  | replaced shortcut hheld now =>
      have hcopyOf := held shortcut hheld
      obtain ⟨first, hfirst, hkey, hpath⟩ := hcopyOf.owned
      have hlt : owner < fms.length := (List.getElem?_eq_some_iff.mp hfirst).1
      have hmatched := (matched_inserted hfirst hkey).1
      rw [hpath] at hmatched
      refine ⟨(log.append fm).opens hcopyOf.unopened hmatched, fun copy hcopy => ?_,
        fun e he => ?_⟩
      · obtain rfl : fm = copy := Option.some.inj (now.symm.trans hcopy)
        exact copyOf_inserted log fun e he => mem_opens he ▸ hlt
      · rw [mem_opens he]
        exact ⟨first, entry_append hfirst fm, hkey⟩
  | compared shortcut digest hheld hdigest now =>
      have hcopyOf := held shortcut hheld
      obtain ⟨first, hfirst, hkey, hpath⟩ := hcopyOf.owned
      have hlt : owner < fms.length := (List.getElem?_eq_some_iff.mp hfirst).1
      obtain ⟨hmatched, hmatched'⟩ := matched_inserted hfirst hkey
      rw [hpath] at hmatched
      refine ⟨?_, fun copy hcopy => ?_, fun e he => ?_⟩
      · rw [← List.append_assoc]
        apply ((log.append fm).opens hcopyOf.unopened hmatched).opens _ hmatched'
        intro _
        exact inserted_unopened log fun e he => mem_opens he ▸ hlt
      · rcases now with now | now
        · -- the copy carries its digest now
          obtain rfl : shortcut.withSha digest = copy := Option.some.inj (now.symm.trans hcopy)
          exact ⟨⟨first, entry_append hfirst fm, hkey, hpath⟩, fun hempty => absurd hempty hdigest⟩
        · rw [now] at hcopy
          cases hcopy
      · rw [List.map_append, List.mem_append] at he
        rcases he with he | he
        · rw [mem_opens he]
          exact ⟨first, entry_append hfirst fm, hkey⟩
        · rw [mem_opens he]
          exact ⟨fm, hlast, rfl⟩
  | searched promoted now =>
      obtain ⟨j, other, hother, hkey⟩ := visited promoted
      have hunopened : fms.length ∉ opened.map Opened.entry :=
        fun hmem => Nat.lt_irrefl _ (log.lt_length hmem)
      refine ⟨(log.append fm).opens (fun _ => hunopened) (matched_inserted hother hkey).2,
        fun copy hcopy => ?_, fun e he => ?_⟩
      · have hcopyOf := held copy (now ▸ hcopy)
        obtain ⟨first, hfirst, _⟩ := hcopyOf.owned
        have hlt : owner < fms.length := (List.getElem?_eq_some_iff.mp hfirst).1
        exact hcopyOf.append fm fun _ hmem => Nat.ne_of_lt hlt (mem_opens hmem)
      · rw [mem_opens he]
        exact ⟨fm, hlast, rfl⟩

/-! ### Whole runs -/

/-- The log is lazy, every leaf has an entry of its key, and the shortcuts are copies of their
owners. -/
structure Lazy (fms : List FileMetadata) (t : Traced) : Prop where
  log : HashedLazily fms t.opened
  visited : ∀ key lastNode, leaf t.tree key = some lastNode →
    ∃ (j : Nat) (fm : FileMetadata), fms[j]? = some fm ∧ fm.leafKey = key
  copies : ∀ key lastNode copy, leaf t.tree key = some lastNode → lastNode.fm = some copy →
    CopyOf fms t.opened key (t.owner key) copy

theorem lazy_newTraced : Lazy [] newTraced where
  log := ⟨List.nodup_nil, by simp [newTraced]⟩
  visited := by simp [newTraced]
  copies := by simp [newTraced]

/-- One call keeps the tree lazy. -/
theorem lazy_insert {fms : List FileMetadata} {t : Traced} (h : Lazy fms t) (env : ScanEnv)
    (fm : FileMetadata) : Lazy (fms ++ [fm]) (visitedTreeInsert env t fms.length fm).1 := by
  have hheld : ∀ copy, (visitedTreeFindOrCreateLastNode t.tree fm).fm = some copy →
      CopyOf fms t.opened fm.leafKey (t.owner fm.leafKey) copy := by
    intro copy hcopy
    cases hfound : leaf t.tree fm.leafKey with
    | none => simp [visitedTreeFindOrCreateLastNode, hfound] at hcopy
    | some lastNode =>
        simp only [visitedTreeFindOrCreateLastNode, hfound, Option.getD_some] at hcopy
        exact h.copies _ lastNode copy hfound hcopy
  have hvisited : (visitedTreeFindOrCreateLastNode t.tree fm).children.size ≠ 0 →
      ∃ (j : Nat) (other : FileMetadata), fms[j]? = some other ∧ other.leafKey = fm.leafKey := by
    intro hsize
    cases hfound : leaf t.tree fm.leafKey with
    | none => simp [visitedTreeFindOrCreateLastNode, hfound] at hsize
    | some lastNode => exact h.visited _ lastNode hfound
  obtain ⟨news, hopened, htrace⟩ := lastNodeInsert_trace env
    (visitedTreeFindOrCreateLastNode t.tree fm) (t.owner fm.leafKey) fms.length fm t.opened
  obtain ⟨hlog, hcopies, hnews⟩ := lazy_of_leafTrace h.log hheld hvisited htrace
  simp only [visitedTreeInsert, hopened]
  refine ⟨hlog, fun key lastNode hkey => ?_, fun key lastNode copy hkey hcopy => ?_⟩
  · rw [leaf_store] at hkey
    split at hkey
    · rename_i hsame
      exact ⟨fms.length, fm, by simp, hsame.symm⟩
    · obtain ⟨j, other, hother, hotherKey⟩ := h.visited key lastNode hkey
      exact ⟨j, other, entry_append hother fm, hotherKey⟩
  · dsimp only
    rw [leaf_store] at hkey
    split at hkey
    · rename_i hsame
      subst hsame
      rw [← Option.some.inj hkey] at hcopy
      rw [Function.update_self]
      exact hcopies copy hcopy
    · rename_i hother
      -- the shortcut of another leaf: what this call opened is not of its key
      have hcopyOf := h.copies key lastNode copy hkey hcopy
      rw [Function.update_of_ne hother]
      refine hcopyOf.append fm fun _ hmem => ?_
      obtain ⟨first, hfirst, hfirstKey, _⟩ := hcopyOf.owned
      obtain ⟨opened, hopened, hopenedKey⟩ := hnews _ hmem
      have hsame : first = opened :=
        Option.some.inj ((entry_append hfirst fm).symm.trans hopened)
      exact hother (hfirstKey.symm.trans (hsame ▸ hopenedKey))

theorem tracedRun_append_singleton (env : ScanEnv) (fms : List FileMetadata) (fm : FileMetadata) :
    tracedRun env (fms ++ [fm]) =
      (visitedTreeInsert env (tracedRun env fms) fms.length fm).1 := by
  simp [tracedRun, List.zipIdx_append, List.foldl_append]

/-- Without the log and the owners a traced run is a run. -/
theorem tracedRun_tree (env : ScanEnv) (fms : List FileMetadata) :
    (tracedRun env fms).tree = insertAll env newVisitedTree fms := by
  induction fms using List.reverseRecOn with
  | nil => rfl
  | append_singleton fms fm ih =>
      have hstep : insertAll env newVisitedTree (fms ++ [fm]) =
          (Dedup.visitedTreeInsert env (tracedRun env fms).tree fm).1 := by
        simp [ih, insertAll, List.foldl_append]
      have hforget := lastNodeInsert_forget env
        (visitedTreeFindOrCreateLastNode (tracedRun env fms).tree fm)
        ((tracedRun env fms).owner fm.leafKey) fms.length fm (tracedRun env fms).opened
      rw [tracedRun_append_singleton, hstep]
      simp only [visitedTreeInsert, Dedup.visitedTreeInsert, ← hforget]

theorem lazy_tracedRun (env : ScanEnv) (fms : List FileMetadata) :
    Lazy fms (tracedRun env fms) := by
  induction fms using List.reverseRecOn with
  | nil => exact lazy_newTraced
  | append_singleton fms fm ih =>
      rw [tracedRun_append_singleton]
      exact lazy_insert ih env fm

/-- In any sequence of calls into a fresh tree each entry is opened at most once, and only where
another entry has its device, size, first and last. -/
theorem hashedLazily_tracedRun (env : ScanEnv) (fms : List FileMetadata) :
    HashedLazily fms (tracedRun env fms).opened :=
  (lazy_tracedRun env fms).log

end Dedup.Hashing
