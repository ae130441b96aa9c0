/-
Module: Dedup.VisitedTree
Purpose: The visited tree of `map.c`: device, size, first character, last character and, below a
  leaf that holds files of different content, SHA-256. `rbtree(3)` is an ordered map, so each
  level is a `TreeMap`; a node that C reaches and mutates through a pointer is read from its
  four-part key and written back under it.
Imports: Dedup.Lib.OrderedMap, Dedup.Metadata
Trusted boundary: rbtree(3) as an ordered map that keeps the first node of a key
Main exports: populateSha256IfEmpty, VisitedTree, visitedTreeInsert, lastNodeInsert, leaf
-/
import Dedup.Lib.OrderedMap
import Dedup.Metadata

namespace Dedup

open Std (TreeMap)
open OrderedMap

/-! ### Hashing -/

/-- `SHA_IS_EMPTY`. -/
def shaIsEmpty (digest : Digest) : Bool :=
  digest = emptySha256

/-- The length `CC_SHA256_Update` sees: its parameter is a 32-bit `CC_LONG`, so the `size_t` the
caller passes is converted modulo `2 ^ 32`. -/
def ccLong (size : Nat) : Nat :=
  size % 2 ^ 32

/-- The bytes of the mapped file that reach the hash. -/
def hashedBytes (env : ScanEnv) (fm : FileMetadata) : List UInt8 :=
  (env.contents fm.path).take (ccLong fm.size)

/-- `populate_sha256_if_empty`: the return value and the record it leaves behind. -/
def populateSha256IfEmpty (env : ScanEnv) (fm : FileMetadata) : Nat × FileMetadata :=
  if !shaIsEmpty fm.sha256 then (0, fm)
  else if !env.openOk fm.path then (2, fm)
  else if !env.mmapOk fm.path then (2, fm)
  else if !env.updateOk fm.path then (3, fm)
  else
    (if env.finalOk fm.path then 0 else 1, fm.withSha (env.sha256 (hashedBytes env fm)))

/-- The digest a record has once it was populated, or `none` where the tree reports
`Could not compute SHA-256`: the call fails, or the digest is the all-zero one. -/
def obtainSha256 (env : ScanEnv) (fm : FileMetadata) : Option Digest :=
  let (result, populated) := populateSha256IfEmpty env fm
  if result ≠ 0 || shaIsEmpty populated.sha256 then none else some populated.sha256

/-- The tree's test on a populated record is exactly that no digest was obtained. -/
theorem populate_failed_iff (env : ScanEnv) (fm : FileMetadata) :
    ((populateSha256IfEmpty env fm).1 ≠ 0 ||
      shaIsEmpty (populateSha256IfEmpty env fm).2.sha256) = true ↔ obtainSha256 env fm = none := by
  simp only [obtainSha256]
  split <;> simp_all

/-- What `populate_sha256_if_empty` does: nothing to a record that has its digest, and otherwise
it fails or writes the digest of the hashed bytes. -/
theorem populate_cases (env : ScanEnv) (fm : FileMetadata) :
    (fm.sha256 ≠ emptySha256 ∧ populateSha256IfEmpty env fm = (0, fm)) ∨
    (fm.sha256 = emptySha256 ∧ (populateSha256IfEmpty env fm).1 ≠ 0) ∨
    (fm.sha256 = emptySha256 ∧
      populateSha256IfEmpty env fm = (0, fm.withSha (env.sha256 (hashedBytes env fm)))) := by
  by_cases hempty : fm.sha256 = emptySha256
  · right
    by_cases hfail : (populateSha256IfEmpty env fm).1 = 0
    · right
      refine ⟨hempty, ?_⟩
      unfold populateSha256IfEmpty at hfail ⊢
      simp only [shaIsEmpty, hempty] at hfail ⊢
      repeat' split at hfail <;> simp_all
    · exact Or.inl ⟨hempty, hfail⟩
  · left
    simp [populateSha256IfEmpty, shaIsEmpty, hempty]

/-- A record whose digest is obtained is populated without error, and in nothing but its digest. -/
theorem populate_of_obtain {env : ScanEnv} {fm : FileMetadata} {digest : Digest}
    (h : obtainSha256 env fm = some digest) :
    populateSha256IfEmpty env fm = (0, fm.withSha digest) ∧ digest ≠ emptySha256 := by
  rcases populate_cases env fm with ⟨hsha, hpop⟩ | ⟨_, hpop⟩ | ⟨_, hpop⟩
  · have hdigest : fm.sha256 = digest := by
      simpa [obtainSha256, hpop, shaIsEmpty, hsha] using h
    subst hdigest
    exact ⟨hpop, hsha⟩
  · simp [obtainSha256, hpop] at h
  · simp only [obtainSha256, hpop, shaIsEmpty] at h
    split at h
    · simp at h
    · simp_all

/-- The tree's test passes on a record whose digest was obtained. -/
theorem populate_succeeded {env : ScanEnv} {fm : FileMetadata} {digest : Digest}
    (h : obtainSha256 env fm = some digest) :
    ((0 : Nat) ≠ 0 || shaIsEmpty digest) = false := by
  simp [shaIsEmpty, (populate_of_obtain h).2]

/-- A record that carries a digest is never hashed again. -/
theorem obtain_of_populated {env : ScanEnv} {fm : FileMetadata} (h : fm.sha256 ≠ emptySha256) :
    obtainSha256 env fm = some fm.sha256 := by
  simp [obtainSha256, populateSha256IfEmpty, shaIsEmpty, h]

/-- Writing the obtained digest keeps it obtainable. -/
theorem obtain_withSha {env : ScanEnv} {fm : FileMetadata} {digest : Digest}
    (h : obtainSha256 env fm = some digest) : obtainSha256 env (fm.withSha digest) = some digest :=
  obtain_of_populated (populate_of_obtain h).2

/-! ### The tree -/

/-- A `CharNode` of the last-character level: the shortcut to a file that may not be hashed yet,
and the files of this leaf by digest once there are two of different content. -/
structure LastNode where
  fm : Option FileMetadata
  children : TreeMap Digest FileMetadata

/-- A `CharNode` of the first-character level. -/
structure FirstNode where
  children : TreeMap Int LastNode

/-- A `SizeNode`. -/
structure SizeNode where
  children : TreeMap Int FirstNode

/-- A `DeviceNode`. -/
structure DeviceNode where
  children : TreeMap Nat SizeNode

/-- The visited tree; its keys are the devices. -/
abbrev VisitedTree := TreeMap Int DeviceNode

/-- `new_visited_tree`. -/
def newVisitedTree : VisitedTree := ∅

/-- The four keys that lead to a leaf. -/
@[ext]
structure LeafKey where
  device : Int
  size : Nat
  first : Int
  last : Int
deriving DecidableEq, Repr

/-- The leaf key of a record. -/
def FileMetadata.leafKey (fm : FileMetadata) : LeafKey :=
  { device := fm.device, size := fm.size, first := fm.first, last := fm.last }

@[simp] theorem leafKey_withSha (fm : FileMetadata) (digest : Digest) :
    (fm.withSha digest).leafKey = fm.leafKey := rfl

/-- The leaf under a key, if every node on the way exists. -/
def leaf (tree : VisitedTree) (key : LeafKey) : Option LastNode := do
  let deviceNode ← tree[key.device]?
  let sizeNode ← deviceNode.children[key.size]?
  let firstNode ← sizeNode.children[key.first]?
  firstNode.children[key.last]?

/-- `visited_tree_find_or_create_last_node`: the leaf, or the one that is created empty. -/
def visitedTreeFindOrCreateLastNode (tree : VisitedTree) (fm : FileMetadata) : LastNode :=
  (leaf tree fm.leafKey).getD { fm := none, children := ∅ }

/-- The tree after the leaf of `fm` was found or created, with every node on the way to it, and
written through the pointer the search returned. -/
def visitedTreeStoreLastNode (tree : VisitedTree) (fm : FileMetadata) (lastNode : LastNode) :
    VisitedTree :=
  tree.alter fm.device fun deviceNode =>
    let sizes := (deviceNode.map DeviceNode.children).getD ∅
    some ⟨sizes.alter fm.size fun sizeNode =>
      let firsts := (sizeNode.map SizeNode.children).getD ∅
      some ⟨firsts.alter fm.first fun firstNode =>
        let lasts := (firstNode.map FirstNode.children).getD ∅
        some ⟨lasts.insert fm.last lastNode⟩⟩⟩

/-- `visited_tree_insert` below the leaf it found: the leaf and the record it leaves behind, and
the earlier file it returns. -/
def lastNodeInsert (env : ScanEnv) (lastNode : LastNode) (fm : FileMetadata) :
    LastNode × FileMetadata × Option FileMetadata :=
  if lastNode.children.size = 0 then
    match lastNode.fm with
    | none => ({ lastNode with fm := some fm }, fm, none)
    | some shortcut =>
        let (result, shortcut) := populateSha256IfEmpty env shortcut
        if result ≠ 0 || shaIsEmpty shortcut.sha256 then
          ({ lastNode with fm := some fm }, fm, none)
        else
          let (result, fm) := populateSha256IfEmpty env fm
          if result ≠ 0 || shaIsEmpty fm.sha256 then
            ({ lastNode with fm := some shortcut }, fm, none)
          else if shortcut.sha256 = fm.sha256 then
            ({ lastNode with fm := some shortcut }, fm, some shortcut)
          else
            -- the shortcut moves into the hash subtree, together with the new file
            ({ fm := none
               children := (lastNode.children.insertIfNew shortcut.sha256 shortcut).insertIfNew
                 fm.sha256 fm }, fm, none)
  else
    let (result, fm) := populateSha256IfEmpty env fm
    if result ≠ 0 || shaIsEmpty fm.sha256 then (lastNode, fm, none)
    else
      match lastNode.children[fm.sha256]? with
      | some existing => (lastNode, fm, some existing)
      | none =>
          ({ lastNode with children := lastNode.children.insertIfNew fm.sha256 fm }, fm, none)

/-- `visited_tree_insert`: the tree, the caller's record with the digest that may have been
written into it, and the earlier file with the same content, if there is one. -/
def visitedTreeInsert (env : ScanEnv) (tree : VisitedTree) (fm : FileMetadata) :
    VisitedTree × FileMetadata × Option FileMetadata :=
  let lastNode := visitedTreeFindOrCreateLastNode tree fm
  let (lastNode, populated, old) := lastNodeInsert env lastNode fm
  (visitedTreeStoreLastNode tree fm lastNode, populated, old)

/-- `visited_tree_insert` at a leaf, told by the digests that are obtained. -/
theorem lastNodeInsert_eq (env : ScanEnv) (lastNode : LastNode) (fm : FileMetadata) :
    lastNodeInsert env lastNode fm =
      if lastNode.children.size = 0 then
        match lastNode.fm with
        | none => ({ lastNode with fm := some fm }, fm, none)
        | some shortcut =>
            match obtainSha256 env shortcut, obtainSha256 env fm with
            | none, _ => ({ lastNode with fm := some fm }, fm, none)
            | some digest, none =>
                ({ lastNode with fm := some (shortcut.withSha digest) },
                  (populateSha256IfEmpty env fm).2, none)
            | some digest, some digest' =>
                if digest = digest' then
                  ({ lastNode with fm := some (shortcut.withSha digest) }, fm.withSha digest',
                    some (shortcut.withSha digest))
                else
                  ({ fm := none
                     children := (lastNode.children.insertIfNew digest
                        (shortcut.withSha digest)).insertIfNew digest' (fm.withSha digest') },
                    fm.withSha digest', none)
      else
        match obtainSha256 env fm with
        | none => (lastNode, (populateSha256IfEmpty env fm).2, none)
        | some digest =>
            match lastNode.children[digest]? with
            | some existing => (lastNode, fm.withSha digest, some existing)
            | none =>
                ({ lastNode with
                    children := lastNode.children.insertIfNew digest (fm.withSha digest) },
                  fm.withSha digest, none) := by
  unfold lastNodeInsert
  split
  · cases lastNode.fm with
    | none => rfl
    | some shortcut =>
        cases hshortcut : obtainSha256 env shortcut with
        | none => simp only [(populate_failed_iff env shortcut).mpr hshortcut, if_true, hshortcut]
        | some digest =>
            simp only [(populate_of_obtain hshortcut).1, FileMetadata.withSha_sha256,
              populate_succeeded hshortcut, Bool.false_eq_true, if_false, hshortcut]
            cases hfm : obtainSha256 env fm with
            | none => simp only [(populate_failed_iff env fm).mpr hfm, if_true]
            | some digest' =>
                simp only [(populate_of_obtain hfm).1, FileMetadata.withSha_sha256,
                  populate_succeeded hfm, Bool.false_eq_true, if_false]
  · cases hfm : obtainSha256 env fm with
    | none => simp only [(populate_failed_iff env fm).mpr hfm, if_true]
    | some digest =>
        simp only [(populate_of_obtain hfm).1, FileMetadata.withSha_sha256,
          populate_succeeded hfm, Bool.false_eq_true, if_false]

@[simp] theorem leaf_newVisitedTree (key : LeafKey) : leaf newVisitedTree key = none := by
  simp [leaf, newVisitedTree]

/-- Storing a leaf writes its own key and no other. -/
theorem leaf_store (tree : VisitedTree) (fm : FileMetadata) (lastNode : LastNode)
    (key : LeafKey) :
    leaf (visitedTreeStoreLastNode tree fm lastNode) key =
      if key = fm.leafKey then some lastNode else leaf tree key := by
  rcases key with ⟨device, size, first, last⟩
  simp only [leaf, visitedTreeStoreLastNode, FileMetadata.leafKey, Option.bind_eq_bind,
    bind_alter_some, LeafKey.mk.injEq]
  -- a level that differs is read in the old node, or in one that was created empty
  by_cases hdevice : device = fm.device
  · by_cases hsize : size = fm.size
    · by_cases hfirst : first = fm.first
      · by_cases hlast : last = fm.last
        · simp [hdevice, hsize, hfirst, hlast]
        · rw [getElem?_insert_of_ne _ _ hlast]
          simp only [hdevice, hsize, hfirst, hlast, if_true, and_false, if_false,
            getElem?_children, Option.bind_assoc]
      · simp only [hdevice, hsize, hfirst, if_true, if_false, and_false, false_and,
          getElem?_children, Option.bind_assoc]
    · simp only [hdevice, hsize, if_true, if_false, and_false, false_and, getElem?_children,
        Option.bind_assoc]
  · simp only [hdevice, if_false, false_and]

end Dedup
