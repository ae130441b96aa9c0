/-
Module: Dedup.LeafOwnership
Purpose: Who owns the blocks of a leaf of the visited tree: the node of the last character, its
  shortcut and the nodes of its hash subtree.  `visited_tree_insert` at a leaf computes what the
  model computes on blocks that it owns, with no access to a block that was freed, and lets go of
  one string: the path of a shortcut whose digest it cannot compute, which it frees without its
  path.
Imports: Dedup.RecordOwnership, Dedup.VisitedRefinement
Trusted boundary: none
Main exports: LastAt, LastAt.Stands, overwritten, strings, Inserted, lastNodeInsert_spec
-/
import Dedup.RecordOwnership
import Dedup.VisitedRefinement

namespace Dedup.ScanMemory

open Heap IntrusiveTree OrderedMap

/-! ### Leaves -/

/-- A `CharNode` of the last level with what it owns. -/
structure LastAt where
  addr : Addr
  c : Int
  shortcut : Option HeldRecord
  nodes : List HeldNode

namespace LastAt

/-- The node of a leaf with its hash subtree, and the shortcut. -/
def cells (last : LastAt) : Multiset Cell :=
  treeCells lastRoot last.addr (last.c, last.shortcut.map HeldRecord.addr) last.nodes +
    heldCells last.shortcut

/-- What the hash subtree has under a digest. -/
def child (last : LastAt) (digest : Digest) : Option FileMetadata :=
  lookup (fun node : HeldNode => some node.fm) last.nodes digest

/-- The leaf on the heap stands for a leaf of the model. -/
structure Stands (last : LastAt) (lastNode : LastNode) : Prop where
  shortcut : lastNode.fm = last.shortcut.map HeldRecord.fm
  children : ∀ digest : Digest, lastNode.children[digest]? = last.child digest

/-- Both have children or neither has. -/
theorem Stands.size {last : LastAt} {lastNode : LastNode} (h : last.Stands lastNode) :
    lastNode.children.size = 0 ↔ last.nodes = [] := by
  constructor
  · intro hsize
    cases hnodes : last.nodes with
    | nil => rfl
    | cons node nodes =>
        have hchild := h.children node.fm.sha256
        have hkey : Node.key node = node.fm.sha256 := rfl
        rw [getElem?_of_size_eq_zero hsize] at hchild
        simp [child, lookup, hnodes, hkey] at hchild
  · intro hnodes
    refine size_eq_zero_of_getElem? fun digest => ?_
    rw [h.children digest, child, hnodes]
    rfl

end LastAt

instance : Node Block Int LastAt where
  addr := LastAt.addr
  key := LastAt.c
  cells := LastAt.cells
  keyOf := Block.lastKey
  readable _ := ⟨_, Multiset.mem_add.mpr (Or.inl (Multiset.mem_cons_self _ _)), rfl⟩

/-! ### `visited_tree_insert` at a leaf -/

theorem shortcut_spec (last : LastAt) :
    Triple last.cells (shortcut last.addr) fun result cells =>
      result = last.shortcut.map HeldRecord.addr ∧ cells = last.cells :=
  Triple.loadAs_then (Multiset.mem_add.mpr (Or.inl (Multiset.mem_cons_self _ _))) rfl
    (Triple.pure ⟨rfl, rfl⟩)

/-- `last_node->fm` is overwritten. -/
theorem setShortcut_spec (addr : Addr) (c : Int) (old new : Option Addr) (nodes : List HeldNode) :
    Triple (treeCells lastRoot addr (c, old) nodes) (setShortcut addr new) fun _ cells =>
      cells = treeCells lastRoot addr (c, new) nodes := by
  refine Triple.loadAs_then (Multiset.mem_cons_self _ _) rfl ?_
  exact Triple.store _ rfl

theorem newMetadataNode_spec {pre : Multiset Cell} (held : HeldRecord) (howned : held.cells ≤ pre) :
    Triple pre (newMetadataNode held.addr) fun result cells => ∃ node : HeldNode,
      node.addr = result ∧ node.fm = held.fm ∧ cells = node.cells + pre := by
  refine Triple.loadAs_then (Multiset.mem_of_le howned held.mem_cells) rfl ?_
  refine Triple.malloc_then fun addr => ?_
  refine (strdup_spec (Multiset.mem_cons_of_mem
    (Multiset.mem_of_le howned held.path_mem_cells))).bind ?_
  rintro copied _ rfl
  refine Triple.store_then (Multiset.cons_swap _ _ _) ?_
  refine Triple.pure ⟨⟨addr, copied, held.fm⟩, rfl, rfl, ?_⟩
  rw [HeldNode.cells, Multiset.cons_add, Multiset.singleton_add]
  rfl

/-- The shortcut that `visited_tree_insert` overwrites, with its record and without its path: the
first file of a leaf whose digest cannot be computed. -/
def overwritten (env : ScanEnv) (lastNode : LastNode) : Option FileMetadata :=
  if lastNode.children.size = 0 then lastNode.fm.filter fun fm => (obtainSha256 env fm).isNone
  else none

/-- The path strings of records. -/
def strings (fms : List FileMetadata) : Multiset Block :=
  (fms.map fun fm => Block.path fm.path : List Block)

/-- What `visited_tree_insert` leaves at a leaf: a leaf that stands for the one of the model, the
caller's record with the digest that was written into it, a string that nothing points to where a
shortcut was overwritten, and the earlier file it returns, inside the leaf. -/
def Inserted (env : ScanEnv) (last : LastAt) (lastNode : LastNode) (held : HeldRecord)
    (result : Option MetadataPtr) (after : Multiset Cell) : Prop :=
  ∃ (last' : LastAt) (lost : Multiset Cell), last'.addr = last.addr ∧ last'.c = last.c ∧
    last'.Stands (Dedup.lastNodeInsert env lastNode held.fm).1 ∧
    after = last'.cells + (held.put (Dedup.lastNodeInsert env lastNode held.fm).2.1).cells + lost ∧
    lost.map Prod.snd = strings (overwritten env lastNode).toList ∧
    Option.Rel (Reads last'.cells) result (Dedup.lastNodeInsert env lastNode held.fm).2.2

section LastInsert

variable {env : ScanEnv} {last : LastAt} {lastNode : LastNode} {held earlier : HeldRecord}

/-- An insertion that overwrites no shortcut loses nothing. -/
theorem inserted_of_kept {last' : LastAt} {lastNode' : LastNode} {fm' : FileMetadata}
    {old : Option FileMetadata} {result : Option MetadataPtr} {after : Multiset Cell}
    (hvalue : Dedup.lastNodeInsert env lastNode held.fm = (lastNode', fm', old))
    (hstands : last'.Stands lastNode') (haddr : last'.addr = last.addr) (hc : last'.c = last.c)
    (hkept : overwritten env lastNode = none)
    (hafter : after = last'.cells + (held.put fm').cells)
    (hresult : Option.Rel (Reads last'.cells) result old) :
    Inserted env last lastNode held result after := by
  refine ⟨last', 0, haddr, hc, ?_, ?_, ?_, ?_⟩
  · rwa [hvalue]
  · rw [hvalue, hafter, add_zero]
  · simp [hkept, strings]
  · rwa [hvalue]

/-- The first file of a leaf becomes its shortcut. -/
theorem insertFirst_spec (hstands : last.Stands lastNode) (hnodes : last.nodes = [])
    (hshortcut : last.shortcut = none) :
    Triple (last.cells + held.cells)
      (do setShortcut last.addr (← metadataDup (some (.record held.addr)))
          return none)
      (Inserted env last lastNode held) := by
  have hsize := hstands.size.mpr hnodes
  have hfm : lastNode.fm = none := by rw [hstands.shortcut, hshortcut]; rfl
  have hvalue : Dedup.lastNodeInsert env lastNode held.fm =
      ({ lastNode with fm := some held.fm }, held.fm, none) := by
    rw [lastNodeInsert_eq, if_pos hsize, hfm]
  refine (metadataDup_held held (Multiset.le_add_left _ _)).bind ?_
  rintro _ _ ⟨copy, rfl, hcopy, rfl⟩
  refine (setShortcut_spec last.addr last.c none (some copy.addr) last.nodes).call
    (copy.cells + held.cells) ?_ ?_
  · simp only [LastAt.cells, hshortcut, Option.map_none, heldCells_none]
    abel
  · rintro _ _ rfl
    have hstands' : ({ last with shortcut := some copy } : LastAt).Stands
        { lastNode with fm := some held.fm } := ⟨by simp [hcopy], hstands.children⟩
    refine Triple.pure (inserted_of_kept hvalue hstands' rfl rfl ?_ ?_ .none)
    · simp [overwritten, hsize, hfm]
    · simp only [LastAt.cells, HeldRecord.put_self, heldCells_some, Option.map_some]
      abel

/-- The shortcut and a file that differs from it move into the hash subtree. -/
theorem splitShortcut_spec (addr : Addr) (c : Int) (earlier held : HeldRecord)
    (hne : earlier.fm.sha256 ≠ held.fm.sha256) :
    Triple (treeCells lastRoot addr (c, some earlier.addr) ([] : List HeldNode) + earlier.cells +
        held.cells) (splitShortcut addr earlier.addr held.addr) fun _ cells =>
      ∃ nodes : List HeldNode,
        cells = treeCells lastRoot addr (c, none) nodes + held.cells ∧
        ∀ digest, lookup (fun node : HeldNode => some node.fm) nodes digest =
          if digest = held.fm.sha256 then some held.fm
          else if digest = earlier.fm.sha256 then some earlier.fm else none := by
  refine Triple.loadAs_then (Multiset.mem_add.mpr (Or.inl (Multiset.mem_add.mpr
    (Or.inr earlier.mem_cells)))) rfl ?_
  refine Triple.malloc_then fun first => ?_
  -- the new node takes over the path of the shortcut
  let firstNode : HeldNode := { addr := first, path := earlier.path, fm := earlier.fm }
  refine (insertNode_spec lastRoot addr (c, some earlier.addr) firstNode [] (by simp)).call
      ((earlier.addr, .metadata (recordOf earlier.fm earlier.path)) ::ₘ held.cells) ?_ ?_
  · change _ = _ + firstNode.cells + _
    simp only [HeldNode.cells, firstNode, HeldRecord.cells, ← Multiset.singleton_add]
    abel
  rintro _ _ ⟨front, back, hfirst, rfl⟩
  refine Triple.free_then (Multiset.add_cons _ _ _) ?_
  refine (setShortcut_spec addr c (some earlier.addr) none _).call held.cells rfl ?_
  rintro _ _ rfl
  refine (newMetadataNode_spec held (Multiset.le_add_left _ _)).bind ?_
  rintro _ _ ⟨second, rfl, hsecond, rfl⟩
  have hlookup : ∀ digest, lookup (fun node : HeldNode => some node.fm)
      (front ++ firstNode :: back) digest =
        if digest = earlier.fm.sha256 then some earlier.fm else none :=
    fun digest => hfirst.lookup_eq firstNode rfl digest
  have hkeys : ∀ node ∈ front ++ firstNode :: back, Node.key node ≠ Node.key second := by
    have hnil := hfirst.source.resolve_left (by simp)
    obtain ⟨rfl, rfl⟩ := List.append_eq_nil_iff.mp hnil.1
    intro node hnode
    rw [List.nil_append, List.mem_singleton] at hnode
    subst hnode
    change earlier.fm.sha256 ≠ second.fm.sha256
    rwa [hsecond]
  refine (insertNode_spec lastRoot addr (c, none) second (front ++ firstNode :: back)
    hkeys).last held.cells ?_ ?_
  · change _ = _ + second.cells + _
    abel
  rintro _ _ ⟨front', back', hopened, rfl⟩
  refine ⟨_, rfl, fun digest => ?_⟩
  rw [hopened.lookup_eq second rfl digest, hlookup, hsecond]
  change (if digest = second.fm.sha256 then _ else _) = _
  rw [hsecond]

/-- The insertion where the digest of the shortcut cannot be computed. -/
theorem overwriteShortcut_spec (hstands : last.Stands lastNode) (hnodes : last.nodes = [])
    (hshortcut : last.shortcut = some earlier) (hobtain : obtainSha256 env earlier.fm = none)
    (digest : Digest) :
    Triple (treeCells lastRoot last.addr (last.c, some earlier.addr) last.nodes +
        (earlier.put (earlier.fm.withSha digest)).cells + held.cells)
      (do free earlier.addr
          setShortcut last.addr (← metadataDup (some (.record held.addr)))
          return none)
      (Inserted env last lastNode held) := by
  have hsize := hstands.size.mpr hnodes
  have hfm : lastNode.fm = some earlier.fm := by rw [hstands.shortcut, hshortcut]; rfl
  have hvalue : Dedup.lastNodeInsert env lastNode held.fm =
      ({ lastNode with fm := some held.fm }, held.fm, none) := by
    simp only [lastNodeInsert_eq, if_pos hsize, hfm, hobtain]
  let lost : Multiset Cell := {(earlier.path, .path earlier.fm.path)}
  have hsplit : treeCells lastRoot last.addr (last.c, some earlier.addr) last.nodes +
      (earlier.put (earlier.fm.withSha digest)).cells + held.cells =
        (earlier.addr, .metadata (recordOf (earlier.fm.withSha digest) earlier.path)) ::ₘ
          (treeCells lastRoot last.addr (last.c, some earlier.addr) last.nodes + lost +
            held.cells) := by
    simp only [HeldRecord.cells, HeldRecord.put, FileMetadata.withSha_path, lost,
      ← Multiset.singleton_add]
    abel
  refine Triple.free_then hsplit ?_
  refine (metadataDup_held held (Multiset.le_add_left _ _)).bind ?_
  rintro _ _ ⟨copy, rfl, hcopy, rfl⟩
  refine (setShortcut_spec last.addr last.c (some earlier.addr) (some copy.addr) last.nodes).call
    (copy.cells + lost + held.cells) (by abel) ?_
  rintro _ _ rfl
  refine Triple.pure ⟨{ last with shortcut := some copy }, lost, rfl, rfl, ?_, ?_, ?_, ?_⟩
  · rw [hvalue]
    exact ⟨by simp [hcopy], hstands.children⟩
  · simp only [hvalue, LastAt.cells, HeldRecord.put_self, heldCells_some, Option.map_some]
    abel
  · simp [overwritten, hsize, hfm, Option.filter_some, hobtain, strings, lost]
  · rw [hvalue]
    exact .none

theorem insertAtShortcut_spec (hstands : last.Stands lastNode) (hnodes : last.nodes = [])
    (hshortcut : last.shortcut = some earlier) :
    Triple (last.cells + held.cells) (insertAtShortcut env last.addr earlier.addr held.addr)
      (Inserted env last lastNode held) := by
  have hsize := hstands.size.mpr hnodes
  have hfm : lastNode.fm = some earlier.fm := by rw [hstands.shortcut, hshortcut]; rfl
  have hchild : ∀ digest : Digest, lastNode.children[digest]? = none :=
    getElem?_of_size_eq_zero hsize
  let tree := treeCells lastRoot last.addr (last.c, some earlier.addr) last.nodes
  refine (couldNotCompute_spec env earlier).call (tree + held.cells) ?_ ?_
  · simp only [LastAt.cells, hshortcut, Option.map_some, heldCells_some, tree]
    abel
  rintro failed _ ⟨hfailed, rfl⟩
  cases hobtain : obtainSha256 env earlier.fm with
  | none =>
      rw [if_pos (hfailed.mpr hobtain)]
      refine printPath_then (earlier.put (Dedup.populateSha256IfEmpty env earlier.fm).2)
        (Multiset.le_add_right _ _) ?_
      obtain ⟨digest, hdigest⟩ := populated_eq env earlier.fm
      rw [hdigest, add_left_comm, ← add_assoc]
      exact overwriteShortcut_spec hstands hnodes hshortcut hobtain digest
  | some digest =>
      rw [if_neg (by simp [hfailed, hobtain]), (populate_of_obtain hobtain).1]
      let earlier' := earlier.put (earlier.fm.withSha digest)
      change Triple (earlier'.cells + _) _ _
      have hoverwritten : overwritten env lastNode = none := by
        simp [overwritten, hsize, hfm, hobtain]
      have hstands' : ({ last with shortcut := some earlier' } : LastAt).Stands
          { lastNode with fm := some earlier'.fm } := ⟨rfl, hstands.children⟩
      have hcells : ({ last with shortcut := some earlier' } : LastAt).cells =
          tree + earlier'.cells := rfl
      refine (couldNotCompute_spec env held).call (tree + earlier'.cells) (by abel) ?_
      rintro failed' _ ⟨hfailed', rfl⟩
      cases hobtain' : obtainSha256 env held.fm with
      | none =>
          have hvalue : Dedup.lastNodeInsert env lastNode held.fm =
              ({ lastNode with fm := some earlier'.fm }, (Dedup.populateSha256IfEmpty env held.fm).2,
                none) := by
            simp only [lastNodeInsert_eq, if_pos hsize, hfm, hobtain, hobtain']
            rfl
          rw [if_pos (hfailed'.mpr hobtain')]
          refine printPath_then (held.put (Dedup.populateSha256IfEmpty env held.fm).2)
            (Multiset.le_add_right _ _) ?_
          refine Triple.pure (inserted_of_kept hvalue hstands' rfl rfl hoverwritten ?_ .none)
          rw [hcells]
          abel
      | some digest' =>
          rw [if_neg (by simp [hfailed', hobtain']), (populate_of_obtain hobtain').1]
          let held' := held.put (held.fm.withSha digest')
          have hput : held.put held'.fm = held' := rfl
          change Triple (held'.cells + _) _ _
          refine Triple.loadAs_then (Multiset.mem_add.mpr (Or.inr (Multiset.mem_add.mpr
            (Or.inr earlier'.mem_cells)))) rfl ?_
          refine Triple.loadAs_then (Multiset.mem_add.mpr (Or.inl held'.mem_cells)) rfl ?_
          change Triple _ (if digest = digest' then _ else _) _
          by_cases heq : digest = digest'
          · have hvalue : Dedup.lastNodeInsert env lastNode held.fm =
                ({ lastNode with fm := some earlier'.fm }, held'.fm, some earlier'.fm) := by
              simp only [lastNodeInsert_eq, if_pos hsize, hfm, hobtain, hobtain', if_pos heq]
              rfl
            rw [if_pos heq]
            refine Triple.pure (inserted_of_kept hvalue hstands' rfl rfl hoverwritten ?_
              (.some (.record earlier' (hcells ▸ Multiset.le_add_left _ _))))
            rw [hcells, hput]
            abel
          · have hvalue : Dedup.lastNodeInsert env lastNode held.fm =
                ({ fm := none
                   children := (lastNode.children.insertIfNew digest earlier'.fm).insertIfNew
                    digest' held'.fm }, held'.fm, none) := by
              simp only [lastNodeInsert_eq, if_pos hsize, hfm, hobtain, hobtain', if_neg heq]
              rfl
            rw [if_neg heq]
            refine (splitShortcut_spec last.addr last.c earlier' held' heq).call 0 ?_ ?_
            · simp only [tree, hnodes, earlier', HeldRecord.put_addr]
              abel
            rintro _ _ ⟨nodes, rfl, hlookup⟩
            have hsplit : ({ last with shortcut := none, nodes := nodes } : LastAt).Stands
                { fm := none
                  children := (lastNode.children.insertIfNew digest earlier'.fm).insertIfNew
                    digest' held'.fm } := by
              refine ⟨rfl, fun other => ?_⟩
              have hearlier : earlier'.fm.sha256 = digest := rfl
              have hheld : held'.fm.sha256 = digest' := rfl
              rw [getElem?_insertIfNew_or, getElem?_insertIfNew_or, hchild, LastAt.child, hlookup,
                hearlier, hheld, Option.none_or]
              by_cases hother : other = digest'
              · have hne : other ≠ digest := fun h => heq (h.symm.trans hother)
                rw [if_neg hne, if_pos hother, Option.none_or]
              · rw [if_neg hother, if_neg hother, Option.or_none]
            refine Triple.pure (inserted_of_kept hvalue hsplit rfl rfl hoverwritten ?_ .none)
            simp only [LastAt.cells, heldCells_none, Option.map_none, hput]
            abel

theorem insertAtChildren_spec (hstands : last.Stands lastNode) (hnodes : last.nodes ≠ []) :
    Triple (last.cells + held.cells) (insertAtChildren env last.addr held.addr)
      (Inserted env last lastNode held) := by
  have hsize : lastNode.children.size ≠ 0 := hstands.size.not.mpr hnodes
  have hkept : overwritten env lastNode = none := if_neg hsize
  refine (couldNotCompute_spec env held).call last.cells (add_comm _ _) ?_
  rintro failed _ ⟨hfailed, rfl⟩
  cases hobtain : obtainSha256 env held.fm with
  | none =>
      have hvalue : Dedup.lastNodeInsert env lastNode held.fm =
          (lastNode, (Dedup.populateSha256IfEmpty env held.fm).2, none) := by
        simp only [lastNodeInsert_eq, if_neg hsize, hobtain]
      rw [if_pos (hfailed.mpr hobtain)]
      refine printPath_then (held.put (Dedup.populateSha256IfEmpty env held.fm).2)
        (Multiset.le_add_right _ _) ?_
      exact Triple.pure (inserted_of_kept hvalue hstands rfl rfl hkept (add_comm _ _) .none)
  | some digest =>
      rw [if_neg (by simp [hfailed, hobtain]), (populate_of_obtain hobtain).1]
      let held' := held.put (held.fm.withSha digest)
      have hput : held.put held'.fm = held' := rfl
      change Triple (held'.cells + _) _ _
      refine Triple.loadAs_then (Multiset.mem_add.mpr (Or.inl held'.mem_cells)) rfl ?_
      refine (findNode_spec lastRoot last.addr (last.c, last.shortcut.map HeldRecord.addr) digest
        last.nodes).call (heldCells last.shortcut + held'.cells) ?_ ?_
      · rw [LastAt.cells]
        abel
      rintro _ _ ⟨rfl, rfl⟩
      have hchild : lastNode.children[digest]? = last.child digest := hstands.children digest
      cases hfind : last.nodes.find? (fun node => Node.key node = digest) with
      | some node =>
          have hmem : node ∈ last.nodes := List.mem_of_find?_eq_some hfind
          have hold : last.child digest = some node.fm := by simp [LastAt.child, lookup, hfind]
          have hvalue : Dedup.lastNodeInsert env lastNode held.fm =
              (lastNode, held'.fm, some node.fm) := by
            simp only [lastNodeInsert_eq, if_neg hsize, hobtain, hchild, hold]
            rfl
          refine Triple.pure (inserted_of_kept hvalue hstands rfl rfl hkept ?_
            (.some (.field node ((cells_le_treeCells hmem).trans (Multiset.le_add_right _ _)))))
          rw [hput, LastAt.cells]
          abel
      | none =>
          have hnone : last.child digest = none := by simp [LastAt.child, lookup, hfind]
          have hvalue : Dedup.lastNodeInsert env lastNode held.fm =
              ({ lastNode with children := lastNode.children.insertIfNew digest held'.fm },
                held'.fm, none) := by
            simp only [lastNodeInsert_eq, if_neg hsize, hobtain, hchild, hnone]
            rfl
          refine (newMetadataNode_spec held' ((Multiset.le_add_left _ _).trans
            (Multiset.le_add_left _ _))).bind ?_
          rintro _ _ ⟨node, rfl, hnode, rfl⟩
          have hkey : Node.key node = digest := by
            change node.fm.sha256 = digest
            rw [hnode]
            rfl
          refine (insertNode_spec lastRoot last.addr (last.c, last.shortcut.map HeldRecord.addr)
            node last.nodes ?_).call (heldCells last.shortcut + held'.cells) ?_ ?_
          · rw [hkey]
            simpa using List.find?_eq_none.mp hfind
          · change _ = _ + node.cells + _
            abel
          rintro _ _ ⟨front, back, hopened, rfl⟩
          have hstands' : ({ last with nodes := front ++ node :: back } : LastAt).Stands
              { lastNode with children := lastNode.children.insertIfNew digest held'.fm } := by
            refine ⟨hstands.shortcut, fun other => ?_⟩
            rw [getElem?_insertIfNew_or, hstands.children, LastAt.child, LastAt.child,
              hopened.lookup_eq node rfl, hkey, hnode]
            by_cases hother : other = digest
            · subst hother
              change (last.child other).or _ = _
              rw [hnone, Option.none_or, if_pos rfl, if_pos rfl]
            · rw [if_neg hother, if_neg hother, Option.or_none]
          refine Triple.pure (inserted_of_kept hvalue hstands' rfl rfl hkept ?_ .none)
          rw [hput, LastAt.cells]
          abel

/-- `visited_tree_insert` at a leaf does what the model does, on blocks that it owns. -/
theorem lastNodeInsert_spec (env : ScanEnv) (held : HeldRecord) (hstands : last.Stands lastNode) :
    Triple (last.cells + held.cells) (lastNodeInsert env last.addr held.addr)
      (Inserted env last lastNode held) := by
  refine (count_spec lastRoot last.addr (last.c, last.shortcut.map HeldRecord.addr)
    last.nodes).call (heldCells last.shortcut + held.cells) (by rw [LastAt.cells]; abel) ?_
  rintro _ _ ⟨rfl, rfl⟩
  rw [← add_assoc]
  change Triple (last.cells + held.cells) _ _
  by_cases hnodes : last.nodes = []
  · rw [if_pos (by simp [hnodes])]
    refine (shortcut_spec last).call held.cells rfl ?_
    rintro _ _ ⟨rfl, rfl⟩
    cases hshortcut : last.shortcut with
    | none => exact insertFirst_spec hstands hnodes hshortcut
    | some earlier => exact insertAtShortcut_spec hstands hnodes hshortcut
  · rw [if_neg (by simpa using hnodes)]
    exact insertAtChildren_spec hstands hnodes

end LastInsert

end Dedup.ScanMemory
