/-
Module: Dedup.DuplicateOwnership
Purpose: Who owns the blocks of the duplicate tree: the nodes of the digests, and the lists with
  their records.  The section under `duplicates_mutex` moves the file into the tree, and giving the
  tree back gives every record back once.
Imports: Dedup.ListOwnership
Trusted boundary: none
Main exports: ListAt, DuplicatesAt, DuplicatesAt.Stands, DuplicatesAt.records, recordSection_spec,
  freeDuplicateTree_spec
-/
import Dedup.ListOwnership

namespace Dedup.ScanMemory

open Heap IntrusiveTree

/-! ### The tree of lists -/

/-- A `SHA256ListNode` with its list. -/
structure ListAt where
  addr : Addr
  sha256 : Digest
  list : AListAt

def ListAt.cells (node : ListAt) : Multiset Cell :=
  (node.addr, .listNode node.sha256 node.list.addr) ::ₘ node.list.cells

instance : Node Block Digest ListAt where
  addr := ListAt.addr
  key := ListAt.sha256
  cells := ListAt.cells
  keyOf := Block.listKey
  readable _ := ⟨_, Multiset.mem_cons_self _ _, rfl⟩

/-- The duplicate tree with its lists. -/
structure DuplicatesAt where
  addr : Addr
  nodes : List ListAt

namespace DuplicatesAt

def cells (duplicates : DuplicatesAt) : Multiset Cell :=
  treeCells treeRoot duplicates.addr () duplicates.nodes

/-- The list of records under a digest. -/
def listOf (duplicates : DuplicatesAt) (digest : Digest) : Option (List FileMetadata) :=
  lookup (fun node : ListAt => some node.list.fms) duplicates.nodes digest

/-- The tree on the heap stands for the tree of the model. -/
structure Stands (duplicates : DuplicatesAt) (tree : DuplicateTree) : Prop where
  ascending : Ascending duplicates.nodes
  lists : ∀ digest : Digest, tree[digest]? = duplicates.listOf digest

/-- The records that the lists own. -/
def records (duplicates : DuplicatesAt) : List HeldRecord :=
  duplicates.nodes.flatMap fun node => node.list.items

end DuplicatesAt

/-- The list of a digest, found or created empty. -/
theorem duplicateTreeFind_spec (duplicates : DuplicatesAt) (tree : DuplicateTree)
    (held : HeldRecord) (hstands : duplicates.Stands tree) :
    Triple (duplicates.cells + held.cells) (duplicateTreeFind duplicates.addr held.addr)
      fun result after => ∃ front node back,
        Opened (fun _ => node) held.fm.sha256 duplicates.nodes front node back ∧
        result = node.list.addr ∧ node.list.fms = Dedup.duplicateTreeFind tree held.fm ∧
        node.list.items.length ≤ duplicates.records.length ∧
        duplicates.records ⊆ (front ++ node :: back).flatMap (fun node => node.list.items) ∧
        after = treeCells treeRoot duplicates.addr () (front ++ node :: back) + held.cells := by
  have htree := hstands.lists held.fm.sha256
  refine Triple.loadAs_then (Multiset.mem_add.mpr (Or.inr held.mem_cells)) rfl ?_
  refine (findNode_spec treeRoot duplicates.addr () held.fm.sha256 duplicates.nodes).call
    held.cells rfl ?_
  rintro _ _ ⟨rfl, rfl⟩
  cases hfind : duplicates.nodes.find? (fun node => Node.key node = held.fm.sha256) with
  | some node =>
      obtain ⟨hkey, front, back, hsplit, hfront⟩ := List.find?_eq_some_iff_append.mp hfind
      have hlist : node.list.fms = Dedup.duplicateTreeFind tree held.fm := by
        simp [Dedup.duplicateTreeFind, htree, DuplicatesAt.listOf, lookup, hfind]
      have hmem : (node.addr, .listNode node.sha256 node.list.addr) ∈
          treeCells treeRoot duplicates.addr () duplicates.nodes + held.cells :=
        Multiset.mem_add.mpr (Or.inl (Multiset.mem_of_le
          (cells_le_treeCells (List.mem_of_find?_eq_some hfind)) (Multiset.mem_cons_self _ _)))
      refine Triple.loadAs_then hmem rfl ?_
      refine Triple.pure ⟨front, node, back, ⟨by simpa using hkey, ?_, Or.inl hsplit.symm, ?_⟩, rfl,
        hlist, ?_, ?_, by rw [hsplit]⟩
      · intro other hother
        simpa using hfront other hother
      · rw [hsplit]
        exact id
      · simp only [DuplicatesAt.records, hsplit, List.flatMap_append, List.flatMap_cons,
          List.length_append]
        omega
      · rw [DuplicatesAt.records, hsplit]
        exact fun _ h => h
  | none =>
      refine (newAlistWithCapacity_spec 2).call _ (zero_add _).symm ?_
      rintro list _ ⟨elements, rfl⟩
      let node : Addr → ListAt := fun addr =>
        { addr := addr
          sha256 := held.fm.sha256
          list := ⟨list, elements, Dedup.newAlistWithCapacity 2, [], represents_new (by decide)⟩ }
      have hlist : ([] : List FileMetadata) = Dedup.duplicateTreeFind tree held.fm := by
        simp [Dedup.duplicateTreeFind, htree, DuplicatesAt.listOf, lookup, hfind]
      have hnew : ∀ other ∈ duplicates.nodes, Node.key other ≠ held.fm.sha256 := by
        simpa using List.find?_eq_none.mp hfind
      refine Triple.malloc_then fun addr => ?_
      refine (insertNode_spec treeRoot duplicates.addr () (node addr) duplicates.nodes hnew).call
        held.cells ?_ ?_
      · change _ = _ + (node addr).cells + _
        simp only [ListAt.cells, AListAt.cells, itemCells, List.map_nil, List.sum_nil, node,
          recordOf_sha256, ← Multiset.singleton_add]
        abel
      rintro _ _ ⟨front, back, hopened, rfl⟩
      refine Triple.pure ⟨front, node addr, back, hopened, rfl, hlist, Nat.zero_le _, ?_, rfl⟩
      rcases hopened.source with hold | ⟨hnew, _, _⟩
      · rw [DuplicatesAt.records, hold]
        exact fun _ h => h
      · rw [DuplicatesAt.records, ← hnew]
        simp only [List.flatMap_append, List.flatMap_cons]
        intro item hitem
        simp only [List.mem_append] at hitem ⊢
        exact hitem.imp_right Or.inr

theorem addEarlier_spec (list : AListAt) (old : HeldRecord) :
    Triple (list.cells + old.cells) (addEarlier 2 list.addr old.addr) fun _ cells =>
      ∃ list' : AListAt, list'.addr = list.addr ∧
        list'.fms = (if list.fms.isEmpty then list.fms ++ [old.fm] else list.fms) ∧
        list.items ⊆ list'.items ∧ cells = list'.cells + old.cells := by
  have hsize := list.represents.size_eq
  rw [List.length_map] at hsize
  refine alistSize_spec.call (itemCells list.items + old.cells) (add_assoc _ _ _) ?_
  rintro _ _ ⟨rfl, rfl⟩
  rw [← add_assoc]
  change Triple (list.cells + old.cells) _ _
  cases hitems : list.items with
  | nil =>
      rw [if_pos (by simp [hsize, hitems])]
      refine (metadataDup_held old (Multiset.le_add_left _ _)).bind ?_
      rintro _ _ ⟨copy, rfl, hcopy, rfl⟩
      refine (alistAdd_spec list copy).last old.cells (by abel) ?_
      rintro _ _ ⟨list', haddr, hadded, rfl⟩
      refine ⟨list', haddr, ?_, by simp, rfl⟩
      simp [AListAt.fms, hadded, hitems, hcopy]
  | cons item items =>
      rw [if_neg (by simp [hsize, hitems])]
      exact Triple.pure ⟨list, rfl, by simp [AListAt.fms, hitems], by simp [hitems], rfl⟩

/-- The section under `duplicates_mutex`: the file moves into its list, the copy of the earlier one
stays with the caller, and no record leaves the tree.  The loop that prints has a round for each
record of the tree and one for the copy. -/
theorem recordSection_spec (duplicates : DuplicatesAt) (tree : DuplicateTree)
    (old held : HeldRecord) (hstands : duplicates.Stands tree) {rounds : Nat}
    (hrounds : duplicates.records.length + 1 < rounds) (verbose : Bool) :
    Triple (duplicates.cells + old.cells + held.cells)
      (recordSection 2 rounds verbose duplicates.addr old.addr held.addr) fun _ after =>
        ∃ duplicates' : DuplicatesAt, duplicates'.addr = duplicates.addr ∧
          duplicates'.Stands (recordDuplicate tree old.fm held.fm) ∧
          duplicates.records ⊆ duplicates'.records ∧ held ∈ duplicates'.records ∧
          after = duplicates'.cells + old.cells := by
  refine (duplicateTreeFind_spec duplicates tree held hstands).call old.cells (by abel) ?_
  rintro _ _ ⟨front, node, back, hopened, rfl, hlist, hlength, hkept, rfl⟩
  -- what the tree owns beside the list, which stays at its address
  let others := (node.addr, Block.listNode node.sha256 node.list.addr) ::ₘ
    hole treeRoot duplicates.addr () front node.addr back
  have hsplit : ∀ list : AListAt, list.addr = node.list.addr →
      treeCells treeRoot duplicates.addr () (front ++ { node with list := list } :: back) =
        list.cells + others := by
    intro list haddr
    rw [treeCells_split]
    change (node.addr, Block.listNode node.sha256 list.addr) ::ₘ list.cells +
      hole treeRoot duplicates.addr () front node.addr back = _
    rw [haddr, Multiset.cons_add, ← Multiset.add_cons]
  rw [hsplit node.list rfl]
  refine (addEarlier_spec node.list old).call (others + held.cells) (by abel) ?_
  rintro _ _ ⟨list, haddr, hfms, hitems, rfl⟩
  rw [← haddr]
  have hprinted : list.items.length < rounds := by
    have hlisted := congrArg List.length hfms
    rw [apply_ite List.length, List.length_append, List.length_singleton] at hlisted
    simp only [AListAt.fms, List.length_map] at hlisted
    split at hlisted <;> omega
  have howned : list.cells ≤ list.cells + old.cells + (others + held.cells) := by
    rw [add_assoc]
    exact Multiset.le_add_right _ _
  have hheld : held.cells ≤ list.cells + old.cells + (others + held.cells) := by
    rw [← add_assoc]
    exact Multiset.le_add_left _ _
  refine (printing_spec (printDuplicates_spec howned held hheld hprinted)).bind ?_
  rintro _ _ rfl
  refine (alistAdd_spec list held).last (others + old.cells) (by abel) ?_
  rintro _ _ ⟨list', haddr', hadded, rfl⟩
  have hkey : Node.key ({ node with list := list' } : ListAt) = held.fm.sha256 := hopened.key_eq
  refine ⟨{ duplicates with nodes := front ++ { node with list := list' } :: back }, rfl,
    ⟨ascending_put (hkey.trans hopened.key_eq.symm) (hopened.ascending hstands.ascending), ?_⟩,
    ?_, ?_, ?_⟩
  · intro digest
    have hlookup : DuplicatesAt.listOf
        { duplicates with nodes := front ++ { node with list := list' } :: back } digest = _ :=
      hopened.lookup_eq _ hkey digest
    rw [hlookup, recordDuplicate, Std.TreeMap.getElem?_insert]
    have hadd : list'.fms = list.fms ++ [held.fm] := by simp [AListAt.fms, hadded]
    rcases eq_or_ne digest held.fm.sha256 with rfl | hne
    · simp only [Std.compare_self, if_true, hadd, hfms, hlist]
    · simp only [Std.compare_eq_iff_eq, hne, hne.symm, if_false]
      exact hstands.lists digest
  · intro item hitem
    have hitem := hkept hitem
    simp only [DuplicatesAt.records, List.flatMap_append, List.flatMap_cons, hadded,
      List.mem_append] at hitem ⊢
    exact hitem.imp_right (Or.imp_left fun hmem => Or.inl (hitems hmem))
  · simp [DuplicatesAt.records, hadded]
  · rw [DuplicatesAt.cells, hsplit list' (haddr'.trans haddr)]
    abel

/-- A record in a list is owned by the tree. -/
theorem cells_le_of_mem_records {duplicates : DuplicatesAt} {held : HeldRecord}
    (hmem : held ∈ duplicates.records) : held.cells ≤ duplicates.cells := by
  obtain ⟨node, hnode, hitem⟩ := List.mem_flatMap.mp hmem
  have hle : node.cells ≤ duplicates.cells := cells_le_treeCells hnode
  refine le_trans ?_ hle
  obtain ⟨front, back, hsplit⟩ := List.append_of_mem hitem
  refine le_trans ?_ (Multiset.le_cons_self _ _)
  refine le_trans ?_ (Multiset.le_add_left _ _)
  simp only [itemCells, hsplit, List.map_append, List.map_cons, List.sum_append, List.sum_cons]
  exact (Multiset.le_add_right _ _).trans (Multiset.le_add_left _ _)

/-- The clone ids of two records that are owned, the one by its thread, the other by its list. -/
theorem cloneIdsDiffer_spec {pre : Multiset Cell} (old held : HeldRecord)
    (hold : old.cells ≤ pre) (hheld : held.cells ≤ pre) :
    Triple pre (cloneIdsDiffer old.addr held.addr) fun result cells =>
      result = decide (held.fm.cloneId ≠ old.fm.cloneId) ∧ cells = pre := by
  refine Triple.loadAs_then (Multiset.mem_of_le hheld held.mem_cells) rfl ?_
  refine Triple.loadAs_then (Multiset.mem_of_le hold old.mem_cells) rfl ?_
  exact Triple.pure ⟨rfl, rfl⟩

/-- What a very verbose run prints of them. -/
theorem printMatch_spec {pre : Multiset Cell} (old held : HeldRecord) (hold : old.cells ≤ pre)
    (hheld : held.cells ≤ pre) :
    Triple pre (printMatch old.addr held.addr) fun _ cells => cells = pre :=
  printPath_then old hold (printPath_spec held hheld)

/-! ### `free_duplicate_tree` -/

/-- A list has more blocks than records. -/
theorem ListAt.length_lt_card (node : ListAt) :
    node.list.items.length < Multiset.card node.cells := by
  have hle := length_le_card node.list.items
  rw [ListAt.cells, AListAt.cells, Multiset.card_cons, Multiset.card_add]
  omega

/-- There are no more records in the lists than blocks. -/
theorem DuplicatesAt.length_records_le (duplicates : DuplicatesAt) :
    duplicates.records.length ≤ Multiset.card duplicates.cells := by
  have hnodes : ∀ nodes : List ListAt, (nodes.flatMap fun node => node.list.items).length ≤
      Multiset.card (allCells nodes) := by
    intro nodes
    induction nodes with
    | nil => exact Nat.zero_le _
    | cons node nodes ih =>
        have hnode : node.list.items.length < Multiset.card (Node.cells node) :=
          node.length_lt_card
        rw [List.flatMap_cons, List.length_append, allCells_cons, Multiset.card_add]
        omega
  exact (hnodes duplicates.nodes).trans (Multiset.card_le_card (allCells_le_treeCells _))

/-- `free_sha256_list_node` gives back the records, the list and the node. -/
theorem freeSha256ListNode_spec {fuel : Nat} (node : ListAt)
    (hfuel : Multiset.card node.cells ≤ fuel) :
    Triple node.cells (freeSha256ListNode fuel node.addr) fun _ cells => cells = 0 := by
  have hlength : node.list.items.length < fuel := lt_of_lt_of_le node.length_lt_card hfuel
  refine Triple.loadAs_then (Multiset.mem_cons_self _ _) rfl ?_
  have hitems : Represents node.list.stored
      (List.replicate 0 none ++ node.list.items.map fun item => some item.addr) :=
    node.list.represents
  refine (freeItems_spec node.list.addr node.list.elements hitems hlength).call
    {(node.addr, .listNode node.sha256 node.list.addr)} ?_ ?_
  · rw [ListAt.cells, AListAt.cells, ← Multiset.singleton_add, add_comm]
  rintro _ _ ⟨stored, rfl⟩
  refine freeAlist_spec.call _ rfl ?_
  rintro _ _ rfl
  exact Triple.free (zero_add _)

/-- `free_duplicate_tree` gives back every block of the tree, once. -/
theorem freeDuplicateTree_spec {fuel : Nat} (duplicates : DuplicatesAt)
    (hfuel : Multiset.card duplicates.cells ≤ fuel) :
    Triple duplicates.cells (freeDuplicateTree fuel duplicates.addr) fun _ cells => cells = 0 :=
  drain_free_spec treeRoot duplicates.addr ()
    (fun _ hnode => freeSha256ListNode_spec _
      ((Multiset.card_le_card (cells_le_treeCells hnode)).trans hfuel))
    (lt_of_lt_of_le (length_lt_card _ _ _ _) hfuel)

end Dedup.ScanMemory
