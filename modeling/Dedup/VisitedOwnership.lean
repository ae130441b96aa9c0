/-
Module: Dedup.VisitedOwnership
Purpose: Who owns the blocks of the visited tree.  The tree on the heap is told by the structures
  that hang in it, level by level; the search for a leaf opens the tree at that leaf, and what is
  done to the leaf is done to the tree.  So `visited_tree_insert` on the heap refines the one of
  the model, and giving the tree back leaves none of its blocks.
Imports: Dedup.LeafOwnership
Trusted boundary: none
Main exports: TreeAt, TreeAt.Stands, Opening, overwrites, visitedTreeInsert_spec,
  insertSection_spec, freeVisitedTree_spec
-/
import Dedup.LeafOwnership

namespace Dedup.ScanMemory

open Heap IntrusiveTree

/-! ### The levels above a leaf -/

/-- A `CharNode` of the first level with what hangs below it. -/
structure FirstAt where
  addr : Addr
  c : Int
  children : List LastAt

def FirstAt.cells (first : FirstAt) : Multiset Cell :=
  treeCells firstRoot first.addr first.c first.children

instance : Node Block Int FirstAt where
  addr := FirstAt.addr
  key := FirstAt.c
  cells := FirstAt.cells
  keyOf := Block.firstKey
  readable _ := ⟨_, Multiset.mem_cons_self _ _, rfl⟩

/-- A `SizeNode` with what hangs below it. -/
structure SizeAt where
  addr : Addr
  s : Nat
  children : List FirstAt

def SizeAt.cells (size : SizeAt) : Multiset Cell :=
  treeCells sizeRoot size.addr size.s size.children

instance : Node Block Nat SizeAt where
  addr := SizeAt.addr
  key := SizeAt.s
  cells := SizeAt.cells
  keyOf := Block.sizeKey
  readable _ := ⟨_, Multiset.mem_cons_self _ _, rfl⟩

/-- A `DeviceNode` with what hangs below it. -/
structure DeviceAt where
  addr : Addr
  d : Int
  children : List SizeAt

def DeviceAt.cells (device : DeviceAt) : Multiset Cell :=
  treeCells deviceRoot device.addr device.d device.children

instance : Node Block Int DeviceAt where
  addr := DeviceAt.addr
  key := DeviceAt.d
  cells := DeviceAt.cells
  keyOf := Block.deviceKey
  readable _ := ⟨_, Multiset.mem_cons_self _ _, rfl⟩

/-- The visited tree with what hangs in it. -/
structure TreeAt where
  addr : Addr
  children : List DeviceAt

def TreeAt.cells (tree : TreeAt) : Multiset Cell :=
  treeCells treeRoot tree.addr () tree.children

/-! ### Leaves of the tree -/

def FirstAt.leaf (key : LeafKey) (first : FirstAt) : Option LastAt :=
  lookup some first.children key.last

def SizeAt.leaf (key : LeafKey) (size : SizeAt) : Option LastAt :=
  lookup (FirstAt.leaf key) size.children key.first

def DeviceAt.leaf (key : LeafKey) (device : DeviceAt) : Option LastAt :=
  lookup (SizeAt.leaf key) device.children key.size

/-- The leaf under a key. -/
def TreeAt.leaf (key : LeafKey) (tree : TreeAt) : Option LastAt :=
  lookup (DeviceAt.leaf key) tree.children key.device

/-- The tree on the heap stands for the tree of the model, leaf by leaf. -/
def TreeAt.Stands (tree : TreeAt) (visited : VisitedTree) : Prop :=
  ∀ key, Option.Rel LastAt.Stands (tree.leaf key) (Dedup.leaf visited key)

/-! ### The search for a leaf -/

/-- A tree that is open at a leaf, found or created, with the nodes on the way to it. -/
structure Opening (tree : TreeAt) (key : LeafKey) where
  device : DeviceAt
  size : SizeAt
  first : FirstAt
  last : LastAt
  devices : List DeviceAt × List DeviceAt
  sizes : List SizeAt × List SizeAt
  firsts : List FirstAt × List FirstAt
  lasts : List LastAt × List LastAt
  atDevice : Opened (fun a => DeviceAt.mk a key.device []) key.device tree.children devices.1 device
    devices.2
  atSize : Opened (fun a => SizeAt.mk a key.size []) key.size device.children sizes.1 size sizes.2
  atFirst : Opened (fun a => FirstAt.mk a key.first []) key.first size.children firsts.1 first
    firsts.2
  atLast : Opened (fun a => LastAt.mk a key.last none []) key.last first.children lasts.1 last
    lasts.2

namespace Opening

variable {tree : TreeAt} {key : LeafKey} (opening : Opening tree key)

/-- What the tree owns beside the leaf. -/
def context : Multiset Cell :=
  hole firstRoot opening.first.addr opening.first.c opening.lasts.1 opening.last.addr
      opening.lasts.2 +
    (hole sizeRoot opening.size.addr opening.size.s opening.firsts.1 opening.first.addr
        opening.firsts.2 +
      (hole deviceRoot opening.device.addr opening.device.d opening.sizes.1 opening.size.addr
          opening.sizes.2 +
        hole treeRoot tree.addr () opening.devices.1 opening.device.addr opening.devices.2))

def putFirst (last : LastAt) : FirstAt :=
  { opening.first with children := opening.lasts.1 ++ last :: opening.lasts.2 }

def putSize (last : LastAt) : SizeAt :=
  { opening.size with
    children := opening.firsts.1 ++ opening.putFirst last :: opening.firsts.2 }

def putDevice (last : LastAt) : DeviceAt :=
  { opening.device with
    children := opening.sizes.1 ++ opening.putSize last :: opening.sizes.2 }

/-- The tree with a leaf in the place of the open one. -/
def put (last : LastAt) : TreeAt :=
  { tree with children := opening.devices.1 ++ opening.putDevice last :: opening.devices.2 }

/-- A leaf at the address of the open one completes the tree. -/
theorem cells_put {last : LastAt} (haddr : last.addr = opening.last.addr) :
    (opening.put last).cells = last.cells + opening.context := by
  have hfirst : (opening.putFirst last).cells = last.cells + hole firstRoot opening.first.addr
      opening.first.c opening.lasts.1 opening.last.addr opening.lasts.2 := by
    rw [← haddr]
    exact treeCells_split _ last _
  have hsize : (opening.putSize last).cells = (opening.putFirst last).cells + hole sizeRoot
      opening.size.addr opening.size.s opening.firsts.1 opening.first.addr opening.firsts.2 :=
    treeCells_split _ (opening.putFirst last) _
  have hdevice : (opening.putDevice last).cells = (opening.putSize last).cells + hole deviceRoot
      opening.device.addr opening.device.d opening.sizes.1 opening.size.addr opening.sizes.2 :=
    treeCells_split _ (opening.putSize last) _
  have htree : (opening.put last).cells = (opening.putDevice last).cells + hole treeRoot
      tree.addr () opening.devices.1 opening.device.addr opening.devices.2 :=
    treeCells_split _ (opening.putDevice last) _
  rw [htree, hdevice, hsize, hfirst, context, add_assoc, add_assoc, add_assoc]

/-- At the device of the key, the tree shows what the open device shows, and so on down. -/
theorem leaf_device {other : LeafKey} (h : other.device = key.device) :
    tree.leaf other = opening.device.leaf other := by
  have hlook : lookup (DeviceAt.leaf other) tree.children key.device = opening.device.leaf other :=
    opening.atDevice.lookup_wanted fun _ => rfl
  rwa [← h] at hlook

theorem leaf_size {other : LeafKey} (h : other.size = key.size) :
    opening.device.leaf other = opening.size.leaf other := by
  have hlook : lookup (SizeAt.leaf other) opening.device.children key.size =
      opening.size.leaf other := opening.atSize.lookup_wanted fun _ => rfl
  rwa [← h] at hlook

theorem leaf_first {other : LeafKey} (h : other.first = key.first) :
    opening.size.leaf other = opening.first.leaf other := by
  have hlook : lookup (FirstAt.leaf other) opening.size.children key.first =
      opening.first.leaf other := opening.atFirst.lookup_wanted fun _ => rfl
  rwa [← h] at hlook

/-- The leaf of the key is the open one, or the tree had none and the open one is new. -/
theorem source :
    tree.leaf key = some opening.last ∨
      tree.leaf key = none ∧ opening.last.shortcut = none ∧ opening.last.nodes = [] := by
  have hcases : opening.first.leaf key = some opening.last ∨ _ := opening.atLast.lookup_cases
  rw [opening.leaf_device rfl, opening.leaf_size rfl, opening.leaf_first rfl]
  rcases hcases with hold | ⟨hnone, a, hlast⟩
  · exact Or.inl hold
  · rw [hlast]
    exact Or.inr ⟨hnone, rfl, rfl⟩

/-- A leaf in the place of the open one is the leaf of the key, and no other leaf changes. -/
theorem leaf_put {last : LastAt} (hc : last.c = opening.last.c) (other : LeafKey) :
    (opening.put last).leaf other = if other = key then some last else tree.leaf other := by
  have hdevice : (opening.put last).leaf other = if other.device = key.device
      then (opening.putDevice last).leaf other else tree.leaf other :=
    opening.atDevice.lookup_eq (opening.putDevice last) opening.atDevice.key_eq _
  have hsize : (opening.putDevice last).leaf other = if other.size = key.size
      then (opening.putSize last).leaf other else opening.device.leaf other :=
    opening.atSize.lookup_eq (opening.putSize last) opening.atSize.key_eq _
  have hfirst : (opening.putSize last).leaf other = if other.first = key.first
      then (opening.putFirst last).leaf other else opening.size.leaf other :=
    opening.atFirst.lookup_eq (opening.putFirst last) opening.atFirst.key_eq _
  have hlast : (opening.putFirst last).leaf other = if other.last = key.last
      then some last else opening.first.leaf other :=
    opening.atLast.lookup_eq last (hc.trans opening.atLast.key_eq) _
  rw [hdevice, hsize, hfirst, hlast]
  simp only [LeafKey.ext_iff]
  by_cases hd : other.device = key.device
  · rw [opening.leaf_device hd]
    by_cases hs : other.size = key.size
    · rw [opening.leaf_size hs]
      by_cases hf : other.first = key.first
      · rw [opening.leaf_first hf]
        simp [hd, hs, hf]
      · simp [hd, hs, hf]
    · simp [hd, hs]
  · simp [hd]

end Opening

theorem visitedTreeFindOrCreateLastNode_spec (tree : TreeAt) (held : HeldRecord) :
    Triple (tree.cells + held.cells) (visitedTreeFindOrCreateLastNode tree.addr held.addr)
      fun result after => ∃ opening : Opening tree held.fm.leafKey, result = opening.last.addr ∧
        after = opening.last.cells + opening.context + held.cells := by
  refine Triple.loadAs_then (Multiset.mem_add.mpr (Or.inr held.mem_cells)) rfl ?_
  -- one level after the other, each below the node that was found or created above it
  refine (findOrCreate_spec treeRoot tree.addr () (fun a => DeviceAt.mk a held.fm.device [])
    held.fm.device tree.children (fun _ => rfl) (fun _ => rfl) (fun _ => rfl)).call held.cells rfl
    ?_
  rintro _ _ ⟨front₁, device, back₁, hdevice, rfl, rfl⟩
  rw [treeCells_split, add_assoc]
  refine (findOrCreate_spec deviceRoot device.addr device.d
    (fun a => SizeAt.mk a held.fm.size []) held.fm.size device.children (fun _ => rfl)
    (fun _ => rfl) (fun _ => rfl)).call _ rfl ?_
  rintro _ _ ⟨front₂, size, back₂, hsize, rfl, rfl⟩
  rw [treeCells_split, add_assoc]
  refine (findOrCreate_spec sizeRoot size.addr size.s
    (fun a => FirstAt.mk a held.fm.first []) held.fm.first size.children (fun _ => rfl)
    (fun _ => rfl) (fun _ => rfl)).call _ rfl ?_
  rintro _ _ ⟨front₃, first, back₃, hfirst, rfl, rfl⟩
  rw [treeCells_split, add_assoc]
  refine (findOrCreate_spec firstRoot first.addr first.c
    (fun a => LastAt.mk a held.fm.last none []) held.fm.last first.children (fun _ => rfl)
    (fun _ => rfl) (fun _ => rfl)).last _ rfl ?_
  rintro _ _ ⟨front₄, last, back₄, hlast, rfl, rfl⟩
  refine ⟨⟨device, size, first, last, (front₁, back₁), (front₂, back₂), (front₃, back₃),
    (front₄, back₄), hdevice, hsize, hfirst, hlast⟩, rfl, ?_⟩
  rw [treeCells_split, Opening.context]
  simp only [add_assoc]
  rfl

/-! ### `visited_tree_insert` -/

/-- The shortcut that an insertion into the tree overwrites. -/
def overwrites (env : ScanEnv) (visited : VisitedTree) (fm : FileMetadata) : Option FileMetadata :=
  overwritten env (Dedup.visitedTreeFindOrCreateLastNode visited fm)

/-- The leaf that was found or created stands for the one of the model. -/
theorem Opening.stands {tree : TreeAt} {visited : VisitedTree} {fm : FileMetadata}
    (opening : Opening tree fm.leafKey) (hstands : tree.Stands visited) :
    opening.last.Stands (Dedup.visitedTreeFindOrCreateLastNode visited fm) := by
  have hleaf := hstands fm.leafKey
  unfold Dedup.visitedTreeFindOrCreateLastNode
  rcases opening.source with hold | ⟨hnone, hshortcut, hnodes⟩
  · rw [hold] at hleaf
    cases hget : Dedup.leaf visited fm.leafKey with
    | none =>
        rw [hget] at hleaf
        cases hleaf
    | some lastNode =>
        rw [hget] at hleaf
        cases hleaf with
        | some h => exact h
  · rw [hnone] at hleaf
    cases hget : Dedup.leaf visited fm.leafKey with
    | some lastNode =>
        rw [hget] at hleaf
        cases hleaf
    | none =>
        refine ⟨by rw [hshortcut]; rfl, fun digest => ?_⟩
        rw [LastAt.child, hnodes]
        simp [lookup]

/-- `visited_tree_insert` on the heap: it returns, touches no block that was freed, computes what
the model computes, and returns a pointer into the tree. -/
theorem visitedTreeInsert_spec (env : ScanEnv) (tree : TreeAt) (visited : VisitedTree)
    (held : HeldRecord) (hstands : tree.Stands visited) :
    Triple (tree.cells + held.cells) (visitedTreeInsert env tree.addr held.addr)
      fun result after => ∃ (tree' : TreeAt) (lost : Multiset Cell), tree'.addr = tree.addr ∧
        tree'.Stands (Dedup.visitedTreeInsert env visited held.fm).1 ∧
        after = tree'.cells + (held.put (Dedup.visitedTreeInsert env visited held.fm).2.1).cells +
          lost ∧
        lost.map Prod.snd = strings (overwrites env visited held.fm).toList ∧
        Option.Rel (Reads tree'.cells) result (Dedup.visitedTreeInsert env visited held.fm).2.2 := by
  refine (visitedTreeFindOrCreateLastNode_spec tree held).bind ?_
  rintro _ _ ⟨opening, rfl, rfl⟩
  refine (lastNodeInsert_spec env held (opening.stands hstands)).last opening.context (by abel) ?_
  rintro result _ ⟨last, lost, haddr, hc, hlast, rfl, hlost, hresult⟩
  refine ⟨opening.put last, lost, rfl, ?_, ?_, hlost, ?_⟩
  · intro other
    rw [opening.leaf_put hc]
    change Option.Rel _ _ (Dedup.leaf (visitedTreeStoreLastNode visited held.fm _) other)
    rw [leaf_store]
    by_cases hother : other = held.fm.leafKey
    · rw [if_pos hother, if_pos hother]
      exact .some hlast
    · rw [if_neg hother, if_neg hother]
      exact hstands other
  · rw [opening.cells_put haddr]
    change _ = _ + (held.put (Dedup.lastNodeInsert env _ held.fm).2.1).cells + _
    abel
  · rw [opening.cells_put haddr]
    exact reads_mono hresult (Multiset.le_add_right _ _)

/-- The section under `visited_mutex`: the copy of the match is owned by the caller. -/
theorem insertSection_spec (env : ScanEnv) (tree : TreeAt) (visited : VisitedTree)
    (held : HeldRecord) (hstands : tree.Stands visited) :
    Triple (tree.cells + held.cells) (insertSection env tree.addr held.addr)
      fun result after => ∃ (tree' : TreeAt) (old : Option HeldRecord) (lost : Multiset Cell),
        tree'.addr = tree.addr ∧ tree'.Stands (Dedup.visitedTreeInsert env visited held.fm).1 ∧
        result = old.map HeldRecord.addr ∧
        old.map HeldRecord.fm = (Dedup.visitedTreeInsert env visited held.fm).2.2 ∧
        after = tree'.cells + (held.put (Dedup.visitedTreeInsert env visited held.fm).2.1).cells +
          heldCells old + lost ∧
        lost.map Prod.snd = strings (overwrites env visited held.fm).toList := by
  refine (visitedTreeInsert_spec env tree visited held hstands).bind ?_
  rintro _ _ ⟨tree', lost, haddr, hstands', rfl, hlost, hresult⟩
  refine (metadataDup_spec (reads_mono hresult
    ((Multiset.le_add_right _ _).trans (Multiset.le_add_right _ _)))).weaken ?_
  rintro _ _ ⟨old, rfl, hold, rfl⟩
  exact ⟨tree', old, lost, haddr, hstands', rfl, hold, by abel, hlost⟩

/-! ### `free_visited_tree` -/

/-- What hangs in a tree has no more blocks than the tree. -/
theorem card_le_of_mem {ρ κ τ : Type} [Node Block κ τ] {root : Root Block ρ} {tree : Addr}
    {rest : ρ} {nodes : List τ} {node : τ} {fuel : Nat} (hmem : node ∈ nodes)
    (hfuel : Multiset.card (treeCells root tree rest nodes) ≤ fuel) :
    Multiset.card (Node.cells node) ≤ fuel :=
  (Multiset.card_le_card (cells_le_treeCells hmem)).trans hfuel

variable {fuel : Nat}

theorem freeShortcut_spec (last : LastAt) :
    Triple last.cells (freeShortcut last.addr) fun _ cells =>
      cells = treeCells lastRoot last.addr (last.c, none) last.nodes := by
  refine (shortcut_spec last).bind ?_
  rintro _ _ ⟨rfl, rfl⟩
  rw [LastAt.cells]
  cases last.shortcut with
  | none => exact Triple.pure (add_zero _)
  | some held =>
      refine (freeMetadata_spec held).call _ (add_comm _ _) ?_
      rintro _ _ rfl
      rw [zero_add]
      exact setShortcut_spec last.addr last.c _ none last.nodes

theorem freeLastNode_spec (last : LastAt) (hfuel : Multiset.card last.cells ≤ fuel) :
    Triple last.cells (freeLastNode fuel last.addr) fun _ cells => cells = 0 := by
  have hlength : last.nodes.length < fuel := by
    have hlt := length_lt_card lastRoot last.addr (last.c, last.shortcut.map HeldRecord.addr)
      last.nodes
    rw [LastAt.cells, Multiset.card_add] at hfuel
    omega
  refine (freeShortcut_spec last).bind ?_
  rintro _ _ rfl
  exact drain_free_spec lastRoot last.addr (last.c, none)
    (fun node _ => freeMetadataNode_spec node) hlength

theorem freeFirstNode_spec (first : FirstAt) (hfuel : Multiset.card first.cells ≤ fuel) :
    Triple first.cells (freeFirstNode fuel first.addr) fun _ cells => cells = 0 :=
  drain_free_spec firstRoot first.addr first.c
    (fun last hlast => freeLastNode_spec last (card_le_of_mem hlast hfuel))
    (lt_of_lt_of_le (length_lt_card _ _ _ _) hfuel)

theorem freeSizeNode_spec (size : SizeAt) (hfuel : Multiset.card size.cells ≤ fuel) :
    Triple size.cells (freeSizeNode fuel size.addr) fun _ cells => cells = 0 :=
  drain_free_spec sizeRoot size.addr size.s
    (fun first hfirst => freeFirstNode_spec first (card_le_of_mem hfirst hfuel))
    (lt_of_lt_of_le (length_lt_card _ _ _ _) hfuel)

theorem freeDeviceNode_spec (device : DeviceAt) (hfuel : Multiset.card device.cells ≤ fuel) :
    Triple device.cells (freeDeviceNode fuel device.addr) fun _ cells => cells = 0 :=
  drain_free_spec deviceRoot device.addr device.d
    (fun size hsize => freeSizeNode_spec size (card_le_of_mem hsize hfuel))
    (lt_of_lt_of_le (length_lt_card _ _ _ _) hfuel)

/-- `free_visited_tree` gives back every block of the tree, once. -/
theorem freeVisitedTree_spec (tree : TreeAt) (hfuel : Multiset.card tree.cells ≤ fuel) :
    Triple tree.cells (freeVisitedTree fuel tree.addr) fun _ cells => cells = 0 :=
  drain_free_spec treeRoot tree.addr ()
    (fun device hdevice => freeDeviceNode_spec device (card_le_of_mem hdevice hfuel))
    (lt_of_lt_of_le (length_lt_card _ _ _ _) hfuel)

end Dedup.ScanMemory
