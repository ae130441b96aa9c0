/-
Module: Dedup.Lib.IntrusiveTree
Purpose: Search trees that are threaded through the blocks of a heap: the root lies in a block of
  its owner, the nodes are blocks that hold their own key, and a tree is told by the addresses of
  its nodes in the order of their keys.  A search reads every node up to the one it finds, so it
  faults on a node that was given back.  Each operation is told by what it does to the list of the
  structures that hang in the tree.
Imports: Dedup.Lib.Heap
Trusted boundary: a balanced tree reads no node outside the list
Main exports: Root, Node, findNode, insertNode, minNode, removeNode, forEach, findOrCreate, drain,
  Ascending, Opened, findNode_spec, insertNode_spec, forEach_spec, findOrCreate_spec, drain_spec,
  drain_free_spec, lookup, Opened.lookup_eq, toList_eq
-/
import Dedup.Lib.Heap

namespace Dedup.IntrusiveTree

open Heap

variable {β ρ κ τ : Type}

/-- How a block holds the root of a tree, beside what else is in the block. -/
structure Root (β ρ : Type) where
  pack : ρ → List Addr → β
  view : β → Option (ρ × List Addr)
  view_pack : ∀ rest nodes, view (pack rest nodes) = some (rest, nodes)

/-- A structure on the heap that hangs in a tree by one of its blocks, which holds its key. -/
class Node (β κ : outParam Type) (τ : Type) where
  addr : τ → Addr
  key : τ → κ
  cells : τ → Multiset (Addr × β)
  keyOf : β → Option κ
  readable : ∀ node, ∃ content, (addr node, content) ∈ cells node ∧
    keyOf content = some (key node)

open Node (addr key cells)

/-! ### Operations -/

section Operations

variable (root : Root β ρ) (keyOf : β → Option κ) [DecidableEq κ] [LT κ] [DecidableLT κ]

/-- The first of the nodes with a key. -/
def search (wanted : κ) : List Addr → Prog β (Option Addr)
  | [] => pure none
  | node :: nodes => do
      if (← loadAs keyOf node) = wanted then return some node
      else search wanted nodes

/-- The nodes with a new one at its place; a second node of a key is left out. -/
def place (node : Addr) (new : κ) : List Addr → Prog β (List Addr)
  | [] => pure [node]
  | other :: nodes => do
      let old ← loadAs keyOf other
      if new < old then return node :: other :: nodes
      else if old = new then return other :: nodes
      else return other :: (← place node new nodes)

/-- `rb_tree_find_node`. -/
def findNode (tree : Addr) (wanted : κ) : Prog β (Option Addr) := do
  let (_, nodes) ← loadAs root.view tree
  search keyOf wanted nodes

/-- `rb_tree_insert_node`. -/
def insertNode (tree node : Addr) : Prog β Unit := do
  let new ← loadAs keyOf node
  let (rest, nodes) ← loadAs root.view tree
  let nodes ← place keyOf node new nodes
  store tree (root.pack rest nodes)

/-- `rb_tree_count`. -/
def count (tree : Addr) : Prog β Nat := do
  let (_, nodes) ← loadAs root.view tree
  return nodes.length

/-- `RB_TREE_MIN`. -/
def minNode (tree : Addr) : Prog β (Option Addr) := do
  let (_, nodes) ← loadAs root.view tree
  return nodes.head?

/-- `rb_tree_remove_node`, which unlinks a node that is still allocated. -/
def removeNode (tree node : Addr) : Prog β Unit := do
  let _ ← loadAs keyOf node
  let (rest, nodes) ← loadAs root.view tree
  store tree (root.pack rest (nodes.erase node))

/-- `RB_TREE_FOREACH` over a tree that its body does not change. -/
def forEach {σ : Type} (body : σ → Addr → Prog β σ) (locals : σ) (tree : Addr) : Prog β σ := do
  let (_, nodes) ← loadAs root.view tree
  nodes.foldlM body locals

/-- A node that is created where the tree has none of its key. -/
def findOrCreate (tree : Addr) (wanted : κ) (block : β) : Prog β Addr := do
  match (← findNode root keyOf tree wanted) with
  | some node => return node
  | none => do
      let node ← malloc block
      insertNode root keyOf tree node
      return node

/-- The loop that gives a tree back, smallest node first. -/
def drain (freeNode : Addr → Prog β Unit) (tree : Addr) : Nat → Prog β Unit
  | 0 => fail .outOfFuel
  | fuel + 1 => do
      match (← minNode root tree) with
      | none => return ()
      | some node => do
          removeNode root keyOf tree node
          freeNode node
          drain freeNode tree fuel

end Operations

/-! ### What they do to the structures in the tree -/

section Specs

variable {root : Root β ρ} {rest : ρ} {tree : Addr} [Node β κ τ]

/-- The blocks of a list of structures. -/
def allCells (nodes : List τ) : Multiset (Addr × β) :=
  (nodes.map cells).sum

@[simp] theorem allCells_nil : allCells ([] : List τ) = 0 := rfl

@[simp] theorem allCells_cons (node : τ) (nodes : List τ) :
    allCells (node :: nodes) = cells node + allCells nodes := by
  simp [allCells]

@[simp] theorem allCells_append (front back : List τ) :
    allCells (front ++ back) = allCells front + allCells back := by
  simp [allCells]

/-- A tree of structures: the block with its root, and theirs. -/
def treeCells (root : Root β ρ) (tree : Addr) (rest : ρ) (nodes : List τ) :
    Multiset (Addr × β) :=
  (tree, root.pack rest (nodes.map addr)) ::ₘ allCells nodes

/-- The key of a structure whose blocks are owned is read from its node. -/
theorem loadKey {pre : Multiset (Addr × β)} (node : τ) (howned : cells node ≤ pre) :
    Triple pre (loadAs (Node.keyOf τ) (addr node)) fun result after => result = key node ∧
      after = pre := by
  obtain ⟨content, hmem, hkey⟩ := Node.readable node
  exact Triple.loadAs (Multiset.mem_of_le howned hmem) hkey

/-- The root of a tree that is owned is read. -/
theorem loadRoot_then {γ : Type} {nodes : List τ} {f : ρ × List Addr → Prog β γ}
    {frame : Multiset (Addr × β)} {post : γ → Multiset (Addr × β) → Prop}
    (hf : Triple (treeCells root tree rest nodes + frame) (f (rest, nodes.map addr)) post) :
    Triple (treeCells root tree rest nodes + frame) (loadAs root.view tree >>= f) post :=
  Triple.loadAs_then (Multiset.mem_add.mpr (Or.inl (Multiset.mem_cons_self _ _)))
    (root.view_pack rest _) hf

theorem allCells_le_treeCells (nodes : List τ) :
    allCells nodes ≤ treeCells root tree rest nodes :=
  Multiset.le_cons_self _ _

theorem cells_le_treeCells {node : τ} {nodes : List τ} (hmem : node ∈ nodes) :
    cells node ≤ treeCells root tree rest nodes := by
  refine le_trans ?_ (allCells_le_treeCells nodes)
  obtain ⟨front, back, rfl⟩ := List.append_of_mem hmem
  rw [allCells_append, allCells_cons]
  exact (Multiset.le_add_right _ _).trans (Multiset.le_add_left _ _)

/-- Every structure has a block, so a tree has more blocks than structures. -/
theorem length_lt_card (root : Root β ρ) (tree : Addr) (rest : ρ) (nodes : List τ) :
    nodes.length < Multiset.card (treeCells root tree rest nodes) := by
  rw [treeCells, Multiset.card_cons, Nat.lt_succ_iff]
  induction nodes with
  | nil => exact Nat.zero_le _
  | cons node nodes ih =>
      obtain ⟨content, hmem, _⟩ := Node.readable node
      have hpos : 0 < Multiset.card (cells node) := Multiset.card_pos_iff_exists_mem.mpr ⟨_, hmem⟩
      rw [allCells_cons, Multiset.card_add, List.length_cons]
      omega

/-- A tree without the blocks of one of its structures, which lies at `a`. -/
def hole (root : Root β ρ) (tree : Addr) (rest : ρ) (front : List τ) (a : Addr) (back : List τ) :
    Multiset (Addr × β) :=
  (tree, root.pack rest (front.map addr ++ a :: back.map addr)) ::ₘ
    (allCells front + allCells back)

/-- A tree is one of its structures beside the rest. -/
theorem treeCells_split (front : List τ) (node : τ) (back : List τ) :
    treeCells root tree rest (front ++ node :: back) =
      cells node + hole root tree rest front (addr node) back := by
  simp only [treeCells, hole, allCells_append, allCells_cons, List.map_append, List.map_cons,
    ← Multiset.singleton_add]
  abel

theorem count_spec (root : Root β ρ) (tree : Addr) (rest : ρ)
    (nodes : List τ) :
    Triple (treeCells root tree rest nodes) (count root tree) fun result after =>
      result = nodes.length ∧ after = treeCells root tree rest nodes := by
  rw [← add_zero (treeCells root tree rest nodes)]
  exact loadRoot_then (Triple.pure ⟨by simp, rfl⟩)

/-- Taking the smallest node off the tree. -/
theorem removeNode_spec (root : Root β ρ) (tree : Addr) (rest : ρ)
    (node : τ) (nodes : List τ) :
    Triple (treeCells root tree rest (node :: nodes))
      (removeNode root (Node.keyOf τ) tree (addr node)) fun _ after =>
        after = treeCells root tree rest nodes + cells node := by
  refine (loadKey node (cells_le_treeCells List.mem_cons_self)).bind ?_
  rintro _ _ ⟨rfl, rfl⟩
  rw [← add_zero (treeCells root tree rest (node :: nodes))]
  refine loadRoot_then ?_
  refine (Triple.store _ (add_zero _)).weaken ?_
  rintro _ _ rfl
  simp [treeCells, add_comm]

/-- A tree is given back by giving back what hangs in it. -/
theorem drain_spec (root : Root β ρ) (tree : Addr) (rest : ρ)
    {freeNode : Addr → Prog β Unit} {nodes : List τ} {fuel : Nat}
    (hfree : ∀ node ∈ nodes, Triple (cells node) (freeNode (addr node)) fun _ after => after = 0)
    (hfuel : nodes.length < fuel) :
    Triple (treeCells root tree rest nodes) (drain root (Node.keyOf τ) freeNode tree fuel)
      fun _ after => after = {(tree, root.pack rest [])} := by
  induction fuel generalizing nodes with
  | zero => exact absurd hfuel (Nat.not_lt_zero _)
  | succ fuel ih =>
      simp only [drain, minNode, bind_assoc, pure_bind]
      rw [← add_zero (treeCells root tree rest nodes)]
      refine loadRoot_then ?_
      rw [add_zero]
      cases nodes with
      | nil => exact Triple.pure rfl
      | cons node nodes =>
          simp only [List.map_cons, List.head?_cons]
          refine (removeNode_spec root tree rest node nodes).bind ?_
          rintro _ _ rfl
          refine (hfree node List.mem_cons_self).call _ (add_comm _ _) ?_
          rintro _ _ rfl
          rw [zero_add]
          exact ih (fun other hother => hfree other (List.mem_cons_of_mem _ hother))
            (Nat.lt_of_succ_lt_succ hfuel)

/-- Giving back a tree and then the block with its root. -/
theorem drain_free_spec (root : Root β ρ) (tree : Addr) (rest : ρ)
    {freeNode : Addr → Prog β Unit} {nodes : List τ} {fuel : Nat}
    (hfree : ∀ node ∈ nodes, Triple (cells node) (freeNode (addr node)) fun _ after => after = 0)
    (hfuel : nodes.length < fuel) :
    Triple (treeCells root tree rest nodes)
      (do drain root (Node.keyOf τ) freeNode tree fuel
          free tree) fun _ after => after = 0 := by
  refine (drain_spec root tree rest hfree hfuel).bind ?_
  rintro _ _ rfl
  exact Triple.free rfl

/-- The loop over a tree whose body keeps what it owns. -/
theorem forEach_spec {σ : Type} {pre : Multiset (Addr × β)} {body : σ → Addr → Prog β σ}
    {step : σ → τ → σ} {nodes : List τ} (howned : treeCells root tree rest nodes ≤ pre)
    (hbody : ∀ locals, ∀ node ∈ nodes, Triple pre (body locals (addr node)) fun result after =>
      result = step locals node ∧ after = pre) (locals : σ) :
    Triple pre (forEach root body locals tree) fun result after =>
      result = nodes.foldl step locals ∧ after = pre := by
  refine Triple.loadAs_then (Multiset.mem_of_le howned (Multiset.mem_cons_self _ _))
    (root.view_pack rest _) ?_
  change Triple pre ((nodes.map addr).foldlM body locals) _
  rw [List.foldlM_map]
  exact Triple.fold hbody

/-- The nodes of a tree are in the order of their keys. -/
def Ascending [LT κ] (nodes : List τ) : Prop :=
  nodes.Pairwise fun node other => key node < key other

/-- A tree in which a node was found or created, seen from this node: the nodes before it have
other keys, and the node is an old one or a new one of a key that the tree did not have. -/
structure Opened [LT κ] (fresh : Addr → τ) (wanted : κ) (nodes front : List τ) (node : τ)
    (back : List τ) : Prop where
  key_eq : key node = wanted
  front_ne : ∀ other ∈ front, key other ≠ wanted
  source : front ++ node :: back = nodes ∨
    front ++ back = nodes ∧ (∀ other ∈ back, key other ≠ wanted) ∧
      ∃ a, node = fresh a
  ascending : Ascending nodes → Ascending (front ++ node :: back)

/-- Only the keys say whether nodes are in order. -/
theorem ascending_put [LT κ] {front back : List τ} {node node' : τ} (hkey : key node' = key node)
    (h : Ascending (front ++ node :: back)) : Ascending (front ++ node' :: back) := by
  have hkeys : (front ++ node' :: back).map key = (front ++ node :: back).map key := by
    simp [hkey]
  rw [Ascending, ← List.pairwise_map (R := (· < ·))] at h ⊢
  rwa [hkeys]

variable [DecidableEq κ]

theorem search_spec {pre : Multiset (Addr × β)} (wanted : κ) (nodes : List τ)
    (howned : allCells nodes ≤ pre) :
    Triple pre (search (Node.keyOf τ) wanted (nodes.map addr)) fun result after =>
      result = (nodes.find? fun node => key node = wanted).map addr ∧ after = pre := by
  induction nodes with
  | nil => exact Triple.pure ⟨rfl, rfl⟩
  | cons node nodes ih =>
      rw [allCells_cons] at howned
      simp only [List.map_cons, search]
      refine (loadKey node ((Multiset.le_add_right _ _).trans howned)).bind ?_
      rintro _ _ ⟨rfl, rfl⟩
      by_cases hkey : key node = wanted
      · rw [if_pos hkey]
        exact Triple.pure ⟨by simp [hkey], rfl⟩
      · rw [if_neg hkey]
        simpa [hkey] using ih ((Multiset.le_add_left _ _).trans howned)

theorem findNode_spec (root : Root β ρ) (tree : Addr) (rest : ρ)
    (wanted : κ) (nodes : List τ) :
    Triple (treeCells root tree rest nodes) (findNode root (Node.keyOf τ) tree wanted)
      fun result after => result = (nodes.find? fun node => key node = wanted).map addr ∧
        after = treeCells root tree rest nodes := by
  rw [← add_zero (treeCells root tree rest nodes)]
  refine loadRoot_then ?_
  rw [add_zero]
  exact search_spec wanted nodes (allCells_le_treeCells nodes)

variable [LT κ] [DecidableLT κ] [LE κ] [Std.IsLinearOrder κ] [Std.LawfulOrderLT κ]

/-- A new node is placed among the others. -/
theorem place_spec {pre : Multiset (Addr × β)} (new : τ) (nodes : List τ)
    (howned : allCells nodes ≤ pre) (hnew : ∀ node ∈ nodes, key node ≠ key new) :
    Triple pre (place (Node.keyOf τ) (addr new) (key new) (nodes.map addr)) fun result after =>
      after = pre ∧ ∃ front back, nodes = front ++ back ∧
        (Ascending nodes → Ascending (front ++ new :: back)) ∧
        result = (front ++ new :: back).map addr := by
  induction nodes with
  | nil => exact Triple.pure ⟨rfl, [], [], rfl, fun _ => List.pairwise_singleton _ _, rfl⟩
  | cons node nodes ih =>
      rw [allCells_cons] at howned
      simp only [List.map_cons, place]
      refine (loadKey node ((Multiset.le_add_right _ _).trans howned)).bind ?_
      rintro _ _ ⟨rfl, rfl⟩
      rw [if_neg (hnew node List.mem_cons_self)]
      split
      · rename_i hlt
        refine Triple.pure ⟨rfl, [], node :: nodes, rfl, fun hasc => ?_, rfl⟩
        refine List.pairwise_cons.mpr ⟨fun other hother => ?_, hasc⟩
        rcases List.mem_cons.mp hother with rfl | hother
        · exact hlt
        · exact Std.lt_trans hlt (List.rel_of_pairwise_cons hasc hother)
      · rename_i hle
        refine (ih ((Multiset.le_add_left _ _).trans howned)
          fun other hother => hnew other (List.mem_cons_of_mem _ hother)).bind ?_
        rintro _ _ ⟨rfl, front, back, rfl, hascending, rfl⟩
        refine Triple.pure ⟨rfl, node :: front, back, rfl, fun hasc => ?_, rfl⟩
        have hlt : key node < key new :=
          Std.lt_of_le_of_ne (Std.not_lt.mp hle) (hnew node List.mem_cons_self)
        refine List.pairwise_cons.mpr ⟨fun other hother => ?_,
          hascending (List.pairwise_cons.mp hasc).2⟩
        rcases List.mem_append.mp hother with hother | hother
        · exact List.rel_of_pairwise_cons hasc (List.mem_append_left _ hother)
        · rcases List.mem_cons.mp hother with rfl | hother
          · exact hlt
          · exact List.rel_of_pairwise_cons hasc (List.mem_append_right _ hother)

/-- A node of a new key joins the tree. -/
theorem insertNode_spec (root : Root β ρ) (tree : Addr) (rest : ρ)
    (new : τ) (nodes : List τ) (hnew : ∀ node ∈ nodes, key node ≠ key new) :
    Triple (treeCells root tree rest nodes + cells new)
      (insertNode root (Node.keyOf τ) tree (addr new)) fun _ after => ∃ front back,
        Opened (fun _ => new) (key new) nodes front new back ∧
          after = treeCells root tree rest (front ++ new :: back) := by
  refine (loadKey new (Multiset.le_add_left _ _)).bind ?_
  rintro _ _ ⟨rfl, rfl⟩
  refine loadRoot_then ?_
  refine (place_spec new nodes ((allCells_le_treeCells nodes).trans (Multiset.le_add_right _ _))
    hnew).bind ?_
  rintro _ _ ⟨rfl, front, back, rfl, hascending, rfl⟩
  refine (Triple.store _ (Multiset.cons_add _ _ _)).weaken ?_
  rintro _ _ rfl
  refine ⟨front, back, ⟨rfl, ?_, Or.inr ⟨rfl, ?_, 0, rfl⟩, hascending⟩, ?_⟩
  · exact fun other hother => hnew other (List.mem_append_left _ hother)
  · exact fun other hother => hnew other (List.mem_append_right _ hother)
  · simp only [treeCells, allCells_append, allCells_cons]
    congr 1
    abel

/-- The node of a key, or a new one. -/
theorem findOrCreate_spec (root : Root β ρ) (tree : Addr) (rest : ρ) (fresh : Addr → τ) {block : β}
    (wanted : κ) (nodes : List τ)
    (haddr : ∀ a, addr (fresh a) = a) (hkey : ∀ a, key (fresh a) = wanted)
    (hcells : ∀ a, cells (fresh a) = {(a, block)}) :
    Triple (treeCells root tree rest nodes) (findOrCreate root (Node.keyOf τ) tree wanted block)
      fun result after => ∃ front node back, Opened fresh wanted nodes front node back ∧
        result = addr node ∧ after = treeCells root tree rest (front ++ node :: back) := by
  refine (findNode_spec root tree rest wanted nodes).bind ?_
  rintro _ _ ⟨rfl, rfl⟩
  cases hfind : nodes.find? (fun node => key node = wanted) with
  | some node =>
      obtain ⟨hnode, front, back, hsplit, hfront⟩ := List.find?_eq_some_iff_append.mp hfind
      refine Triple.pure ⟨front, node, back, ⟨by simpa using hnode, ?_, Or.inl hsplit.symm, ?_⟩,
        rfl, by rw [hsplit]⟩
      · intro other hother
        simpa using hfront other hother
      · rw [hsplit]
        exact id
  | none =>
      have hne : ∀ other ∈ nodes, key other ≠ wanted := by
        simpa using List.find?_eq_none.mp hfind
      refine Triple.malloc_then fun a => ?_
      have hinsert := insertNode_spec root tree rest (fresh a) nodes
        (by simpa [hkey] using hne)
      rw [haddr, hcells] at hinsert
      rw [← Multiset.singleton_add, add_comm]
      refine hinsert.bind ?_
      rintro _ _ ⟨front, back, hopened, rfl⟩
      refine Triple.pure ⟨front, fresh a, back, ?_, (haddr a).symm, rfl⟩
      rw [hkey] at hopened
      refine ⟨hopened.key_eq, hopened.front_ne, hopened.source.imp_right ?_, hopened.ascending⟩
      rintro ⟨hnodes, hback, _, _⟩
      exact ⟨hnodes, hback, a, rfl⟩

end Specs

/-! ### Lookups -/

section Lookups

variable {γ : Type} [DecidableEq κ] [Node β κ τ]

/-- What `look` finds in the node of a key. -/
def lookup (look : τ → Option γ) (nodes : List τ) (wanted : κ) : Option γ :=
  (nodes.find? fun node => key node = wanted).bind look

variable [LT κ] {fresh : Addr → τ} {wanted : κ} {nodes front back : List τ} {node : τ}
  {look : τ → Option γ}

/-- A lookup in a tree that was opened at a key: at this key it looks into the open node, elsewhere
into the tree as it was. -/
theorem Opened.lookup_eq (h : Opened fresh wanted nodes front node back) (node' : τ)
    (hkey : key node' = wanted) (other : κ) :
    lookup look (front ++ node' :: back) other =
      if other = wanted then look node' else lookup look nodes other := by
  unfold lookup
  by_cases hother : other = wanted
  · subst hother
    have hfront : front.find? (fun node => key node = other) = none := by
      simpa using h.front_ne
    simp [List.find?_append, hfront, hkey]
  · rw [if_neg hother]
    have hne : key node' ≠ other := fun heq => hother (heq.symm.trans hkey)
    have hnode : key node ≠ other := fun heq => hother (heq.symm.trans h.key_eq)
    rcases h.source with rfl | ⟨rfl, _, _⟩
    · simp [List.find?_append, hne, hnode]
    · simp [List.find?_append, hne]

/-- What is found at the key before it was opened: what an old node shows, and nothing where the
node is new. -/
theorem Opened.lookup_cases (h : Opened fresh wanted nodes front node back) :
    lookup look nodes wanted = look node ∨
      lookup look nodes wanted = none ∧ ∃ a, node = fresh a := by
  rcases h.source with hold | ⟨hnew, hback, hfresh⟩
  · left
    have hlook : lookup look (front ++ node :: back) wanted = _ :=
      h.lookup_eq node h.key_eq wanted
    rwa [if_pos rfl, hold] at hlook
  · refine Or.inr ⟨?_, hfresh⟩
    have hnone : nodes.find? (fun node => key node = wanted) = none := by
      rw [← hnew]
      simp only [List.find?_eq_none, List.mem_append, decide_eq_true_eq]
      rintro other (hother | hother)
      · exact h.front_ne other hother
      · exact hback other hother
    rw [lookup, hnone, Option.bind_none]

/-- The same where a new node shows nothing. -/
theorem Opened.lookup_wanted (h : Opened fresh wanted nodes front node back)
    (hfresh : ∀ a, look (fresh a) = none) : lookup look nodes wanted = look node := by
  have hcases : lookup look nodes wanted = look node ∨ _ := h.lookup_cases
  rcases hcases with hold | ⟨hnone, a, rfl⟩
  · exact hold
  · rw [hnone, hfresh]

/-- A tree that answers every lookup as an ordered map does lists what the map lists. -/
theorem toList_eq [Ord κ] [Std.TransOrd κ] [Std.LawfulEqOrd κ] {ν : Type} {tree : Std.TreeMap κ ν}
    {view : ν → γ} {value : τ → γ} (hcompare : ∀ a b : κ, compare a b = .lt ↔ a < b)
    (hascending : Ascending nodes)
    (h : ∀ wanted : κ,
      tree[wanted]?.map view = lookup (fun node => some (value node)) nodes wanted) :
    tree.toList.map (fun entry => (entry.1, view entry.2)) =
      nodes.map fun node => (key node, value node) := by
  have hirrefl : ∀ a : κ, ¬ a < a := by
    intro a hlt
    have heq := (hcompare a a).mpr hlt
    rw [Std.compare_self] at heq
    cases heq
  have hnodes : (nodes.map fun node => (key node, value node)).Pairwise
      fun a b => compare a.1 b.1 = .lt := by
    rw [List.pairwise_map]
    exact hascending.imp fun hlt => (hcompare _ _).mpr hlt
  have htree : (tree.toList.map fun entry => (entry.1, view entry.2)).Pairwise
      fun a b => compare a.1 b.1 = .lt := by
    rw [List.pairwise_map]
    exact Std.TreeMap.ordered_keys_toList
  have hnodup : ∀ entries : List (κ × γ),
      (entries.Pairwise fun a b => compare a.1 b.1 = .lt) → entries.Nodup := by
    intro entries hentries
    refine hentries.imp ?_
    rintro a _ hlt rfl
    exact hirrefl _ ((hcompare _ _).mp hlt)
  refine List.Perm.eq_of_pairwise (fun a b _ _ hab hba => ?_) htree hnodes
    ((List.perm_ext_iff_of_nodup (hnodup _ htree) (hnodup _ hnodes)).mpr ?_)
  · have hcontra := Std.OrientedCmp.gt_of_lt hab
    rw [hba] at hcontra
    cases hcontra
  · rintro ⟨wanted, found⟩
    have hmem : (wanted, found) ∈ tree.toList.map (fun entry => (entry.1, view entry.2)) ↔
        lookup (fun node => some (value node)) nodes wanted = some found := by
      rw [← h, Option.map_eq_some_iff]
      constructor
      · intro hmem
        obtain ⟨⟨k, v⟩, hentry, hpair⟩ := List.mem_map.mp hmem
        obtain ⟨rfl, hview⟩ := Prod.mk.inj hpair
        exact ⟨v, Std.TreeMap.mem_toList_iff_getElem?_eq_some.mp hentry, hview⟩
      · rintro ⟨v, hget, rfl⟩
        exact List.mem_map.mpr
          ⟨(wanted, v), Std.TreeMap.mem_toList_iff_getElem?_eq_some.mpr hget, rfl⟩
    rw [hmem, lookup]
    constructor
    · intro hfound
      obtain ⟨node, hfind, hvalue⟩ := Option.bind_eq_some_iff.mp hfound
      have hkey : key node = wanted := by simpa using List.find?_some hfind
      exact List.mem_map.mpr ⟨node, List.mem_of_find?_eq_some hfind,
        by rw [Option.some.inj hvalue, hkey]⟩
    · intro hmem
      obtain ⟨node, hnode, hpair⟩ := List.mem_map.mp hmem
      obtain ⟨rfl, rfl⟩ := Prod.mk.inj hpair
      -- no node before it has its key
      obtain ⟨front, back, rfl⟩ := List.append_of_mem hnode
      have hfront : front.find? (fun other => key other = key node) = none := by
        simp only [List.find?_eq_none, decide_eq_true_eq]
        intro other hother heq
        have hlt := (List.pairwise_append.mp hascending).2.2 other hother node List.mem_cons_self
        rw [heq] at hlt
        exact hirrefl _ hlt
      simp [List.find?_append, hfront]

end Lookups

end Dedup.IntrusiveTree
