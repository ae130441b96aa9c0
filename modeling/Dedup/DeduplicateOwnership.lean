/-
Module: Dedup.DeduplicateOwnership
Purpose: `deduplicate` over pointers is `deduplicate` of the model.  It reads the records where
  their list owns them, the tree of clone ids is given back on every path out, and the addresses of
  the records are distinct, so a comparison of pointers tells the elements apart as their positions
  do.
Imports: Dedup.DeduplicateMemory, Dedup.DuplicateOwnership, Dedup.ReportedTotals
Trusted boundary: counters that do not overflow
Main exports: readMember_spec, moreHardlinks_spec, cloneCounts_spec, selectAmongClones_spec,
  deduplicate_spec, deduplicateLists_spec
-/
import Dedup.DeduplicateMemory
import Dedup.DuplicateOwnership
import Dedup.ReportedTotals

namespace Dedup.ScanMemory

open Heap IntrusiveTree

/-! ### Elements of a list -/

section Elements

variable {list : AListAt} {pre : Multiset Cell}

/-- An element is read through its pointer. -/
theorem readMember_spec (howned : list.cells ≤ pre) {m : Member} (hm : m ∈ list.members) :
    Triple pre (readMember (list.addrOf m)) fun result after =>
      result = { m with index := list.addrOf m } ∧ after = pre := by
  obtain ⟨held, hcells, haddr, hfm⟩ := held_of_owned howned hm
  rw [← haddr]
  refine Triple.loadAs_then (Multiset.mem_of_le hcells held.mem_cells) rfl ?_
  refine Triple.loadAs_then (Multiset.mem_of_le hcells held.path_mem_cells) rfl ?_
  exact Triple.pure ⟨by rw [recordOf_read, hfm], rfl⟩

theorem pathsFrom_spec (howned : list.cells ≤ pre) {done rest : List Member}
    (hsplit : list.members = done ++ rest) {fuel : Nat} (hfuel : rest.length < fuel) :
    Triple pre (pathsFrom fuel list.addr done.length) fun result after =>
      result = rest.map (fun m => m.fm.path) ∧ after = pre := by
  refine (forElements_fold (fun paths m => paths ++ [m.fm.path]) howned ?_ hsplit hfuel
    []).weaken ?_
  · intro paths m hm
    refine (readMember_spec howned hm).bind ?_
    rintro _ _ ⟨rfl, rfl⟩
    exact Triple.pure ⟨rfl, rfl⟩
  · rintro _ _ ⟨rfl, rfl⟩
    refine ⟨?_, rfl⟩
    rw [List.foldl_append_eq_append, List.nil_append, ← List.flatMap_def]
    exact List.map_eq_flatMap.symm

/-! ### The choice of the origin -/

theorem mem_of_mostHardlinks {ms : List Member} {m : Member} (h : mostHardlinks ms = some m) :
    m ∈ ms := by
  rw [mostHardlinks_eq] at h
  exact mem_of_firstGreatest h

/-- The first loop finds the element of most links. -/
theorem moreHardlinks_spec (howned : list.cells ≤ pre) {fuel : Nat}
    (hfuel : list.members.length < fuel) :
    Triple pre (forElements list.addr moreHardlinks 0 none fuel) fun result after =>
      result = (mostHardlinks list.members).map list.addrOf ∧ after = pre := by
  refine forElements_spec list (I := fun done result after =>
    result = (mostHardlinks done).map list.addrOf ∧ after = pre) ?_ ?_ (fun _ _ h => h)
      (List.nil_append _).symm hfuel ⟨rfl, rfl⟩
  · rintro _ _ _ ⟨_, rfl⟩
    exact howned
  · rintro done m rest hsplit _ _ ⟨rfl, rfl⟩
    have hm : m ∈ list.members := by simp [hsplit]
    have hturn : mostHardlinks (done ++ [m]) = Dedup.moreHardlinks (mostHardlinks done) m := by
      simp [mostHardlinks, List.foldl_append]
    rw [hturn]
    refine loadRecord_then howned hm fun path => ?_
    cases hbest : mostHardlinks done with
    | none =>
        refine Triple.pure ⟨?_, rfl⟩
        change (if m.fm.nlink > 1 then _ else _) = _
        simp only [Dedup.moreHardlinks]
        split <;> rfl
    | some best =>
        have hmem : best ∈ list.members := by
          rw [hsplit]
          exact List.mem_append_left _ (mem_of_mostHardlinks hbest)
        refine loadRecord_then howned hmem fun path' => Triple.pure ⟨?_, rfl⟩
        change (if m.fm.nlink > 1 ∧ best.fm.nlink < m.fm.nlink then _ else _) = _
        simp only [Dedup.moreHardlinks]
        split <;> rfl

end Elements

/-- An `IDCountNode` with the pointer to the first element of its id. -/
structure IdCountAt where
  addr : Addr
  id : Nat
  count : Nat
  fm : Addr

instance : Node Block Nat IdCountAt where
  addr := IdCountAt.addr
  key := IdCountAt.id
  cells node := {(node.addr, .idCountNode node.id node.count node.fm)}
  keyOf := Block.idCountKey
  readable _ := ⟨_, Multiset.mem_singleton_self _, rfl⟩

/-- The nodes hold the counts of the elements that were passed. -/
structure Counts (list : AListAt) (done : List Member) (nodes : List IdCountAt) : Prop where
  ascending : Ascending nodes
  counts : ∀ id : Nat,
    (cloneIdCounts done)[id]?.map (fun tally => (tally.count, list.addrOf tally.first)) =
      lookup (fun node : IdCountAt => some (node.count, node.fm)) nodes id

section Counting

variable {list : AListAt} {tree : Addr} {done : List Member} {nodes : List IdCountAt}

/-- `clone_id_tree_increment` counts one more element. -/
theorem cloneIdTreeIncrement_spec (h : Counts list done nodes) {m : Member}
    (hm : m ∈ list.members) :
    Triple (list.cells + treeCells treeRoot tree () nodes)
      (cloneIdTreeIncrement tree (list.addrOf m)) fun _ after =>
        ∃ nodes', Counts list (done ++ [m]) nodes' ∧
          after = list.cells + treeCells treeRoot tree () nodes' := by
  refine loadRecord_then (Multiset.le_add_right _ _) hm fun path => ?_
  refine (findOrCreate_spec treeRoot tree ()
    (fun a => IdCountAt.mk a m.fm.cloneId 0 (list.addrOf m)) m.fm.cloneId nodes (fun _ => rfl)
    (fun _ => rfl) (fun _ => rfl)).call list.cells (add_comm _ _) ?_
  rintro _ _ ⟨front, node, back, hopened, rfl, rfl⟩
  let counted : IdCountAt := { node with count := node.count + 1 }
  have hcells : ∀ node' : IdCountAt, node'.addr = node.addr →
      treeCells treeRoot tree () (front ++ node' :: back) + list.cells =
        (node'.addr, Block.idCountNode node'.id node'.count node'.fm) ::ₘ
          (hole treeRoot tree () front node.addr back + list.cells) := by
    intro node' haddr
    rw [treeCells_split, add_assoc, ← Multiset.singleton_add, ← haddr]
    rfl
  rw [hcells node rfl]
  refine Triple.loadAs_then (Multiset.mem_cons_self _ _) rfl ?_
  refine (Triple.store _ rfl).weaken ?_
  rintro _ _ rfl
  have hkey : Node.key counted = m.fm.cloneId := hopened.key_eq
  refine ⟨front ++ counted :: back,
    ⟨ascending_put (hkey.trans hopened.key_eq.symm) (hopened.ascending h.ascending), ?_⟩, ?_⟩
  · intro id
    have hincrement : cloneIdCounts (done ++ [m]) =
        Dedup.cloneIdTreeIncrement (cloneIdCounts done) m := by
      simp [cloneIdCounts, List.foldl_append]
    have hlookup : lookup (fun node : IdCountAt => some (node.count, node.fm))
        (front ++ counted :: back) id = _ := hopened.lookup_eq counted hkey id
    rw [hlookup, hincrement, Dedup.cloneIdTreeIncrement, countKey, Std.TreeMap.getElem?_insert]
    rcases eq_or_ne id m.fm.cloneId with rfl | hne
    · have hcases : lookup (fun node : IdCountAt => some (node.count, node.fm)) nodes
          m.fm.cloneId = some (node.count, node.fm) ∨ _ := hopened.lookup_cases
      rw [← h.counts] at hcases
      simp only [Std.compare_self, if_true]
      rcases hcases with hold | ⟨hnone, a, hfresh⟩
      · obtain ⟨tally, htally, hpair⟩ := Option.map_eq_some_iff.mp hold
        obtain ⟨hcount, hfirst⟩ := Prod.mk.inj hpair
        simp [htally, hcount, hfirst, counted]
      · have htally := Option.map_eq_none_iff.mp hnone
        simp [htally, hfresh, counted]
    · simp only [Std.compare_eq_iff_eq, hne, hne.symm, if_false]
      exact h.counts id
  · rw [add_comm list.cells, hcells counted rfl]

theorem Counts.toList_eq (h : Counts list done nodes) :
    (cloneIdCounts done).toList.map
        (fun entry => (entry.1, entry.2.count, list.addrOf entry.2.first)) =
      nodes.map fun node => (node.id, node.count, node.fm) :=
  IntrusiveTree.toList_eq (fun _ _ => Nat.compare_eq_lt) h.ascending h.counts

theorem Counts.length_eq (h : Counts list done nodes) :
    nodes.length = (cloneIdCounts done).size := by
  have hlength := congrArg List.length h.toList_eq
  rw [List.length_map, List.length_map, Std.TreeMap.length_toList] at hlength
  exact hlength.symm

/-- There are no more clone ids than elements. -/
theorem Counts.length_le (h : Counts list done nodes) : nodes.length ≤ done.length := by
  rw [h.length_eq, size_cloneIdCounts]
  exact (List.dedup_sublist _).length_le.trans (List.length_map _).le

/-- The loop that counts the clone ids. -/
theorem cloneCounts_spec (tree : Addr) {fuel : Nat} (hfuel : list.members.length < fuel) :
    Triple (list.cells + treeCells treeRoot tree () ([] : List IdCountAt))
      (forElements list.addr (fun _ fm => do
        cloneIdTreeIncrement tree fm
        return .yield ()) 0 () fuel) fun _ after =>
          ∃ nodes, Counts list list.members nodes ∧
            after = list.cells + treeCells treeRoot tree () nodes := by
  refine forElements_spec list (I := fun done _ after => ∃ nodes, Counts list done nodes ∧
    after = list.cells + treeCells treeRoot tree () nodes) ?_ ?_ (fun _ _ h => h)
      (List.nil_append _).symm hfuel ⟨[], ⟨List.Pairwise.nil, ?_⟩, rfl⟩
  · rintro _ _ _ ⟨nodes, _, rfl⟩
    exact Multiset.le_add_right _ _
  · rintro done m rest hsplit _ _ ⟨nodes, hcounts, rfl⟩
    refine (cloneIdTreeIncrement_spec hcounts (by simp [hsplit])).bind ?_
    rintro _ _ ⟨nodes', hcounts', rfl⟩
    exact Triple.pure ⟨nodes', hcounts', rfl⟩
  · intro id
    simp [cloneIdCounts, lookup]

/-- `clone_id_tree_max` finds the pointer to the element that the model finds. -/
theorem cloneIdTreeMax_spec (h : Counts list done nodes) :
    Triple (treeCells treeRoot tree () nodes) (cloneIdTreeMax tree) fun result after =>
      result = (Dedup.cloneIdTreeMax (cloneIdCounts done)).map list.addrOf ∧
        after = treeCells treeRoot tree () nodes := by
  have hturn : ∀ best : Option Addr × Nat, ∀ node ∈ nodes,
      Triple (treeCells treeRoot tree () nodes) (moreClones best (Node.addr node))
        fun result after =>
          result = (if node.count > best.2 then (some node.fm, node.count) else best) ∧
            after = treeCells treeRoot tree () nodes := by
    intro best node hnode
    exact Triple.loadAs_then (Multiset.mem_of_le (cells_le_treeCells hnode)
      (Multiset.mem_singleton_self _)) rfl (Triple.pure ⟨rfl, rfl⟩)
  have hloop := forEach_spec le_rfl hturn
  refine (hloop (none, 0)).bind ?_
  rintro _ _ ⟨rfl, rfl⟩
  refine Triple.pure ⟨?_, rfl⟩
  -- both loops go over the same entries, one with pointers in the place of elements
  let turn (best : Option Addr × Nat) (entry : Nat × Nat × Addr) : Option Addr × Nat :=
    if entry.2.1 > best.2 then (some entry.2.2, entry.2.1) else best
  let elementTurn (best : Option Member × Nat) (entry : Nat × IdCountNode) : Option Member × Nat :=
    if entry.2.count > best.2 then (some entry.2.first, entry.2.count) else best
  let pointer (best : Option Member × Nat) : Option Addr × Nat := (best.1.map list.addrOf, best.2)
  have hpointer : ∀ best entry,
      turn (pointer best) (entry.1, entry.2.count, list.addrOf entry.2.first) =
        pointer (elementTurn best entry) := by
    intro best entry
    simp only [turn, elementTurn, pointer]
    split <;> rfl
  calc (nodes.foldl (fun best node =>
          if node.count > best.2 then (some node.fm, node.count) else best) (none, 0)).1
      = ((nodes.map fun node => (node.id, node.count, node.fm)).foldl turn (none, 0)).1 := by
        rw [List.foldl_map]
    _ = ((cloneIdCounts done).toList.foldl (fun best entry =>
          turn best (entry.1, entry.2.count, list.addrOf entry.2.first))
            (pointer (none, 0))).1 := by
        rw [← h.toList_eq, List.foldl_map]
        rfl
    _ = (pointer ((cloneIdCounts done).toList.foldl elementTurn (none, 0))).1 := by
        rw [List.foldl_hom pointer hpointer]
    _ = (Dedup.cloneIdTreeMax (cloneIdCounts done)).map list.addrOf := by
        rw [Dedup.cloneIdTreeMax, Std.TreeMap.foldl_eq_foldl_toList]

/-- `free_clone_id_counts` gives back the nodes and not the records. -/
theorem freeCloneIdCounts_spec (tree : Addr) {fuel : Nat} (hfuel : nodes.length < fuel) :
    Triple (treeCells treeRoot tree () nodes) (freeCloneIdCounts fuel tree)
      fun _ after => after = 0 :=
  drain_free_spec treeRoot tree () (fun _ _ => Triple.free rfl) hfuel

end Counting

/-! ### `deduplicate` -/

section Program

variable {W : Type} {opts : Options} {list : AListAt} {pre : Multiset Cell} {fuel : Nat}

/-- What `deduplicate` has reported and counted when the choice is made. -/
def settled (opts : Options) (ms : List Member) (selection : Selection) (ctx : Context W) :
    Context W :=
  let ctx := { ctx with reports := ctx.reports ++ selectionReports opts ms selection }
  match selection, ms with
  | .alreadyCloned, first :: rest => ctx.addAlreadySaved (first.fm.size * rest.length)
  | _, _ => ctx

/-- The pointer to what was chosen. -/
def AListAt.chosen (list : AListAt) : Selection → Option (Addr × Reason)
  | .origin m reason => some (list.addrOf m, reason)
  | .alreadyCloned => none
  | .allCompressed => none

/-- `deduplicate` of the model from where the choice is made. -/
theorem deduplicate_eq (calls : Calls W) (fms : List FileMetadata) (ctx : Context W) :
    Dedup.deduplicate calls opts fms ctx =
      match selectOrigin (Dedup.members fms) with
      | .origin origin reason =>
          replaceMembers calls opts (Dedup.members fms) origin
            ((settled opts (Dedup.members fms) (.origin origin reason) ctx).report
              (.using origin.fm.path reason))
      | selection => settled opts (Dedup.members fms) selection ctx := by
  simp only [Dedup.deduplicate]
  cases selectOrigin (Dedup.members fms) with
  | alreadyCloned => cases Dedup.members fms <;> rfl
  | allCompressed => rfl
  | origin origin reason => rfl

theorem reportAlreadyCloned_spec (howned : list.cells ≤ pre) (hne : list.members ≠ [])
    (hfuel : list.members.length < fuel) (ctx : Context W) :
    Triple pre (reportAlreadyCloned opts fuel list.addr ctx) fun result after =>
      result = settled opts list.members .alreadyCloned ctx ∧ after = pre := by
  obtain ⟨first, rest, hsplit⟩ := List.exists_cons_of_ne_nil hne
  have hfirst : list.members = [] ++ first :: rest := hsplit
  have hrest : list.members = [first] ++ rest := hsplit
  rw [hsplit, List.length_cons] at hfuel
  refine alistGet_then howned hfirst ?_
  refine (readMember_spec howned (by simp [hsplit])).bind ?_
  rintro _ _ ⟨rfl, rfl⟩
  refine alistSize_then howned ?_
  by_cases hverbose : opts.verbosity > 0
  · simp only [if_pos hverbose]
    refine (pathsFrom_spec howned hrest (Nat.lt_of_succ_lt hfuel)).bind ?_
    rintro _ _ ⟨rfl, rfl⟩
    refine Triple.pure ⟨?_, rfl⟩
    simp [settled, selectionReports, hsplit, hverbose, Context.report, Context.addAlreadySaved]
  · simp only [if_neg hverbose]
    refine Triple.pure ⟨?_, rfl⟩
    simp [settled, selectionReports, hsplit, hverbose, Context.addAlreadySaved]

/-- The loop stops at the first file that is not compressed. -/
theorem skipCompressed_spec (howned : list.cells ≤ pre) (hfuel : list.members.length < fuel)
    (ctx : Context W) :
    Triple pre (forElements list.addr (skipCompressed opts) 0 (none, ctx) fuel) fun result after =>
      after = pre ∧
        match list.members.find? fun m => !m.fm.compressed with
        | some m =>
            result = (some (list.addrOf m),
              settled opts list.members (.origin m .firstSeen) ctx)
        | none =>
            result = (none,
              { ctx with
                reports := ctx.reports ++ if opts.verbosity > 1 then
                  list.members.map fun m => .foundCompressed m.fm.path else [] }) := by
  refine forElements_spec list (I := fun done result after => after = pre ∧
    (∀ m ∈ done, m.fm.compressed = true) ∧
    result = (none,
      { ctx with
        reports := ctx.reports ++ if opts.verbosity > 1 then
          done.map fun m => .foundCompressed m.fm.path else [] })) ?_ ?_ ?_
      (List.nil_append _).symm hfuel ⟨rfl, by simp, by simp⟩
  · rintro _ _ _ ⟨rfl, _⟩
    exact howned
  · rintro done m rest hsplit _ _ ⟨rfl, hdone, rfl⟩
    refine (readMember_spec howned (by simp [hsplit])).bind ?_
    rintro _ _ ⟨rfl, rfl⟩
    cases hcompressed : m.fm.compressed with
    | true =>
        simp only [if_true]
        refine Triple.pure ⟨rfl, ?_, ?_⟩
        · intro other hother
          rcases List.mem_append.mp hother with hother | hother
          · exact hdone other hother
          · rwa [List.mem_singleton.mp hother]
        · by_cases hverbose : opts.verbosity > 1
          · simp [hverbose, Context.report]
          · simp [hverbose]
    | false =>
        simp only [Bool.false_eq_true, if_false]
        have hfind : list.members.find? (fun m => !m.fm.compressed) = some m := by
          rw [hsplit, List.find?_append, List.find?_eq_none.mpr (by simpa using hdone)]
          simp [hcompressed]
        have htake : list.members.takeWhile (fun m => m.fm.compressed) = done := by
          rw [hsplit, List.takeWhile_append_of_pos hdone]
          simp [hcompressed]
        refine Triple.pure ⟨rfl, ?_⟩
        simp [hfind, settled, selectionReports, htake]
  · rintro _ _ ⟨rfl, hall, rfl⟩
    have hfind : list.members.find? (fun m => !m.fm.compressed) = none :=
      List.find?_eq_none.mpr (by simpa using hall)
    simp [hfind]

theorem reportAllCompressed_spec (howned : list.cells ≤ pre) (hfuel : list.members.length < fuel)
    (ctx : Context W) :
    Triple pre (reportAllCompressed opts fuel list.addr
      { ctx with
        reports := ctx.reports ++ if opts.verbosity > 1 then
          list.members.map fun m => .foundCompressed m.fm.path else [] }) fun result after =>
        result = settled opts list.members .allCompressed ctx ∧ after = pre := by
  have hall : list.members = [] ++ list.members := rfl
  unfold reportAllCompressed
  by_cases hverbose : opts.verbosity > 0
  · simp only [if_pos hverbose]
    refine (pathsFrom_spec howned hall hfuel).bind ?_
    rintro _ _ ⟨rfl, rfl⟩
    refine Triple.pure ⟨?_, rfl⟩
    simp [settled, selectionReports, hverbose, Context.report]
  · simp only [if_neg hverbose]
    refine Triple.pure ⟨?_, rfl⟩
    simp [settled, selectionReports, hverbose]

/-- The choice of the model where no file has several links. -/
theorem selectOrigin_of_single {ms : List Member} (hnone : mostHardlinks ms = none) :
    selectOrigin ms =
      if (cloneIdCounts ms).size = 1 then .alreadyCloned
      else if (cloneIdCounts ms).size = ms.length then
        match ms.find? fun m => !m.fm.compressed with
        | some m => .origin m .firstSeen
        | none => .allCompressed
      else
        match Dedup.cloneIdTreeMax (cloneIdCounts ms) with
        | some m => .origin m .mostClones
        | none => .allCompressed := by
  unfold selectOrigin
  rewrite [hnone]
  rfl

/-- The choice among the clones, after which the counts have been given back on every path. -/
theorem selectAmongClones_spec (hnone : mostHardlinks list.members = none)
    (hfuel : list.members.length < fuel) (ctx : Context W) :
    Triple list.cells (selectAmongClones opts fuel list.addr ctx) fun result after =>
      result = (list.chosen (selectOrigin list.members),
        settled opts list.members (selectOrigin list.members) ctx) ∧ after = list.cells := by
  have hselect := selectOrigin_of_single hnone
  refine Triple.malloc_then fun tree => ?_
  refine (cloneCounts_spec tree hfuel).call 0 ?_ ?_
  · rw [add_zero, ← Multiset.singleton_add, add_comm]
    rfl
  rintro _ _ ⟨nodes, hcounts, rfl⟩
  rw [add_zero]
  have hlength := hcounts.length_eq
  have howned : list.cells ≤ treeCells treeRoot tree () nodes + list.cells :=
    Multiset.le_add_left _ _
  have hfree := freeCloneIdCounts_spec tree (lt_of_le_of_lt hcounts.length_le hfuel)
  refine (count_spec treeRoot tree () nodes).call list.cells (add_comm _ _) ?_
  rintro _ _ ⟨rfl, rfl⟩
  by_cases hone : nodes.length = 1
  · rw [if_pos hone]
    have hne : list.members ≠ [] := by
      rintro hnil
      have hle := hcounts.length_le
      rw [hnil, List.length_nil] at hle
      omega
    refine (reportAlreadyCloned_spec howned hne hfuel ctx).bind ?_
    rintro _ _ ⟨rfl, rfl⟩
    refine hfree.call list.cells rfl ?_
    rintro _ _ rfl
    refine Triple.pure ⟨?_, zero_add _⟩
    rw [hselect, if_pos (hlength ▸ hone)]
    rfl
  · rw [if_neg hone]
    rw [if_neg (hlength ▸ hone)] at hselect
    refine (count_spec treeRoot tree () nodes).call list.cells rfl ?_
    rintro _ _ ⟨rfl, rfl⟩
    refine alistSize_then howned ?_
    by_cases hall : nodes.length = list.members.length
    · rw [if_pos hall]
      rw [if_pos (hlength ▸ hall)] at hselect
      refine (skipCompressed_spec howned hfuel ctx).bind ?_
      rintro result _ ⟨rfl, hresult⟩
      cases hfind : list.members.find? fun m => !m.fm.compressed with
      | some m =>
          rw [hfind] at hresult hselect
          subst hresult
          refine hfree.call list.cells rfl ?_
          rintro _ _ rfl
          refine Triple.pure ⟨?_, zero_add _⟩
          rw [hselect]
          rfl
      | none =>
          rw [hfind] at hresult hselect
          subst hresult
          refine (reportAllCompressed_spec howned hfuel ctx).bind ?_
          rintro _ _ ⟨rfl, rfl⟩
          refine hfree.call list.cells rfl ?_
          rintro _ _ rfl
          refine Triple.pure ⟨?_, zero_add _⟩
          rw [hselect]
          rfl
    · rw [if_neg hall]
      rw [if_neg (hlength ▸ hall)] at hselect
      refine (cloneIdTreeMax_spec hcounts).call list.cells rfl ?_
      rintro _ _ ⟨rfl, rfl⟩
      refine hfree.call list.cells rfl ?_
      rintro _ _ rfl
      rw [zero_add]
      cases hmax : Dedup.cloneIdTreeMax (cloneIdCounts list.members) with
      | some m =>
          rw [hmax] at hselect
          refine Triple.pure ⟨?_, rfl⟩
          rw [hselect]
          simp [AListAt.chosen, settled, selectionReports]
      | none =>
          -- some clone id occurs twice, so the tree has a node of a positive count
          rw [hmax] at hselect
          have hchosen := selectOrigin_chosen list.members
          rw [hselect] at hchosen
          cases hchosen with
          | allCompressed single distinct compressed =>
              exact absurd (hlength.trans ((size_cloneIdCounts_eq_length_iff _).mpr distinct)) hall

/-! ### The replacement loop -/

/-- The addresses of the items are among those of their blocks. -/
theorem addrs_le (items : List HeldRecord) :
    ((items.map HeldRecord.addr : List Addr) : Multiset Addr) ≤ (itemCells items).map Prod.fst := by
  induction items with
  | nil => exact Multiset.zero_le _
  | cons item items ih =>
      simp only [itemCells, List.map_cons, List.sum_cons, Multiset.map_add] at ih ⊢
      rw [← Multiset.cons_coe, ← Multiset.singleton_add]
      refine add_le_add ?_ ih
      simp [HeldRecord.cells]

/-- Two elements have one address where they have one position. -/
theorem addrOf_eq_iff (hnodup : (list.cells.map Prod.fst).Nodup) {m m' : Member}
    (hm : m ∈ list.members) (hm' : m' ∈ list.members) :
    list.addrOf m = list.addrOf m' ↔ m.index = m'.index := by
  have haddrs : (list.items.map HeldRecord.addr).Nodup := by
    rw [← Multiset.coe_nodup]
    refine Multiset.nodup_of_le (addrs_le list.items) (Multiset.nodup_of_le ?_ hnodup)
    exact Multiset.map_le_map (Multiset.le_add_left _ _)
  obtain ⟨held, hheld, haddr, -⟩ := AListAt.held_of_mem hm
  obtain ⟨held', hheld', haddr', -⟩ := AListAt.held_of_mem hm'
  constructor
  · intro heq
    have hindex : m.index < (list.items.map HeldRecord.addr).length := by
      rw [List.length_map]
      exact (List.getElem?_eq_some_iff.mp hheld).1
    refine (List.getElem?_inj hindex haddrs).mp ?_
    rw [List.getElem?_map, List.getElem?_map, hheld, hheld', Option.map_some, Option.map_some,
      haddr, haddr', heq]
  · intro heq
    rw [AListAt.addrOf, AListAt.addrOf, heq]

/-- Only whether the element is the origin depends on what tells the elements apart. -/
theorem replaceMember_reindexed (calls : Calls W) {origin m : Member} {a b : Nat}
    (h : b = a ↔ m.index = origin.index) (originCloneId : Nat) (ctx : Context W) :
    replaceMember calls opts { origin with index := a } originCloneId ctx { m with index := b } =
      replaceMember calls opts origin originCloneId ctx m := by
  have htreatment : treatment opts { origin with index := a } { m with index := b } =
      treatment opts origin m := by
    simp only [treatment, h]
  simp only [replaceMember, htreatment, performReplacement]

theorem replaceElements_spec (calls : Calls W) (hnodup : (list.cells.map Prod.fst).Nodup)
    {origin : Member} (horigin : origin ∈ list.members) (hfuel : list.members.length < fuel)
    (reason : Reason) (ctx : Context W) :
    Triple list.cells
      (replaceElements calls opts fuel list.addr (list.addrOf origin) reason ctx)
      fun result after =>
        result = replaceMembers calls opts list.members origin
          (ctx.report (.using origin.fm.path reason)) ∧ after = list.cells := by
  refine (readMember_spec le_rfl horigin).bind ?_
  rintro _ _ ⟨rfl, rfl⟩
  refine forElements_fold _ le_rfl ?_ (List.nil_append _).symm hfuel _
  intro ctx m hm
  refine (readMember_spec le_rfl horigin).bind ?_
  rintro _ _ ⟨rfl, rfl⟩
  refine (readMember_spec le_rfl hm).bind ?_
  rintro _ _ ⟨rfl, rfl⟩
  exact Triple.pure ⟨by rw [replaceMember_reindexed calls (addrOf_eq_iff hnodup hm horigin)], rfl⟩

/-- `deduplicate` over pointers does what the model does, and leaves the heap as it was. -/
theorem deduplicate_spec (calls : Calls W) (list : AListAt)
    (hfuel : list.members.length < fuel) (ctx : Context W) :
    Triple list.cells (deduplicate calls opts fuel list.addr ctx) fun result after =>
      result = Dedup.deduplicate calls opts list.fms ctx ∧ after = list.cells := by
  refine Triple.of_nodup fun hnodup => ?_
  rw [deduplicate_eq]
  change Triple _ _ fun result after => result = (match selectOrigin list.members with
    | .origin origin reason =>
        replaceMembers calls opts list.members origin
          ((settled opts list.members (.origin origin reason) ctx).report
            (.using origin.fm.path reason))
    | selection => settled opts list.members selection ctx) ∧ after = list.cells
  refine (moreHardlinks_spec le_rfl hfuel).bind ?_
  rintro _ _ ⟨rfl, rfl⟩
  cases hlinks : mostHardlinks list.members with
  | some origin =>
      have hselect : selectOrigin list.members = .origin origin .mostHardlinks := by
        unfold selectOrigin
        rw [hlinks]
      have hsettled : settled opts list.members (.origin origin .mostHardlinks) ctx = ctx := by
        simp [settled, selectionReports]
      rw [hselect]
      simp only [hsettled]
      exact replaceElements_spec calls hnodup (mem_of_mostHardlinks hlinks) hfuel _ ctx
  | none =>
      refine (selectAmongClones_spec hlinks hfuel ctx).bind ?_
      rintro _ _ ⟨rfl, rfl⟩
      cases hselect : selectOrigin list.members with
      | alreadyCloned => exact Triple.pure ⟨rfl, rfl⟩
      | allCompressed => exact Triple.pure ⟨rfl, rfl⟩
      | origin origin reason =>
          exact replaceElements_spec calls hnodup (mem_of_selectOrigin hselect) hfuel _ _

/-- The loop of `main` over the lists, in the order of their digests. -/
theorem deduplicateLists_spec (calls : Calls W) {duplicates : DuplicatesAt} {tree : DuplicateTree}
    (hstands : duplicates.Stands tree) (hfuel : Multiset.card duplicates.cells ≤ fuel)
    (ctx : Context W) :
    Triple duplicates.cells (deduplicateLists calls opts fuel duplicates.addr ctx)
      fun result after =>
        result = deduplicateAll calls opts (duplicateSets tree) ctx ∧ after = duplicates.cells := by
  have hsets : duplicateSets tree = duplicates.nodes.map fun node => node.list.fms := by
    have hlists : tree.toList.map (fun entry => (entry.1, id entry.2)) =
        duplicates.nodes.map fun node => (node.sha256, node.list.fms) :=
      IntrusiveTree.toList_eq (fun _ _ => compareOfLessAndEq_eq_lt) hstands.ascending
        fun digest => by
          rw [Option.map_id]
          exact hstands.lists digest
    have hsnd := congrArg (List.map Prod.snd) hlists
    rw [List.map_map, List.map_map] at hsnd
    exact hsnd
  rw [deduplicateAll, hsets, List.foldl_map]
  refine forEach_spec le_rfl (fun ctx node hnode => ?_) ctx
  have hle : node.cells ≤ duplicates.cells := cells_le_treeCells hnode
  refine Triple.loadAs_then (Multiset.mem_of_le hle (Multiset.mem_cons_self _ _)) rfl ?_
  have hcells : node.list.cells ≤ duplicates.cells := (Multiset.le_cons_self _ _).trans hle
  obtain ⟨frame, hframe⟩ := Multiset.le_iff_exists_add.mp hcells
  have hlength : node.list.members.length < fuel := by
    rw [AListAt.length_members]
    exact lt_of_lt_of_le node.length_lt_card ((Multiset.card_le_card hle).trans hfuel)
  refine (deduplicate_spec calls node.list hlength ctx).last frame hframe ?_
  rintro _ _ ⟨rfl, rfl⟩
  exact ⟨rfl, hframe.symm⟩

end Program

end Dedup.ScanMemory
