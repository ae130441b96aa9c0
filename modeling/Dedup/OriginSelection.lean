/-
Module: Dedup.OriginSelection
Purpose: How `deduplicate` chooses the file the others are cloned from: the most hard links, then
  the clone id that occurs most often, then the first file that is not compressed.  A list element
  is told apart from an equal one by its position, as the pointers of the C list are.
Imports: Dedup.Lib.Greatest, Dedup.Metadata
Trusted boundary: rbtree(3) as an ordered map that is iterated in ascending key order
Main exports: Member, members, mostHardlinks, cloneIdTreeIncrement, cloneIdTreeMax, Selection,
  selectOrigin, Chosen, selectOrigin_chosen
-/
import Dedup.Lib.Greatest
import Dedup.Metadata

namespace Dedup

open Std (TreeMap)

/-- An element of a metadata list: its position, which stands for the pointer, and its record. -/
structure Member where
  index : Nat
  fm : FileMetadata
deriving DecidableEq, Repr

/-- The elements of a metadata list. -/
def members (list : List FileMetadata) : List Member :=
  list.zipIdx.map fun item => { index := item.2, fm := item.1 }

/-! ### Most hard links -/

/-- One turn of the first loop of `deduplicate`. -/
def moreHardlinks (origin : Option Member) (m : Member) : Option Member :=
  match origin with
  | none => if m.fm.nlink > 1 then some m else none
  | some best => if m.fm.nlink > 1 ∧ best.fm.nlink < m.fm.nlink then some m else some best

/-- The first loop of `deduplicate`: the first element with the greatest `nlink` above one. -/
def mostHardlinks (ms : List Member) : Option Member :=
  ms.foldl moreHardlinks none

/-! ### Most clones -/

/-- `IDCountNode`: the first element with a clone id, and how many elements have it. -/
abbrev IdCountNode := Tally Member

/-- `clone_id_tree_increment`. -/
def cloneIdTreeIncrement (tree : TreeMap Nat IdCountNode) (m : Member) :
    TreeMap Nat IdCountNode :=
  countKey (fun other => other.fm.cloneId) tree m

/-- The counts of a list: `new_clone_id_counts`, and an increment for every element. -/
def cloneIdCounts (ms : List Member) : TreeMap Nat IdCountNode :=
  ms.foldl cloneIdTreeIncrement ∅

/-- `clone_id_tree_max`: over the nodes in ascending order, the first of the greatest count. -/
def cloneIdTreeMax (tree : TreeMap Nat IdCountNode) : Option Member :=
  (tree.foldl (fun (best : Option Member × Nat) _ node =>
    if node.count > best.2 then (some node.first, node.count) else best) (none, 0)).1

/-! ### The choice -/

/-- The reason printed with the origin. -/
inductive Reason where
  | mostHardlinks
  | firstSeen
  | mostClones
deriving DecidableEq, Repr

/-- What `deduplicate` decides before its replacement loop. -/
inductive Selection where
  /-- all clone ids are equal: nothing is done -/
  | alreadyCloned
  /-- all clone ids differ and all files are compressed: nothing is done -/
  | allCompressed
  /-- the loop runs with this origin -/
  | origin (m : Member) (reason : Reason)
deriving DecidableEq, Repr

/-- The origin of a list, with the reason the program prints. -/
def selectOrigin (ms : List Member) : Selection :=
  match mostHardlinks ms with
  | some m => .origin m .mostHardlinks
  | none =>
      let cloneCounts := cloneIdCounts ms
      if cloneCounts.size = 1 then .alreadyCloned
      else if cloneCounts.size = ms.length then
        match ms.find? fun m => !m.fm.compressed with
        | some m => .origin m .firstSeen
        | none => .allCompressed
      else
        match cloneIdTreeMax cloneCounts with
        | some m => .origin m .mostClones
        -- not reached: a tree without a node has the size of the empty list
        | none => .allCompressed

/-! ### What is chosen -/

/-- How many elements have a clone id. -/
def idCount (ms : List Member) (id : Nat) : Nat :=
  ms.countP fun m => m.fm.cloneId = id

@[simp] theorem map_fm_members (list : List FileMetadata) :
    (members list).map Member.fm = list := by
  simp [members, Function.comp_def]

/-- Equal positions hold one element. -/
theorem eq_of_index_eq {list : List FileMetadata} {m m' : Member} (hm : m ∈ members list)
    (hm' : m' ∈ members list) (h : m.index = m'.index) : m = m' := by
  rcases List.mem_map.mp hm with ⟨⟨fm, i⟩, hmem, rfl⟩
  rcases List.mem_map.mp hm' with ⟨⟨fm', i'⟩, hmem', rfl⟩
  rw [List.mem_zipIdx_iff_getElem?] at hmem hmem'
  simp_all

/-- The first loop is the scan for the first greatest `nlink` above one. -/
theorem mostHardlinks_eq (ms : List Member) :
    mostHardlinks ms = firstGreatest (fun m => m.fm.nlink - 1) ms := by
  induction ms using List.reverseRecOn with
  | nil => rfl
  | append_singleton ms m ih =>
      have hstep : mostHardlinks (ms ++ [m]) = moreHardlinks (mostHardlinks ms) m := by
        simp [mostHardlinks, List.foldl_append]
      rw [hstep, firstGreatest_append_singleton, ih]
      cases hbest : firstGreatest (fun m => m.fm.nlink - 1) ms with
      | none =>
          simp only [moreHardlinks, Option.map_none, Option.getD_none]
          congr 1
          simp only [eq_iff_iff]
          omega
      | some best =>
          have hpos : 0 < best.fm.nlink - 1 := (firstGreatest_split hbest).1
          simp only [moreHardlinks, Option.map_some, Option.getD_some]
          congr 1
          simp only [eq_iff_iff]
          omega

/-- The maximum over the nodes is the scan for the first greatest count. -/
theorem cloneIdTreeMax_eq (tree : TreeMap Nat IdCountNode) :
    cloneIdTreeMax tree =
      (firstGreatest (fun node => node.2.count) tree.toList).map fun node => node.2.first := by
  rw [cloneIdTreeMax, TreeMap.foldl_eq_foldl_toList]
  -- the loop's pair is the scan's best node and its count
  have hpair : ∀ nodes : List (Nat × IdCountNode),
      nodes.foldl (fun (best : Option Member × Nat) node =>
          if node.2.count > best.2 then (some node.2.first, node.2.count) else best) (none, 0) =
        ((firstGreatest (fun node => node.2.count) nodes).map fun node => node.2.first,
          ((firstGreatest (fun node => node.2.count) nodes).map fun node =>
            node.2.count).getD 0) := by
    intro nodes
    induction nodes using List.reverseRecOn with
    | nil => rfl
    | append_singleton nodes node ih =>
        rw [List.foldl_append, ih, firstGreatest_append_singleton]
        simp only [List.foldl_cons, List.foldl_nil, gt_iff_lt]
        split <;> rfl
  rw [hpair]

/-- The element of most clones: the first with its clone id, which is the smallest of those that
occur most often. -/
theorem cloneIdTreeMax_spec {ms : List Member} {m : Member}
    (h : cloneIdTreeMax (cloneIdCounts ms) = some m) :
    (ms.find? fun other => other.fm.cloneId = m.fm.cloneId) = some m ∧
      ∀ other ∈ ms, idCount ms other.fm.cloneId < idCount ms m.fm.cloneId ∨
        (idCount ms other.fm.cloneId = idCount ms m.fm.cloneId ∧
          m.fm.cloneId ≤ other.fm.cloneId) := by
  have hcounts : cloneIdCounts ms = tally (fun other => other.fm.cloneId) ms := rfl
  rw [cloneIdTreeMax_eq, Option.map_eq_some_iff] at h
  rcases h with ⟨⟨id, node⟩, hgreatest, hfirst⟩
  subst hfirst
  have hnode : ∀ entry ∈ (cloneIdCounts ms).toList,
      (ms.find? fun other => other.fm.cloneId = entry.1) = some entry.2.first ∧
        entry.2.count = idCount ms entry.1 := by
    intro entry hmem
    have hget := TreeMap.mem_toList_iff_getElem?_eq_some.mp hmem
    rw [hcounts, getElem?_tally, Option.map_eq_some_iff] at hget
    rcases hget with ⟨first, hfind, hentry⟩
    rw [← hentry]
    exact ⟨hfind, rfl⟩
  obtain ⟨hfind, hcount⟩ := hnode _ (mem_of_firstGreatest hgreatest)
  obtain rfl : node.first.fm.cloneId = id := by simpa using List.find?_some hfind
  refine ⟨hfind, fun other hmem => ?_⟩
  -- the node of the other id
  obtain ⟨first, hother⟩ : ∃ first,
      (ms.find? fun item => item.fm.cloneId = other.fm.cloneId) = some first := by
    rw [← Option.isSome_iff_exists, List.find?_isSome]
    exact ⟨other, hmem, by simp⟩
  have hentry : (other.fm.cloneId, Tally.mk first (idCount ms other.fm.cloneId)) ∈
      (cloneIdCounts ms).toList := by
    rw [TreeMap.mem_toList_iff_getElem?_eq_some, hcounts, getElem?_tally, hother]
    rfl
  have hle := firstGreatest_greatest hgreatest _ hentry
  rcases Nat.lt_or_eq_of_le hle with hlt | heq
  · left
    simpa [← hcount] using hlt
  · right
    refine ⟨by simpa [← hcount] using heq, ?_⟩
    rcases firstGreatest_split hgreatest with ⟨_, before, after, hsplit, hbefore⟩
    have hordered := TreeMap.ordered_keys_toList (t := cloneIdCounts ms)
    rw [hsplit] at hordered hentry
    rcases List.mem_append.mp hentry with hin | hin
    · have hlt := hbefore _ hin
      omega
    · rcases List.mem_cons.mp hin with hsame | hin
      · exact le_of_eq (congrArg Prod.fst hsame).symm
      · have hless := List.rel_of_pairwise_cons (List.pairwise_append.mp hordered).2.1 hin
        exact le_of_lt (Nat.compare_eq_lt.mp hless)

/-- The counts have one node for each clone id of the list. -/
theorem size_cloneIdCounts (ms : List Member) :
    (cloneIdCounts ms).size = ((ms.map fun m => m.fm.cloneId).dedup).length :=
  size_tally (fun m : Member => m.fm.cloneId) ms

/-- One node: all clone ids are equal. -/
theorem size_cloneIdCounts_eq_one {ms : List Member} (h : (cloneIdCounts ms).size = 1) :
    ∀ a ∈ ms, ∀ b ∈ ms, a.fm.cloneId = b.fm.cloneId := by
  rw [size_cloneIdCounts, List.length_eq_one_iff] at h
  rcases h with ⟨id, hid⟩
  have hall : ∀ a ∈ ms, a.fm.cloneId = id := by
    intro a ha
    have hmem : a.fm.cloneId ∈ (ms.map fun m => m.fm.cloneId).dedup :=
      List.mem_dedup.mpr (List.mem_map_of_mem ha)
    simpa [hid] using hmem
  intro a ha b hb
  rw [hall a ha, hall b hb]

theorem size_cloneIdCounts_of_all_eq {ms : List Member} (hne : ms ≠ [])
    (h : ∀ a ∈ ms, ∀ b ∈ ms, a.fm.cloneId = b.fm.cloneId) : (cloneIdCounts ms).size = 1 := by
  rcases List.exists_mem_of_ne_nil ms hne with ⟨m, hm⟩
  rw [size_cloneIdCounts, List.length_eq_one_iff]
  refine ⟨m.fm.cloneId, ?_⟩
  apply List.perm_singleton.mp
  rw [List.perm_ext_iff_of_nodup (List.nodup_dedup _) (List.nodup_singleton _)]
  intro id
  rw [List.mem_dedup, List.mem_map, List.mem_singleton]
  constructor
  · rintro ⟨other, hother, rfl⟩
    exact h other hother m hm
  · rintro rfl
    exact ⟨m, hm, rfl⟩

/-- As many nodes as elements: the clone ids are pairwise distinct. -/
theorem size_cloneIdCounts_eq_length_iff (ms : List Member) :
    (cloneIdCounts ms).size = ms.length ↔ (ms.map fun m => m.fm.cloneId).Nodup := by
  rw [size_cloneIdCounts]
  constructor
  · intro h
    rw [← List.dedup_eq_self]
    exact (List.dedup_sublist _).eq_of_length (by simpa using h)
  · intro h
    rw [List.Nodup.dedup h, List.length_map]

/-- What the choice is: the element of most links; or else nothing, where all clone ids are equal;
or the first uncompressed element, where they all differ; or the element of most clones. -/
inductive Chosen (ms : List Member) : Selection → Prop where
  | mostHardlinks (m : Member) (mem : m ∈ ms) (linked : 1 < m.fm.nlink)
      (most : ∀ other ∈ ms, other.fm.nlink ≤ m.fm.nlink) : Chosen ms (.origin m .mostHardlinks)
  | alreadyCloned (single : ∀ m ∈ ms, m.fm.nlink ≤ 1)
      (same : ∀ a ∈ ms, ∀ b ∈ ms, a.fm.cloneId = b.fm.cloneId) : Chosen ms .alreadyCloned
  | firstSeen (m : Member) (single : ∀ m ∈ ms, m.fm.nlink ≤ 1)
      (distinct : (ms.map fun m => m.fm.cloneId).Nodup) (several : ms.length ≠ 1)
      (first : (ms.find? fun m => !m.fm.compressed) = some m) : Chosen ms (.origin m .firstSeen)
  | allCompressed (single : ∀ m ∈ ms, m.fm.nlink ≤ 1)
      (distinct : (ms.map fun m => m.fm.cloneId).Nodup)
      (compressed : ∀ m ∈ ms, m.fm.compressed = true) : Chosen ms .allCompressed
  | mostClones (m : Member) (single : ∀ m ∈ ms, m.fm.nlink ≤ 1)
      (several : 2 ≤ idCount ms m.fm.cloneId)
      (differ : ∃ a ∈ ms, ∃ b ∈ ms, a.fm.cloneId ≠ b.fm.cloneId)
      (first : (ms.find? fun other => other.fm.cloneId = m.fm.cloneId) = some m)
      (most : ∀ other ∈ ms, idCount ms other.fm.cloneId < idCount ms m.fm.cloneId ∨
        (idCount ms other.fm.cloneId = idCount ms m.fm.cloneId ∧
          m.fm.cloneId ≤ other.fm.cloneId)) : Chosen ms (.origin m .mostClones)

/-- Every element whose clone id is not the only one of its kind is counted twice. -/
theorem two_le_idCount {ms : List Member} (h : ¬(ms.map fun m => m.fm.cloneId).Nodup) :
    ∃ m ∈ ms, 2 ≤ idCount ms m.fm.cloneId := by
  rw [List.nodup_iff_count_le_one] at h
  push Not at h
  rcases h with ⟨id, hid⟩
  have hcount : (ms.map fun m => m.fm.cloneId).count id = idCount ms id := by
    rw [List.count, List.countP_map, idCount]
    congr 1
  have hmem : id ∈ ms.map fun m => m.fm.cloneId := List.count_pos_iff.mp (by omega)
  rcases List.mem_map.mp hmem with ⟨m, hm, rfl⟩
  exact ⟨m, hm, by omega⟩

/-- The choice meets its description. -/
theorem selectOrigin_chosen (ms : List Member) : Chosen ms (selectOrigin ms) := by
  unfold selectOrigin
  cases hlinks : mostHardlinks ms with
  | some m =>
      rw [mostHardlinks_eq] at hlinks
      have hpos := (firstGreatest_split hlinks).1
      refine .mostHardlinks m (mem_of_firstGreatest hlinks) (by omega) fun other hmem => ?_
      have hle := firstGreatest_greatest hlinks other hmem
      omega
  | none =>
      rw [mostHardlinks_eq, firstGreatest_eq_none_iff] at hlinks
      have single : ∀ m ∈ ms, m.fm.nlink ≤ 1 := fun m hm => Nat.sub_eq_zero_iff_le.mp (hlinks m hm)
      simp only
      split
      · rename_i hone
        exact .alreadyCloned single (size_cloneIdCounts_eq_one hone)
      · rename_i hone
        split
        · rename_i hlength
          have distinct := (size_cloneIdCounts_eq_length_iff ms).mp hlength
          cases hfind : ms.find? fun m => !m.fm.compressed with
          | some m => exact .firstSeen m single distinct (by omega) hfind
          | none => exact .allCompressed single distinct (by simpa using hfind)
        · rename_i hlength
          have hrepeat := mt (size_cloneIdCounts_eq_length_iff ms).mpr hlength
          rcases two_le_idCount hrepeat with ⟨twice, htwice, hcount⟩
          cases hmax : cloneIdTreeMax (cloneIdCounts ms) with
          | none =>
              rw [cloneIdTreeMax_eq, Option.map_eq_none_iff, firstGreatest_eq_none_iff] at hmax
              have hget : (cloneIdCounts ms)[twice.fm.cloneId]? ≠ none := by
                rw [show cloneIdCounts ms = tally (fun other => other.fm.cloneId) ms from rfl,
                  getElem?_tally]
                simp only [ne_eq, Option.map_eq_none_iff, List.find?_eq_none]
                intro hnone
                exact hnone twice htwice (by simp)
              rcases Option.ne_none_iff_exists'.mp hget with ⟨node, hnode⟩
              have hzero := hmax _ (TreeMap.mem_toList_iff_getElem?_eq_some.mpr hnode)
              rw [show cloneIdCounts ms = tally (fun other => other.fm.cloneId) ms from rfl,
                getElem?_tally, Option.map_eq_some_iff] at hnode
              rcases hnode with ⟨first, _, rfl⟩
              have hsame : idCount ms twice.fm.cloneId = 0 := hzero
              omega
          | some m =>
              rcases cloneIdTreeMax_spec hmax with ⟨first, most⟩
              have several : 2 ≤ idCount ms m.fm.cloneId := by
                rcases most twice htwice with hlt | ⟨heq, _⟩ <;> omega
              refine .mostClones m single several ?_ first most
              by_contra hsame
              push Not at hsame
              have hne : ms ≠ [] := List.ne_nil_of_mem htwice
              exact hone (size_cloneIdCounts_of_all_eq hne hsame)

/-- The origin is an element of the list. -/
theorem mem_of_selectOrigin {ms : List Member} {m : Member} {reason : Reason}
    (h : selectOrigin ms = .origin m reason) : m ∈ ms := by
  have hchosen := h ▸ selectOrigin_chosen ms
  cases hchosen with
  | mostHardlinks _ mem => exact mem
  | firstSeen _ _ _ _ first => exact List.mem_of_find?_eq_some first
  | mostClones _ _ _ _ first => exact List.mem_of_find?_eq_some first

/-! ### The choice over all orders of a list -/

/-- The record of the origin, if there is one. -/
def Selection.record : Selection → Option FileMetadata
  | .origin m _ => some m.fm
  | _ => none

/-- The origin of a metadata list. -/
def originRecord (list : List FileMetadata) : Option FileMetadata :=
  (selectOrigin (members list)).record

/-- How many records have a clone id. -/
def cloneCount (list : List FileMetadata) (id : Nat) : Nat :=
  list.countP fun fm => fm.cloneId = id

/-- The origins that the orders of a list can give. -/
inductive PossibleOrigin (list : List FileMetadata) : Option FileMetadata → Prop where
  | mostHardlinks (fm : FileMetadata) (mem : fm ∈ list) (linked : 1 < fm.nlink)
      (most : ∀ other ∈ list, other.nlink ≤ fm.nlink) : PossibleOrigin list (some fm)
  | alreadyCloned (single : ∀ fm ∈ list, fm.nlink ≤ 1)
      (same : ∀ a ∈ list, ∀ b ∈ list, a.cloneId = b.cloneId) : PossibleOrigin list none
  | firstSeen (fm : FileMetadata) (mem : fm ∈ list) (single : ∀ fm ∈ list, fm.nlink ≤ 1)
      (distinct : (list.map FileMetadata.cloneId).Nodup) (several : list.length ≠ 1)
      (uncompressed : fm.compressed = false) : PossibleOrigin list (some fm)
  | allCompressed (single : ∀ fm ∈ list, fm.nlink ≤ 1)
      (distinct : (list.map FileMetadata.cloneId).Nodup)
      (compressed : ∀ fm ∈ list, fm.compressed = true) : PossibleOrigin list none
  | mostClones (fm : FileMetadata) (mem : fm ∈ list) (single : ∀ fm ∈ list, fm.nlink ≤ 1)
      (several : 2 ≤ cloneCount list fm.cloneId)
      (differ : ∃ a ∈ list, ∃ b ∈ list, a.cloneId ≠ b.cloneId)
      (most : ∀ other ∈ list, cloneCount list other.cloneId < cloneCount list fm.cloneId ∨
        (cloneCount list other.cloneId = cloneCount list fm.cloneId ∧
          fm.cloneId ≤ other.cloneId)) : PossibleOrigin list (some fm)

/-- The possible origins do not depend on the order. -/
theorem PossibleOrigin.perm {list list' : List FileMetadata} {origin : Option FileMetadata}
    (h : PossibleOrigin list origin) (hperm : list.Perm list') : PossibleOrigin list' origin := by
  have hmem : ∀ {fm}, fm ∈ list' ↔ fm ∈ list := hperm.symm.mem_iff
  have hcount : ∀ id, cloneCount list' id = cloneCount list id := fun id =>
    (hperm.countP_eq _).symm
  cases h with
  | mostHardlinks fm mem linked most =>
      exact .mostHardlinks fm (hmem.mpr mem) linked fun other h => most other (hmem.mp h)
  | alreadyCloned single same =>
      exact .alreadyCloned (fun fm h => single fm (hmem.mp h))
        fun a ha b hb => same a (hmem.mp ha) b (hmem.mp hb)
  | firstSeen fm mem single distinct several uncompressed =>
      exact .firstSeen fm (hmem.mpr mem) (fun fm h => single fm (hmem.mp h))
        ((hperm.map _).nodup_iff.mp distinct) (hperm.length_eq ▸ several) uncompressed
  | allCompressed single distinct compressed =>
      exact .allCompressed (fun fm h => single fm (hmem.mp h))
        ((hperm.map _).nodup_iff.mp distinct) fun fm h => compressed fm (hmem.mp h)
  | mostClones fm mem single several differ most =>
      refine .mostClones fm (hmem.mpr mem) (fun fm h => single fm (hmem.mp h))
        (by rwa [hcount]) ?_ fun other h => ?_
      · rcases differ with ⟨a, ha, b, hb, hne⟩
        exact ⟨a, hmem.mpr ha, b, hmem.mpr hb, hne⟩
      · rw [hcount, hcount]
        exact most other (hmem.mp h)

/-- An origin is a file of the list. -/
theorem PossibleOrigin.mem {list : List FileMetadata} {fm : FileMetadata}
    (h : PossibleOrigin list (some fm)) : fm ∈ list := by
  cases h <;> assumption

theorem mem_of_mem_members {list : List FileMetadata} {m : Member} (h : m ∈ members list) :
    m.fm ∈ list := by
  rw [← map_fm_members list]
  exact List.mem_map_of_mem h

theorem exists_member {list : List FileMetadata} {fm : FileMetadata} (h : fm ∈ list) :
    ∃ m ∈ members list, m.fm = fm := by
  rw [← map_fm_members list] at h
  exact List.mem_map.mp h

/-- What holds of every record holds of the members' records. -/
theorem forall_members {list : List FileMetadata} {P : FileMetadata → Prop}
    (h : ∀ fm ∈ list, P fm) : ∀ m ∈ members list, P m.fm :=
  fun _ hm => h _ (mem_of_mem_members hm)

/-- What holds of the members' records holds of every record. -/
theorem forall_records {list : List FileMetadata} {P : FileMetadata → Prop}
    (h : ∀ m ∈ members list, P m.fm) : ∀ fm ∈ list, P fm := by
  intro fm hfm
  rcases exists_member hfm with ⟨m, hm, rfl⟩
  exact h m hm

/-- The members of a list split where its records do. -/
theorem members_split {list before after : List FileMetadata} {fm : FileMetadata}
    (h : list = before ++ fm :: after) : ∃ msBefore m msAfter,
      members list = msBefore ++ m :: msAfter ∧ msBefore.map Member.fm = before ∧ m.fm = fm ∧
        msAfter.map Member.fm = after := by
  have hmap := map_fm_members list
  rw [h] at hmap
  obtain ⟨msBefore, msRest, hms, hbefore, hrest⟩ := List.map_eq_append_iff.mp hmap
  obtain ⟨m, msAfter, rfl, hm, hafter⟩ := List.map_eq_cons_iff.mp hrest
  rw [← h] at hms
  exact ⟨msBefore, m, msAfter, hms, hbefore, hm, hafter⟩

/-- An origin was chosen as a member, for a reason. -/
theorem exists_selection {list : List FileMetadata} {fm : FileMetadata}
    (h : originRecord list = some fm) :
    ∃ m reason, selectOrigin (members list) = .origin m reason ∧ m.fm = fm := by
  unfold originRecord at h
  cases hselection : selectOrigin (members list) with
  | origin m reason => exact ⟨m, reason, rfl, by simpa [hselection, Selection.record] using h⟩
  | alreadyCloned => simp [hselection, Selection.record] at h
  | allCompressed => simp [hselection, Selection.record] at h

theorem map_cloneId_members (list : List FileMetadata) :
    ((members list).map fun m => m.fm.cloneId) = list.map FileMetadata.cloneId := by
  conv_rhs => rw [← map_fm_members list, List.map_map]
  rfl

theorem idCount_members (list : List FileMetadata) (id : Nat) :
    idCount (members list) id = cloneCount list id := by
  conv_rhs => rw [← map_fm_members list, cloneCount, List.countP_map]
  rfl

theorem length_members (list : List FileMetadata) : (members list).length = list.length := by
  simp [members]

theorem nodup_members (list : List FileMetadata) : (members list).Nodup := by
  apply List.Nodup.of_map Member.index
  have hindex : (members list).map Member.index = List.range' 0 list.length := by
    rw [members, List.map_map, ← List.zipIdx_map_snd 0 list]
    rfl
  rw [hindex]
  exact List.nodup_range'

/-- The origin of a list is a possible one. -/
theorem possibleOrigin_originRecord (list : List FileMetadata) :
    PossibleOrigin list (originRecord list) := by
  unfold originRecord
  have hchosen := selectOrigin_chosen (members list)
  generalize selectOrigin (members list) = selection at hchosen
  cases hchosen with
  | mostHardlinks m mem linked most =>
      exact .mostHardlinks m.fm (mem_of_mem_members mem) linked (forall_records most)
  | alreadyCloned single same =>
      exact .alreadyCloned (forall_records single)
        (forall_records fun a ha => forall_records fun b hb => same a ha b hb)
  | firstSeen m single distinct several first =>
      have hfound := List.find?_some first
      exact .firstSeen m.fm (mem_of_mem_members (List.mem_of_find?_eq_some first)) (forall_records single)
        (map_cloneId_members list ▸ distinct) (length_members list ▸ several)
        (by simpa using hfound)
  | allCompressed single distinct compressed =>
      exact .allCompressed (forall_records single) (map_cloneId_members list ▸ distinct)
        (forall_records compressed)
  | mostClones m single several differ first most =>
      rcases differ with ⟨a, ha, b, hb, hne⟩
      rw [idCount_members] at several
      simp only [idCount_members] at most
      exact .mostClones m.fm (mem_of_mem_members (List.mem_of_find?_eq_some first))
        (forall_records single) several ⟨a.fm, mem_of_mem_members ha, b.fm, mem_of_mem_members hb, hne⟩
        (forall_records most)

/-- Distinct clone ids occur once. -/
theorem cloneCount_le_one {list : List FileMetadata}
    (distinct : (list.map FileMetadata.cloneId).Nodup) (id : Nat) : cloneCount list id ≤ 1 := by
  have hcount := List.nodup_iff_count_le_one.mp distinct id
  rwa [List.count, List.countP_map] at hcount

/-- Whether there is an origin does not depend on the order. -/
theorem PossibleOrigin.not_none {list : List FileMetadata} {fm : FileMetadata}
    (h : PossibleOrigin list (some fm)) : ¬PossibleOrigin list none := by
  intro hnone
  have hmem := h.mem
  cases hnone with
  | alreadyCloned single same =>
      cases h with
      | mostHardlinks _ _ linked =>
          have hle := single fm hmem
          omega
      | firstSeen _ _ _ distinct several =>
          match list with
          | [] => simp at hmem
          | [_] => simp at several
          | a :: b :: rest =>
              have heq := same a (by simp) b (by simp)
              simp [heq] at distinct
      | mostClones _ _ _ _ differ =>
          rcases differ with ⟨a, ha, b, hb, hne⟩
          exact hne (same a ha b hb)
  | allCompressed single distinct compressed =>
      cases h with
      | mostHardlinks _ _ linked =>
          have hle := single fm hmem
          omega
      | firstSeen _ _ _ _ _ uncompressed => simp [compressed fm hmem] at uncompressed
      | mostClones _ _ _ several =>
          have hle := cloneCount_le_one distinct fm.cloneId
          omega

/-- Two origins of one list are both of most hard links, or both uncompressed among single-link
files of distinct clone ids, or clones of each other. -/
theorem PossibleOrigin.same_rule {list : List FileMetadata} {a b : FileMetadata}
    (ha : PossibleOrigin list (some a)) (hb : PossibleOrigin list (some b)) :
    (1 < a.nlink ∧ (∀ other ∈ list, other.nlink ≤ a.nlink) ∧ b.nlink = a.nlink) ∨
      ((∀ fm ∈ list, fm.nlink ≤ 1) ∧ (list.map FileMetadata.cloneId).Nodup ∧
        a.compressed = false ∧ b.compressed = false) ∨
      a.cloneId = b.cloneId := by
  have hmemA := ha.mem
  have hmemB := hb.mem
  cases ha with
  | mostHardlinks _ _ linkedA mostA =>
      cases hb with
      | mostHardlinks _ _ _ mostB =>
          exact .inl ⟨linkedA, mostA, le_antisymm (mostA b hmemB) (mostB a hmemA)⟩
      | firstSeen _ _ single =>
          have hle := single a hmemA
          omega
      | mostClones _ _ single =>
          have hle := single a hmemA
          omega
  | firstSeen _ _ single distinct _ uncompressedA =>
      cases hb with
      | mostHardlinks _ _ linkedB =>
          have hle := single b hmemB
          omega
      | firstSeen _ _ _ _ _ uncompressedB =>
          exact .inr (.inl ⟨single, distinct, uncompressedA, uncompressedB⟩)
      | mostClones _ _ _ several =>
          have hle := cloneCount_le_one distinct b.cloneId
          omega
  | mostClones _ _ single several _ mostA =>
      cases hb with
      | mostHardlinks _ _ linkedB =>
          have hle := single b hmemB
          omega
      | firstSeen _ _ _ distinct =>
          have hle := cloneCount_le_one distinct a.cloneId
          omega
      | mostClones _ _ _ _ _ mostB =>
          have hleA := mostA b hmemB
          have hleB := mostB a hmemA
          right
          right
          omega

/-- The origin of a list is in the list. -/
theorem mem_of_originRecord {list : List FileMetadata} {fm : FileMetadata}
    (h : originRecord list = some fm) : fm ∈ list :=
  (h ▸ possibleOrigin_originRecord list).mem

/-- The members of a list with a first record. -/
theorem members_cons (fm : FileMetadata) (rest : List FileMetadata) :
    members (fm :: rest) = { index := 0, fm := fm } ::
      (rest.zipIdx 1).map fun item => { index := item.2, fm := item.1 } := by
  simp [members]

/-- The first record of most links, above one, is the origin. -/
theorem originRecord_of_firstLinked {before after : List FileMetadata} {fm : FileMetadata}
    (linked : 1 < fm.nlink) (hbefore : ∀ other ∈ before, other.nlink < fm.nlink)
    (hafter : ∀ other ∈ after, other.nlink ≤ fm.nlink) :
    originRecord (before ++ fm :: after) = some fm := by
  obtain ⟨msBefore, m, msAfter, hms, rfl, rfl, rfl⟩ := members_split (Eq.refl (before ++ fm :: after))
  have hscan : mostHardlinks (members (msBefore.map Member.fm ++ m.fm :: msAfter.map Member.fm)) =
      some m := by
    rw [mostHardlinks_eq, firstGreatest_eq_some_iff]
    refine ⟨Nat.sub_pos_of_lt linked, msBefore, msAfter, hms, fun other hmem => ?_,
      fun other hmem => ?_⟩
    · have hlt := hbefore other.fm (List.mem_map_of_mem hmem)
      omega
    · exact Nat.sub_le_sub_right (hafter other.fm (List.mem_map_of_mem hmem)) 1
  simp [originRecord, selectOrigin, hscan, Selection.record]

/-- The element of most links that comes first is the origin. -/
theorem originRecord_of_linked {fm : FileMetadata} {rest : List FileMetadata}
    (linked : 1 < fm.nlink) (most : ∀ other ∈ fm :: rest, other.nlink ≤ fm.nlink) :
    originRecord (fm :: rest) = some fm :=
  originRecord_of_firstLinked linked (List.forall_mem_nil _)
    fun other hmem => most other (List.mem_cons_of_mem _ hmem)

theorem head_mem_members (fm : FileMetadata) (rest : List FileMetadata) :
    { index := 0, fm := fm } ∈ members (fm :: rest) := by
  rw [members_cons]
  exact List.mem_cons_self

/-- Among single-link files of distinct clone ids, an uncompressed one that comes first is the
origin. -/
theorem originRecord_of_distinct {fm : FileMetadata} {rest : List FileMetadata}
    (single : ∀ other ∈ fm :: rest, other.nlink ≤ 1)
    (distinct : ((fm :: rest).map FileMetadata.cloneId).Nodup)
    (several : (fm :: rest).length ≠ 1) (uncompressed : fm.compressed = false) :
    originRecord (fm :: rest) = some fm := by
  unfold originRecord
  have hfirst := head_mem_members fm rest
  have hactual := selectOrigin_chosen (members (fm :: rest))
  generalize selectOrigin (members (fm :: rest)) = selection at hactual
  cases hactual with
  | mostHardlinks m mem linked =>
      have hle := single m.fm (mem_of_mem_members mem)
      omega
  | alreadyCloned _ same =>
      -- two elements of one clone id
      match rest with
      | [] => simp at several
      | other :: rest =>
          have hmem : other ∈ fm :: other :: rest := by simp
          rcases exists_member hmem with ⟨m, hm, hother⟩
          have heq := same _ hfirst m hm
          simp [hother] at heq
          simp [heq] at distinct
  | firstSeen m _ _ _ first =>
      rw [members_cons, List.find?_cons_of_pos (by simpa using uncompressed)] at first
      obtain rfl := Option.some.inj first
      rfl
  | allCompressed _ _ compressed =>
      have hcompressed := compressed _ hfirst
      simp [uncompressed] at hcompressed
  | mostClones m _ twice =>
      rw [idCount_members] at twice
      have hle := cloneCount_le_one distinct m.fm.cloneId
      omega

/-- Among single-link files, one of most clones that comes first is the origin. -/
theorem originRecord_of_mostClones {fm : FileMetadata} {rest : List FileMetadata}
    (single : ∀ other ∈ fm :: rest, other.nlink ≤ 1)
    (several : 2 ≤ cloneCount (fm :: rest) fm.cloneId)
    (differ : ∃ a ∈ fm :: rest, ∃ b ∈ fm :: rest, a.cloneId ≠ b.cloneId)
    (most : ∀ other ∈ fm :: rest,
      cloneCount (fm :: rest) other.cloneId < cloneCount (fm :: rest) fm.cloneId ∨
        (cloneCount (fm :: rest) other.cloneId = cloneCount (fm :: rest) fm.cloneId ∧
          fm.cloneId ≤ other.cloneId)) :
    originRecord (fm :: rest) = some fm := by
  unfold originRecord
  have hactual := selectOrigin_chosen (members (fm :: rest))
  generalize selectOrigin (members (fm :: rest)) = selection at hactual
  cases hactual with
  | mostHardlinks m mem linked =>
      have hle := single m.fm (mem_of_mem_members mem)
      omega
  | alreadyCloned _ same =>
      rcases differ with ⟨a, ha, b, hb, hne⟩
      rcases exists_member ha with ⟨m, hm, rfl⟩
      rcases exists_member hb with ⟨m', hm', rfl⟩
      exact absurd (same m hm m' hm') hne
  | firstSeen m _ distinct =>
      rw [map_cloneId_members] at distinct
      have hle := cloneCount_le_one distinct fm.cloneId
      omega
  | allCompressed _ distinct =>
      rw [map_cloneId_members] at distinct
      have hle := cloneCount_le_one distinct fm.cloneId
      omega
  | mostClones m _ _ _ first most' =>
      simp only [idCount_members] at most'
      have hm := List.mem_of_find?_eq_some first
      have hid : m.fm.cloneId = fm.cloneId := by
        have hle := most m.fm (mem_of_mem_members hm)
        have hle' := most' _ (head_mem_members fm rest)
        simp only at hle'
        omega
      rw [members_cons, List.find?_cons_of_pos (by simp [hid])] at first
      obtain rfl := Option.some.inj first
      rfl

/-- A possible origin that comes first is the origin. -/
theorem originRecord_of_head {fm : FileMetadata} {rest : List FileMetadata}
    (h : PossibleOrigin (fm :: rest) (some fm)) : originRecord (fm :: rest) = some fm := by
  cases h with
  | mostHardlinks _ _ linked most => exact originRecord_of_linked linked most
  | firstSeen _ _ single distinct several uncompressed =>
      exact originRecord_of_distinct single distinct several uncompressed
  | mostClones _ _ single several differ most =>
      exact originRecord_of_mostClones single several differ most

/-- The possible origins are the origins of the orders. -/
theorem possibleOrigin_iff (list : List FileMetadata) (fm : FileMetadata) :
    PossibleOrigin list (some fm) ↔
      ∃ order : List FileMetadata, order.Perm list ∧ originRecord order = some fm := by
  constructor
  · intro h
    have hperm : (fm :: list.erase fm).Perm list := (List.perm_cons_erase h.mem).symm
    exact ⟨_, hperm, originRecord_of_head (h.perm hperm.symm)⟩
  · rintro ⟨order, hperm, horigin⟩
    exact (horigin ▸ possibleOrigin_originRecord order).perm hperm

end Dedup
