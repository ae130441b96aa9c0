/-
Module: Dedup.ListOwnership
Purpose: Who owns the blocks of a list of records: its header, its elements, and the records that
  were added to it.  A list on the heap runs as the list of `alist.c` over slots does, so what is
  known of the one is known of the other; a loop over its elements goes through the pointers that
  the list holds, and the addresses tell the elements apart as their positions do.
Imports: Dedup.OriginSelection, Dedup.RecordOwnership
Trusted boundary: none
Main exports: AListAt, AListAt.members, AListAt.addrOf, alistAdd_runs, alistAdd_spec,
  freeItems_spec, forElements_spec, forElements_fold, printDuplicates_spec
-/
import Dedup.OriginSelection
import Dedup.RecordOwnership

namespace Dedup.ScanMemory

open Heap IntrusiveTree

/-! ### Lists on the heap -/

/-- The blocks of a list: its header and its elements. -/
def listCells (addr elements : Addr) (stored : AList (Option Addr)) : Multiset Cell :=
  (addr, .alist stored.size stored.capacity elements) ::ₘ {(elements, .elements stored.elements)}

section Lists

variable {addr elements : Addr} {stored : AList (Option Addr)}

theorem header_mem :
    (addr, .alist stored.size stored.capacity elements) ∈ listCells addr elements stored :=
  Multiset.mem_cons_self _ _

theorem elements_mem : (elements, .elements stored.elements) ∈ listCells addr elements stored :=
  Multiset.mem_cons_of_mem (Multiset.mem_singleton_self _)

theorem newAlistWithCapacity_spec (initial : Nat) :
    Triple 0 (newAlistWithCapacity initial) fun result cells =>
      ∃ elements, cells = listCells result elements (Dedup.newAlistWithCapacity initial) := by
  refine Triple.malloc_then fun elements => ?_
  refine (Triple.malloc _).weaken ?_
  rintro result _ rfl
  exact ⟨elements, rfl⟩

theorem reallocElements_spec (slots : Slots.Block (Option Addr)) (n : Nat) :
    Triple {(elements, .elements slots)} (reallocElements elements n) fun moved cells =>
      cells = {(moved, .elements (Slots.resize slots n))} := by
  refine Triple.loadAs_then (Multiset.mem_singleton_self _) rfl ?_
  refine Triple.malloc_then fun moved => ?_
  exact Triple.free_then (Multiset.cons_swap _ _ 0) (Triple.pure rfl)

/-- `alist_ensure` on the heap runs as it does over slots; the elements may move. -/
theorem alistEnsure_runs (addr elements : Addr) {fuel required : Nat} {grown : AList (Option Addr)}
    (h : Dedup.alistEnsure fuel stored required = .ok grown) :
    Triple (listCells addr elements stored) (alistEnsure addr required fuel) fun _ cells =>
      ∃ elements', cells = listCells addr elements' grown := by
  induction fuel generalizing stored elements with
  | zero => cases h
  | succ fuel ih =>
      refine Triple.loadAs_then header_mem rfl ?_
      simp only [Dedup.alistEnsure] at h
      by_cases hshort : stored.capacity < required
      · rw [if_pos hshort] at h
        simp only [if_pos hshort]
        refine (reallocElements_spec stored.elements (stored.capacity * 2)).call
          {(addr, .alist stored.size stored.capacity elements)} ?_ ?_
        · rw [listCells, Multiset.singleton_add]
          exact Multiset.cons_swap _ _ 0
        · rintro moved _ rfl
          rw [add_comm, Multiset.singleton_add]
          exact Triple.store_then rfl (ih moved h)
      · rw [if_neg hshort] at h
        simp only [if_neg hshort]
        cases h
        exact Triple.pure ⟨elements, rfl⟩

/-- A write that succeeds over slots succeeds in the block of the elements. -/
theorem writeElement_runs (addr elements : Addr) {index : Nat} {item : Option Addr}
    {slots : Slots.Block (Option Addr)}
    (h : Slots.write stored.elements index item = .ok slots) :
    Triple (listCells addr elements stored) (writeElement elements index item) fun _ cells =>
      cells = listCells addr elements { stored with elements := slots } := by
  refine Triple.loadAs_then elements_mem rfl ?_
  rw [h]
  refine (Triple.store _ (Multiset.cons_swap _ _ 0)).weaken ?_
  rintro _ _ rfl
  exact Multiset.cons_swap _ _ 0

theorem alistSize_spec :
    Triple (listCells addr elements stored) (alistSize addr) fun result cells =>
      result = stored.size ∧ cells = listCells addr elements stored :=
  Triple.loadAs_then header_mem rfl (Triple.pure ⟨rfl, rfl⟩)

/-- `alist_add` on the heap runs as it does over slots. -/
theorem alistAdd_runs (addr elements : Addr) {fuel : Nat} {item : Option Addr}
    {added : AList (Option Addr)}
    (h : Dedup.alistAdd fuel stored item = .ok added) :
    Triple (listCells addr elements stored) (alistAdd fuel addr item) fun _ cells =>
      ∃ elements', cells = listCells addr elements' added := by
  cases hensure : Dedup.alistEnsure fuel stored (stored.size + 1) with
  | error fault => simp [Dedup.alistAdd, hensure, bind, Except.bind] at h
  | ok grown =>
      cases hwrite : Slots.write grown.elements grown.size item with
      | error fault => simp [Dedup.alistAdd, hensure, hwrite, bind, Except.bind] at h
      | ok slots =>
          have hadded : added = { grown with elements := slots, size := grown.size + 1 } := by
            simp only [Dedup.alistAdd, hensure, hwrite, bind, Except.bind] at h
            exact (Except.ok.inj h).symm
          subst hadded
          refine alistSize_spec.bind ?_
          rintro _ _ ⟨rfl, rfl⟩
          refine (alistEnsure_runs addr elements hensure).bind ?_
          rintro _ _ ⟨elements', rfl⟩
          refine Triple.loadAs_then header_mem rfl ?_
          refine (writeElement_runs addr elements' hwrite).bind ?_
          rintro _ _ rfl
          refine (Triple.store _ rfl).weaken ?_
          rintro _ _ rfl
          exact ⟨elements', rfl⟩

/-- `alist_get` in range reads the element. -/
theorem alistGet_runs (addr elements : Addr) {index : Nat} {item : Option Addr}
    (h : Dedup.alistGet stored index = .ok (some item)) :
    Triple (listCells addr elements stored) (alistGet addr index) fun result cells =>
      result = item ∧ cells = listCells addr elements stored := by
  refine Triple.loadAs_then header_mem rfl ?_
  by_cases hout : index ≥ stored.size
  · simp [Dedup.alistGet, hout] at h
  · simp only [Dedup.alistGet, if_neg hout] at h
    simp only [if_neg hout]
    refine Triple.loadAs_then elements_mem rfl ?_
    cases hread : Slots.read stored.elements index with
    | error fault => simp [hread, bind, Except.bind] at h
    | ok value =>
        simp only [hread, bind, Except.bind] at h
        cases h
        exact Triple.pure ⟨rfl, rfl⟩

/-- `alist_set` in range writes the element. -/
theorem alistSet_runs (addr elements : Addr) {index : Nat} {item : Option Addr}
    {updated : AList (Option Addr)}
    (h : Dedup.alistSet stored index item = .ok updated) :
    Triple (listCells addr elements stored) (alistSet addr index item) fun _ cells =>
      cells = listCells addr elements updated := by
  refine Triple.loadAs_then header_mem rfl ?_
  by_cases hout : index ≥ stored.size
  · simp only [Dedup.alistSet, if_pos hout] at h
    simp only [if_pos hout]
    cases h
    exact Triple.pure rfl
  · simp only [Dedup.alistSet, if_neg hout] at h
    simp only [if_neg hout]
    cases hwrite : Slots.write stored.elements index item with
    | error fault => simp [hwrite, bind, Except.bind] at h
    | ok slots =>
        simp only [hwrite, bind, Except.bind] at h
        cases h
        exact writeElement_runs addr elements hwrite

theorem freeAlist_spec :
    Triple (listCells addr elements stored) (freeAlist addr) fun _ cells => cells = 0 := by
  refine Triple.loadAs_then header_mem rfl ?_
  exact Triple.free_then (Multiset.cons_swap _ _ 0) (Triple.free rfl)

end Lists

/-! ### Lists of records -/

/-- A list on the heap with the records it owns. -/
structure AListAt where
  addr : Addr
  elements : Addr
  stored : AList (Option Addr)
  items : List HeldRecord
  represents : Represents stored (items.map fun item => some item.addr)

/-- The blocks of records. -/
def itemCells (items : List HeldRecord) : Multiset Cell :=
  (items.map HeldRecord.cells).sum

def AListAt.cells (list : AListAt) : Multiset Cell :=
  listCells list.addr list.elements list.stored + itemCells list.items

/-- The records a list stands for. -/
def AListAt.fms (list : AListAt) : List FileMetadata :=
  list.items.map HeldRecord.fm

/-- `alist_add` of a record hands it over to the list. -/
theorem alistAdd_spec (list : AListAt) (held : HeldRecord) :
    Triple (list.cells + held.cells) (alistAdd 2 list.addr (some held.addr)) fun _ cells =>
      ∃ list' : AListAt, list'.addr = list.addr ∧ list'.items = list.items ++ [held] ∧
        cells = list'.cells := by
  obtain ⟨added, hadd, hrepresents⟩ := Dedup.alistAdd_spec list.represents (some held.addr)
  refine (alistAdd_runs list.addr list.elements hadd).last (itemCells list.items + held.cells) ?_ ?_
  · rw [AListAt.cells]
    abel
  · rintro _ _ ⟨elements', rfl⟩
    refine ⟨⟨list.addr, elements', added, list.items ++ [held], by simpa using hrepresents⟩, rfl,
      rfl, ?_⟩
    simp only [AListAt.cells, itemCells, List.map_append, List.map_cons, List.map_nil,
      List.sum_append, List.sum_cons, List.sum_nil]
    abel

/-- The loop that gives the records back has passed the items in front, and frees the others. -/
theorem freeItems_spec (addr elements : Addr) {stored : AList (Option Addr)} {fuel done : Nat}
    {items : List HeldRecord}
    (h : Represents stored (List.replicate done none ++ items.map fun item => some item.addr))
    (hfuel : items.length < fuel) :
    Triple (listCells addr elements stored + itemCells items) (freeItems addr done fuel)
      fun _ cells => ∃ stored', cells = listCells addr elements stored' := by
  induction fuel generalizing stored done items with
  | zero => exact absurd hfuel (Nat.not_lt_zero _)
  | succ fuel ih =>
      refine alistSize_spec.call (itemCells items) rfl ?_
      rintro _ _ ⟨rfl, rfl⟩
      have hsize := h.size_eq
      rw [List.length_append, List.length_replicate, List.length_map] at hsize
      cases items with
      | nil =>
          rw [if_neg (by simp [hsize])]
          exact Triple.pure ⟨stored, add_zero _⟩
      | cons item items =>
          rw [if_pos (by simp [hsize])]
          have hget := alistGet_spec h done
          rw [List.getElem?_append_right (by simp)] at hget
          simp only [List.length_replicate, Nat.sub_self, List.map_cons,
            List.getElem?_cons_zero] at hget
          refine (alistGet_runs addr elements hget).call (itemCells (item :: items)) rfl ?_
          rintro _ _ ⟨rfl, rfl⟩
          refine (freeMetadata_spec item).call (listCells addr elements stored + itemCells items)
            ?_ ?_
          · simp only [itemCells, List.map_cons, List.sum_cons]
            abel
          rintro _ _ rfl
          rw [zero_add]
          obtain ⟨updated, hset, hupdated⟩ := alistSet_spec h done none
          refine (alistSet_runs addr elements hset).call (itemCells items) rfl ?_
          rintro _ _ rfl
          refine ih ?_ (Nat.lt_of_succ_lt_succ hfuel)
          rw [List.set_append_right _ _ (by simp)] at hupdated
          simpa [List.replicate_succ'] using hupdated

theorem length_le_card (items : List HeldRecord) :
    items.length ≤ Multiset.card (itemCells items) := by
  induction items with
  | nil => exact Nat.zero_le _
  | cons item items ih =>
      simp only [itemCells, List.map_cons, List.sum_cons, Multiset.card_add, List.length_cons,
        HeldRecord.cells, Multiset.card_cons, Multiset.card_singleton] at ih ⊢
      omega

/-! ### Elements and their addresses -/

namespace AListAt

/-- The elements of a list, as the model tells them apart. -/
def members (list : AListAt) : List Member :=
  Dedup.members list.fms

/-- The pointer that the list holds for an element. -/
def addrOf (list : AListAt) (m : Member) : Addr :=
  ((list.items[m.index]?).map HeldRecord.addr).getD 0

variable {list : AListAt}

theorem length_members : list.members.length = list.items.length := by
  simp [members, Dedup.members, fms]

/-- An element is the record at its position. -/
theorem item_of_split {done rest : List Member} {m : Member}
    (hsplit : list.members = done ++ m :: rest) :
    ∃ held, list.items[done.length]? = some held ∧ m = { index := done.length, fm := held.fm } := by
  have hget : list.members[done.length]? = some m := by simp [hsplit]
  simp only [members, Dedup.members, fms, List.getElem?_map, List.getElem?_zipIdx,
    Option.map_map, Option.map_eq_some_iff] at hget
  obtain ⟨held, hheld, rfl⟩ := hget
  exact ⟨held, hheld, by simp⟩

/-- The record of an element, at its address. -/
theorem held_of_mem {m : Member} (hm : m ∈ list.members) :
    ∃ held, list.items[m.index]? = some held ∧ held.addr = list.addrOf m ∧ held.fm = m.fm := by
  obtain ⟨done, rest, hsplit⟩ := List.append_of_mem hm
  obtain ⟨held, hheld, rfl⟩ := item_of_split hsplit
  exact ⟨held, hheld, by simp [addrOf, hheld], rfl⟩

end AListAt

/-- The blocks of an item are among those of its list. -/
theorem cells_le_itemCells {items : List HeldRecord} {held : HeldRecord} (hmem : held ∈ items) :
    held.cells ≤ itemCells items := by
  obtain ⟨front, back, rfl⟩ := List.append_of_mem hmem
  simp only [itemCells, List.map_append, List.map_cons, List.sum_append, List.sum_cons]
  exact (Multiset.le_add_right _ _).trans (Multiset.le_add_left _ _)

section Elements

variable {list : AListAt} {pre : Multiset Cell}

/-- The record of an element is owned where its list is. -/
theorem held_of_owned (howned : list.cells ≤ pre) {m : Member} (hm : m ∈ list.members) :
    ∃ held : HeldRecord, held.cells ≤ pre ∧ held.addr = list.addrOf m ∧ held.fm = m.fm := by
  obtain ⟨held, hheld, haddr, hfm⟩ := AListAt.held_of_mem hm
  have hitem := cells_le_itemCells (List.mem_of_getElem? hheld)
  exact ⟨held, (hitem.trans (Multiset.le_add_left _ _)).trans howned, haddr, hfm⟩

/-- The record alone. -/
theorem loadRecord_then {γ : Type} {m : Member} {f : Record → Prog Block γ}
    {post : γ → Multiset Cell → Prop} (howned : list.cells ≤ pre) (hm : m ∈ list.members)
    (hf : ∀ path, Triple pre (f (recordOf m.fm path)) post) :
    Triple pre (loadAs Block.metadata? (list.addrOf m) >>= f) post := by
  obtain ⟨held, hcells, haddr, hfm⟩ := held_of_owned howned hm
  rw [← haddr]
  refine Triple.loadAs_then (Multiset.mem_of_le hcells held.mem_cells) rfl ?_
  rw [hfm]
  exact hf held.path

/-- The size of a list that is owned. -/
theorem alistSize_then {γ : Type} {f : Nat → Prog Block γ} {post : γ → Multiset Cell → Prop}
    (howned : list.cells ≤ pre) (hf : Triple pre (f list.members.length) post) :
    Triple pre (alistSize list.addr >>= f) post := by
  have hsize : list.stored.size = list.members.length := by
    rw [AListAt.length_members, list.represents.size_eq, List.length_map]
  obtain ⟨frame, rfl⟩ := Multiset.le_iff_exists_add.mp howned
  refine alistSize_spec.call (itemCells list.items + frame) (add_assoc _ _ _) ?_
  rintro _ _ ⟨rfl, rfl⟩
  rw [← add_assoc, hsize]
  exact hf

/-- The pointer to an element. -/
theorem alistGet_then {γ : Type} {f : Option Addr → Prog Block γ} {post : γ → Multiset Cell → Prop}
    (howned : list.cells ≤ pre) {done rest : List Member} {m : Member}
    (hsplit : list.members = done ++ m :: rest) (hf : Triple pre (f (some (list.addrOf m))) post) :
    Triple pre (alistGet list.addr done.length >>= f) post := by
  obtain ⟨held, hheld, rfl⟩ := AListAt.item_of_split hsplit
  have hget := alistGet_spec list.represents done.length
  rw [List.getElem?_map, hheld] at hget
  have haddr : list.addrOf { index := done.length, fm := held.fm } = held.addr := by
    simp [AListAt.addrOf, hheld]
  obtain ⟨frame, rfl⟩ := Multiset.le_iff_exists_add.mp howned
  refine (alistGet_runs list.addr list.elements hget).call (itemCells list.items + frame)
    (add_assoc _ _ _) ?_
  rintro _ _ ⟨rfl, rfl⟩
  rw [← add_assoc]
  rw [haddr] at hf
  exact hf

/-- The rule of loops over a list: `I` holds after the elements that were passed, and `Q` where the
body stops. -/
theorem forElements_spec (list : AListAt) {σ : Type} {body : σ → Addr → Prog Block (ForInStep σ)}
    {I : List Member → σ → Multiset Cell → Prop} {Q : σ → Multiset Cell → Prop}
    (howned : ∀ done locals cells, I done locals cells → list.cells ≤ cells)
    (hbody : ∀ done m rest, list.members = done ++ m :: rest → ∀ locals cells, I done locals cells →
      Triple cells (body locals (list.addrOf m)) fun result after =>
        match result with
        | .yield locals => I (done ++ [m]) locals after
        | .done locals => Q locals after)
    (hend : ∀ locals cells, I list.members locals cells → Q locals cells)
    {done rest : List Member} (hsplit : list.members = done ++ rest) {fuel : Nat}
    (hfuel : rest.length < fuel) {locals : σ} (h : I done locals pre) :
    Triple pre (forElements list.addr body done.length locals fuel) Q := by
  induction fuel generalizing done rest locals pre with
  | zero => exact absurd hfuel (Nat.not_lt_zero _)
  | succ fuel ih =>
      have hlist := howned done locals pre h
      refine alistSize_then hlist ?_
      cases rest with
      | nil =>
          rw [List.append_nil] at hsplit
          rw [if_neg (by simp [hsplit])]
          exact Triple.pure (hend locals _ (hsplit ▸ h))
      | cons m rest =>
          rw [if_pos (by simp [hsplit])]
          refine alistGet_then hlist hsplit ?_
          refine (hbody done m rest hsplit locals pre h).bind fun result after hresult => ?_
          cases result with
          | done locals => exact Triple.pure hresult
          | yield locals =>
              have hpassed : list.members = (done ++ [m]) ++ rest := by
                rw [hsplit, List.append_assoc]
                rfl
              have hlater := ih hpassed (Nat.lt_of_succ_lt_succ hfuel) hresult
              rwa [List.length_append, List.length_singleton] at hlater

/-- A loop that keeps what it owns and goes to the end. -/
theorem forElements_fold {σ : Type} {body : σ → Addr → Prog Block (ForInStep σ)}
    (step : σ → Member → σ) (howned : list.cells ≤ pre)
    (hbody : ∀ locals, ∀ m ∈ list.members, Triple pre (body locals (list.addrOf m))
      fun result after => result = .yield (step locals m) ∧ after = pre)
    {done rest : List Member} (hsplit : list.members = done ++ rest) {fuel : Nat}
    (hfuel : rest.length < fuel) (locals : σ) :
    Triple pre (forElements list.addr body done.length locals fuel) fun result after =>
      result = rest.foldl step locals ∧ after = pre := by
  refine forElements_spec list (I := fun passed result after => after = pre ∧
    ∃ turned, passed = done ++ turned ∧ result = turned.foldl step locals) ?_ ?_ ?_ hsplit hfuel
      ⟨rfl, [], (List.append_nil _).symm, rfl⟩
  · rintro _ _ _ ⟨rfl, _⟩
    exact howned
  · rintro _ m later hlater _ _ ⟨rfl, turned, rfl, rfl⟩
    refine (hbody _ m (by simp [hlater])).weaken ?_
    rintro _ _ ⟨rfl, rfl⟩
    exact ⟨rfl, turned ++ [m], List.append_assoc _ _ _, by rw [List.foldl_append]; rfl⟩
  · rintro _ _ ⟨rfl, turned, hturned, rfl⟩
    rw [hsplit, List.append_cancel_left_eq] at hturned
    exact ⟨by rw [hturned], rfl⟩

/-- What a verbose run prints of a list stays as it is. -/
theorem printDuplicates_spec (howned : list.cells ≤ pre) (held : HeldRecord)
    (hheld : held.cells ≤ pre) {fuel : Nat} (hfuel : list.items.length < fuel) :
    Triple pre (printDuplicates fuel list.addr held.addr) fun _ after => after = pre := by
  refine printPath_then held hheld ?_
  refine (forElements_fold (fun _ _ => ()) howned ?_ (List.nil_append _).symm ?_ ()).weaken ?_
  · intro _ m hm
    obtain ⟨item, hitem, haddr, _⟩ := held_of_owned howned hm
    rw [← haddr]
    exact printPath_then item hitem (Triple.pure ⟨rfl, rfl⟩)
  · rwa [AListAt.length_members]
  · rintro _ _ ⟨_, rfl⟩
    rfl

end Elements

end Dedup.ScanMemory
