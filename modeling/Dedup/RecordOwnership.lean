/-
Module: Dedup.RecordOwnership
Purpose: Who owns the records of the scan.  A `FileMetadata` on the heap is a block and the string
  of its path, alone or as a field of a `FileMetadataNode`; each function of `map.c` and `utils.c`
  on records is told by the record it leaves and by what is owned then, and computes what the model
  of values computes.
Imports: Dedup.ScanMemory
Trusted boundary: none
Main exports: Cell, HeldRecord, HeldNode, Reads, dup_spec, metadataDup_spec, printPath_spec,
  freeMetadata_spec, populateSha256IfEmpty_spec, couldNotCompute_spec
-/
import Dedup.ScanMemory

namespace Dedup.ScanMemory

open Heap IntrusiveTree

/-- A block at its address. -/
abbrev Cell := Addr × Block

/-! ### Records on the heap -/

/-- A record on the heap, with the string of its path. -/
structure HeldRecord where
  addr : Addr
  path : Addr
  fm : FileMetadata

namespace HeldRecord

/-- The two blocks of a record. -/
def cells (held : HeldRecord) : Multiset Cell :=
  (held.addr, .metadata (recordOf held.fm held.path)) ::ₘ {(held.path, .path held.fm.path)}

/-- The record with other content and the same path. -/
def put (held : HeldRecord) (fm : FileMetadata) : HeldRecord :=
  { held with fm := fm }

@[simp] theorem put_addr (held : HeldRecord) (fm : FileMetadata) :
    (held.put fm).addr = held.addr := rfl

@[simp] theorem put_fm (held : HeldRecord) (fm : FileMetadata) : (held.put fm).fm = fm := rfl

@[simp] theorem put_put (held : HeldRecord) (fm fm' : FileMetadata) :
    (held.put fm).put fm' = held.put fm' := rfl

@[simp] theorem put_self (held : HeldRecord) : held.put held.fm = held := rfl

theorem mem_cells (held : HeldRecord) :
    (held.addr, .metadata (recordOf held.fm held.path)) ∈ held.cells :=
  Multiset.mem_cons_self _ _

theorem path_mem_cells (held : HeldRecord) : (held.path, .path held.fm.path) ∈ held.cells :=
  Multiset.mem_cons_of_mem (Multiset.mem_singleton_self _)

end HeldRecord

/-- A `FileMetadataNode` on the heap, with the string of its path. -/
structure HeldNode where
  addr : Addr
  path : Addr
  fm : FileMetadata

/-- The two blocks of a node. -/
def HeldNode.cells (node : HeldNode) : Multiset Cell :=
  (node.addr, .metadataNode (recordOf node.fm node.path)) ::ₘ {(node.path, .path node.fm.path)}

instance : Node Block Digest HeldNode where
  addr := HeldNode.addr
  key node := node.fm.sha256
  cells := HeldNode.cells
  keyOf := Block.metadataKey
  readable _ := ⟨_, Multiset.mem_cons_self _ _, rfl⟩

/-- The blocks of a record that may be absent. -/
def heldCells (held : Option HeldRecord) : Multiset Cell :=
  (held.map HeldRecord.cells).getD 0

@[simp] theorem heldCells_none : heldCells none = 0 := rfl

@[simp] theorem heldCells_some (held : HeldRecord) : heldCells (some held) = held.cells := rfl

/-! ### Reading and copying -/

/-- What is read through a pointer to a record, where its blocks are owned. -/
inductive Reads (owned : Multiset Cell) : MetadataPtr → FileMetadata → Prop where
  | record (held : HeldRecord) (h : held.cells ≤ owned) : Reads owned (.record held.addr) held.fm
  | field (node : HeldNode) (h : node.cells ≤ owned) : Reads owned (.field node.addr) node.fm

theorem Reads.mono {owned owned' : Multiset Cell} {fm : MetadataPtr} {value : FileMetadata}
    (h : Reads owned fm value) (hle : owned ≤ owned') : Reads owned' fm value := by
  cases h with
  | record held h => exact .record held (h.trans hle)
  | field node h => exact .field node (h.trans hle)

theorem reads_mono {owned owned' : Multiset Cell} {fm : Option MetadataPtr}
    {value : Option FileMetadata} (h : Option.Rel (Reads owned) fm value) (hle : owned ≤ owned') :
    Option.Rel (Reads owned') fm value := by
  cases h with
  | none => exact .none
  | some hreads => exact .some (hreads.mono hle)

variable {pre : Multiset Cell}

theorem strdup_spec {path : Addr} {string : Path} (hpath : (path, .path string) ∈ pre) :
    Triple pre (strdup path) fun result cells => cells = (result, .path string) ::ₘ pre :=
  Triple.loadAs_then hpath rfl (Triple.malloc _)

/-- A copy has a path of its own. -/
theorem dup_spec (fm : FileMetadata) {path : Addr} (hpath : (path, .path fm.path) ∈ pre) :
    Triple pre (dup (recordOf fm path)) fun result cells =>
      ∃ copy : HeldRecord, copy.addr = result ∧ copy.fm = fm ∧ cells = copy.cells + pre := by
  refine Triple.malloc_then fun addr => ?_
  refine (strdup_spec (Multiset.mem_cons_of_mem hpath)).bind ?_
  rintro copied _ rfl
  refine Triple.store_then (Multiset.cons_swap _ _ _) ?_
  refine Triple.pure ⟨⟨addr, copied, fm⟩, rfl, rfl, ?_⟩
  rw [HeldRecord.cells, Multiset.cons_add, Multiset.singleton_add]
  rfl

/-- The record behind a pointer is read as it is stored. -/
theorem deref_spec {fm : MetadataPtr} {value : FileMetadata} (h : Reads pre fm value) :
    ∃ path, (path, .path value.path) ∈ pre ∧
      Triple pre (deref fm) fun result cells => result = recordOf value path ∧ cells = pre := by
  cases h with
  | record held h =>
      exact ⟨held.path, Multiset.mem_of_le h held.path_mem_cells,
        Triple.loadAs (Multiset.mem_of_le h held.mem_cells) rfl⟩
  | field node h =>
      exact ⟨node.path,
        Multiset.mem_of_le h (Multiset.mem_cons_of_mem (Multiset.mem_singleton_self _)),
        Triple.loadAs (Multiset.mem_of_le h (Multiset.mem_cons_self _ _)) rfl⟩

/-- `metadata_dup` copies what it reads, and nothing where there is nothing. -/
theorem metadataDup_spec {fm : Option MetadataPtr} {value : Option FileMetadata}
    (h : Option.Rel (Reads pre) fm value) :
    Triple pre (metadataDup fm) fun result cells => ∃ copy : Option HeldRecord,
      result = copy.map HeldRecord.addr ∧ copy.map HeldRecord.fm = value ∧
        cells = heldCells copy + pre := by
  cases h with
  | none => exact Triple.pure ⟨none, rfl, rfl, (zero_add _).symm⟩
  | some hreads =>
      obtain ⟨path, hpath, hderef⟩ := deref_spec hreads
      refine hderef.bind ?_
      rintro _ _ ⟨rfl, rfl⟩
      refine (dup_spec _ hpath).bind ?_
      rintro _ _ ⟨copy, rfl, hcopy, rfl⟩
      exact Triple.pure ⟨some copy, rfl, by simp [hcopy], rfl⟩

/-- `metadata_dup` of a record that is owned. -/
theorem metadataDup_held (held : HeldRecord) (howned : held.cells ≤ pre) :
    Triple pre (metadataDup (some (.record held.addr))) fun result cells =>
      ∃ copy : HeldRecord, result = some copy.addr ∧ copy.fm = held.fm ∧
        cells = copy.cells + pre := by
  have hreads : Option.Rel (Reads pre) (some (.record held.addr)) (some held.fm) :=
    .some (.record held howned)
  refine (metadataDup_spec hreads).weaken ?_
  rintro _ _ ⟨copy, rfl, hcopy, rfl⟩
  cases copy with
  | none => cases hcopy
  | some copy => exact ⟨copy, rfl, by simpa using hcopy, rfl⟩

theorem printing_spec {shown : Bool} {block : Prog Block Unit}
    (h : Triple pre block fun _ cells => cells = pre) :
    Triple pre (printing shown block) fun _ cells => cells = pre := by
  cases shown with
  | false => exact Triple.pure rfl
  | true => exact h

/-- A record that is printed stays as it is. -/
theorem printPath_spec (held : HeldRecord) (howned : held.cells ≤ pre) :
    Triple pre (printPath held.addr) fun _ cells => cells = pre := by
  refine Triple.loadAs_then (Multiset.mem_of_le howned held.mem_cells) rfl ?_
  refine Triple.loadAs_then (Multiset.mem_of_le howned held.path_mem_cells) rfl ?_
  exact Triple.pure rfl

theorem printPath_then {γ : Type} {f : Unit → Prog Block γ} {post : γ → Multiset Cell → Prop}
    (held : HeldRecord) (howned : held.cells ≤ pre) (hf : Triple pre (f ()) post) :
    Triple pre (printPath held.addr >>= f) post := by
  refine (printPath_spec held howned).bind ?_
  rintro _ _ rfl
  exact hf

/-- `free_metadata` gives back both blocks. -/
theorem freeMetadata_spec (held : HeldRecord) :
    Triple held.cells (freeMetadata held.addr) fun _ cells => cells = 0 := by
  refine Triple.loadAs_then held.mem_cells rfl ?_
  refine Triple.free_then (Multiset.cons_swap _ _ 0) ?_
  exact Triple.free rfl

theorem freeMetadataNode_spec (node : HeldNode) :
    Triple node.cells (freeMetadataNode node.addr) fun _ cells => cells = 0 := by
  refine Triple.loadAs_then (Multiset.mem_cons_self _ _) rfl ?_
  refine Triple.free_then (Multiset.cons_swap _ _ 0) ?_
  exact Triple.free rfl

/-! ### Digests -/

/-- `populate_sha256_if_empty` changes nothing but the digest. -/
theorem populated_eq (env : ScanEnv) (fm : FileMetadata) :
    ∃ digest, (Dedup.populateSha256IfEmpty env fm).2 = fm.withSha digest := by
  unfold Dedup.populateSha256IfEmpty
  split
  · exact ⟨fm.sha256, rfl⟩
  · split
    · exact ⟨fm.sha256, rfl⟩
    · split
      · exact ⟨fm.sha256, rfl⟩
      · split
        · exact ⟨fm.sha256, rfl⟩
        · exact ⟨_, rfl⟩

/-- The digest is written into the record. -/
theorem populateSha256IfEmpty_spec (env : ScanEnv) (held : HeldRecord) :
    Triple held.cells (populateSha256IfEmpty env held.addr) fun result cells =>
      result = (Dedup.populateSha256IfEmpty env held.fm).1 ∧
        cells = (held.put (Dedup.populateSha256IfEmpty env held.fm).2).cells := by
  refine Triple.loadAs_then held.mem_cells rfl ?_
  by_cases hempty : shaIsEmpty held.fm.sha256 = true
  · simp only [recordOf, hempty, Bool.not_true, Bool.false_eq_true, if_false]
    refine Triple.loadAs_then held.path_mem_cells rfl ?_
    refine Triple.store_then rfl (Triple.pure ⟨rfl, ?_⟩)
    obtain ⟨digest, hdigest⟩ := populated_eq env held.fm
    change _ = (held.put (Dedup.populateSha256IfEmpty env held.fm).2).cells
    have hread : Record.read (recordOf held.fm held.path) held.fm.path = held.fm := rfl
    simp only [recordOf] at hread
    simp only [hread, hdigest]
    rfl
  · have hpopulated : Dedup.populateSha256IfEmpty env held.fm = (0, held.fm) := by
      simp [Dedup.populateSha256IfEmpty, hempty]
    simp only [recordOf, hempty, hpopulated]
    exact Triple.pure ⟨rfl, rfl⟩

/-- The test after it tells whether the digest was obtained. -/
theorem couldNotCompute_spec (env : ScanEnv) (held : HeldRecord) :
    Triple held.cells (couldNotCompute env held.addr) fun result cells =>
      (result = true ↔ obtainSha256 env held.fm = none) ∧
        cells = (held.put (Dedup.populateSha256IfEmpty env held.fm).2).cells := by
  have hiff := populate_failed_iff env held.fm
  refine (populateSha256IfEmpty_spec env held).bind ?_
  rintro _ _ ⟨rfl, rfl⟩
  split
  · rename_i hresult
    exact Triple.pure ⟨by simp [← hiff, hresult], rfl⟩
  · rename_i hresult
    refine Triple.loadAs_then (HeldRecord.mem_cells _) rfl ?_
    refine Triple.pure ⟨?_, rfl⟩
    rw [← hiff]
    simp only [Decidable.not_not] at hresult
    simp [hresult, recordOf]

end Dedup.ScanMemory
