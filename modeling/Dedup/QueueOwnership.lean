/-
Module: Dedup.QueueOwnership
Purpose: Who owns the entries of the scan's queue.  An entry is a block and the string of its path;
  it is owned by the queue from `file_entry_queue_append` to `file_entry_next`, and then by the
  thread that took it until `file_entry_free`.  The record that `metadata_from_entry` makes of it
  has a path of its own; where there is no record, the stream of the file may be left open.
Imports: Dedup.Descriptors, Dedup.RecordOwnership
Trusted boundary: none
Main exports: HeldEntry, takenCells, streams, fileEntryQueueAppend_spec, fileEntryNext_spec,
  RecordRead, metadataFromEntry_spec, printEntry_spec, fileEntryFree_spec
-/
import Dedup.Descriptors
import Dedup.RecordOwnership

namespace Dedup.ScanMemory

open Heap TailQueue
open Descriptors (ScanCall)

/-- A `FileEntry` on the heap, with the string of its path. -/
structure HeldEntry where
  addr : Addr
  path : Addr
  fe : FileEntry

instance : Entry Block HeldEntry where
  addr := HeldEntry.addr
  block entry link := .entry (entryOf entry.fe entry.path link)
  rest entry := {(entry.path, .path entry.fe.path)}
  next := Block.entryNext
  relink := Block.entryRelink
  next_block _ _ := rfl
  relink_block _ _ _ := rfl

/-- The blocks of an entry with what its link was left as. -/
def takenCells (entry : HeldEntry) (link : Option Addr) : Multiset Cell :=
  (entry.addr, .entry (entryOf entry.fe entry.path link)) ::ₘ {(entry.path, .path entry.fe.path)}

theorem taken_mem (entry : HeldEntry) (link : Option Addr) :
    (entry.addr, .entry (entryOf entry.fe entry.path link)) ∈ takenCells entry link :=
  Multiset.mem_cons_self _ _

theorem taken_path_mem (entry : HeldEntry) (link : Option Addr) :
    (entry.path, .path entry.fe.path) ∈ takenCells entry link :=
  Multiset.mem_cons_of_mem (Multiset.mem_singleton_self _)

/-- The queue with its entries. -/
def entriesCells (queue : Addr) (entries : List HeldEntry) : Multiset Cell :=
  queueCells queueHead queue entries

/-- `file_entry_queue_append` adds a new entry at the end. -/
theorem fileEntryQueueAppend_spec (queue : Addr) (entries : List HeldEntry) (fe : FileEntry) :
    Triple (entriesCells queue entries) (fileEntryQueueAppend queue fe) fun _ cells =>
      ∃ entry : HeldEntry, entry.fe = fe ∧ cells = entriesCells queue (entries ++ [entry]) := by
  refine Triple.malloc_then fun path => ?_
  refine Triple.malloc_then fun addr => ?_
  let entry : HeldEntry := { addr := addr, path := path, fe := fe }
  refine (append_spec entries entry).last 0 ?_ ?_
  · simp only [entryCells, entriesCells, ← Multiset.singleton_add]
    change {(addr, Block.entry (entryOf fe path none))} + ({(path, Block.path fe.path)} + _) =
      _ + ({(addr, Block.entry (entryOf fe path none))} + {(path, Block.path fe.path)}) + _
    abel
  · rintro _ _ rfl
    exact ⟨entry, rfl, add_zero _⟩

/-- `file_entry_next` hands the first entry over to its caller. -/
theorem fileEntryNext_spec (queue : Addr) (entries : List HeldEntry) :
    Triple (entriesCells queue entries) (fileEntryNext queue) fun result cells =>
      (entries = [] ∧ result = none ∧ cells = entriesCells queue entries) ∨
      ∃ entry rest link, entries = entry :: rest ∧ result = some entry.addr ∧
        cells = entriesCells queue rest + takenCells entry link := by
  refine (first_spec entries).bind ?_
  rintro _ _ ⟨rfl, rfl⟩
  cases entries with
  | nil => exact Triple.pure (Or.inl ⟨rfl, rfl, rfl⟩)
  | cons entry rest =>
      refine (removeFirst_spec entry rest).bind ?_
      rintro _ _ rfl
      exact Triple.pure (Or.inr ⟨entry, rest, _, rfl, rfl, rfl⟩)

/-- The streams that `metadata_from_entry` leaves open: one for each file that opens and that a later
step cannot read. -/
def streams (env : ScanEnv) (fes : List FileEntry) : Multiset Block :=
  Multiset.replicate (fes.countP fun fe => (ScanCall.metadataFromEntry env fe).Leaks) .stream

theorem streams_append_singleton (env : ScanEnv) (fes : List FileEntry) (fe : FileEntry) :
    streams env (fes ++ [fe]) = streams env fes + streams env [fe] := by
  simp only [streams, List.countP_append, Multiset.replicate_add]

theorem streams_of_leaks {env : ScanEnv} {fe : FileEntry}
    (h : (ScanCall.metadataFromEntry env fe).Leaks) : streams env [fe] = {.stream} := by
  simp [streams, h]

theorem streams_of_clean {env : ScanEnv} {fe : FileEntry}
    (h : ¬ (ScanCall.metadataFromEntry env fe).Leaks) : streams env [fe] = 0 := by
  simp [streams, h]

/-- A file that was read has left no stream open. -/
theorem streams_of_read {env : ScanEnv} {fe : FileEntry} {fm : FileMetadata}
    (h : Dedup.metadataFromEntry env fe = some fm) : streams env [fe] = 0 := by
  refine streams_of_clean ?_
  rintro ⟨_, hfirst | hseek | hlast⟩
  · simp [Dedup.metadataFromEntry, hfirst] at h
  · simp [Dedup.metadataFromEntry, hseek] at h
  · simp [Dedup.metadataFromEntry, hlast] at h

section Stream

variable {α γ : Type} {pre : Multiset Cell} {post : γ → Multiset Cell → Prop}

theorem fopen_then {opens : Bool} {f : Option Addr → Prog Block γ}
    (hrefused : opens = false → Triple pre (f none) post)
    (hopened : opens = true → ∀ stream, Triple ((stream, .stream) ::ₘ pre) (f (some stream)) post) :
    Triple pre (fopen opens >>= f) post := by
  cases opens with
  | false =>
      have hfopen : Triple pre (fopen false) fun result cells => result = none ∧ cells = pre :=
        Triple.pure ⟨rfl, rfl⟩
      refine hfopen.bind ?_
      rintro _ _ ⟨rfl, rfl⟩
      exact hrefused rfl
  | true =>
      have hfopen : Triple pre (fopen true) fun result cells => ∃ stream, result = some stream ∧
          cells = (stream, .stream) ::ₘ pre :=
        Triple.malloc_then fun stream => Triple.pure ⟨stream, rfl, rfl⟩
      refine hfopen.bind ?_
      rintro _ _ ⟨stream, rfl, rfl⟩
      exact hopened rfl stream

theorem through_then {stream : Addr} {result : α} {f : α → Prog Block γ}
    (hstream : (stream, .stream) ∈ pre) (hf : Triple pre (f result) post) :
    Triple pre (through stream result >>= f) post := by
  have hthrough : Triple pre (through stream result) fun value cells =>
      value = result ∧ cells = pre :=
    Triple.loadAs_then hstream rfl (Triple.pure ⟨rfl, rfl⟩)
  refine hthrough.bind ?_
  rintro _ _ ⟨rfl, rfl⟩
  exact hf

end Stream

/-- What `metadata_from_entry` returns and leaves: the record that the model reads, with a path of
its own, and the stream where it is left open. -/
def RecordRead (env : ScanEnv) (entry : HeldEntry) (link : Option Addr) (result : Option Addr)
    (cells : Multiset Cell) : Prop :=
  ∃ (held : Option HeldRecord) (left : Multiset Cell), result = held.map HeldRecord.addr ∧
    held.map HeldRecord.fm = Dedup.metadataFromEntry env entry.fe ∧
    left.map Prod.snd = streams env [entry.fe] ∧
    cells = heldCells held + takenCells entry link + left

/-- An exit before `fclose` leaves the stream. -/
theorem recordRead_of_leaks {env : ScanEnv} {entry : HeldEntry} {link : Option Addr}
    (stream : Addr) (h : (ScanCall.metadataFromEntry env entry.fe).Leaks)
    (hnone : Dedup.metadataFromEntry env entry.fe = none) :
    RecordRead env entry link none ((stream, .stream) ::ₘ takenCells entry link) := by
  refine ⟨none, {(stream, .stream)}, rfl, hnone.symm, ?_, ?_⟩
  · rw [streams_of_leaks h]
    rfl
  · rw [heldCells_none, zero_add, add_comm, Multiset.singleton_add]

/-- `metadata_from_entry` reads what the model reads. -/
theorem metadataFromEntry_spec (env : ScanEnv) (entry : HeldEntry) (link : Option Addr) :
    Triple (takenCells entry link) (metadataFromEntry env entry.addr)
      (RecordRead env entry link) := by
  refine Triple.loadAs_then (taken_mem entry link) rfl ?_
  refine Triple.loadAs_then (taken_path_mem entry link) rfl ?_
  refine fopen_then (fun hopen => ?_) fun hopen stream => ?_
  · have hclean : ¬ (ScanCall.metadataFromEntry env entry.fe).Leaks := by
      rintro ⟨hopened, _⟩
      rw [hopen] at hopened
      cases hopened
    have hnone : Dedup.metadataFromEntry env entry.fe = none := by
      simp [Dedup.metadataFromEntry, hopen]
    refine Triple.pure ⟨none, 0, rfl, hnone.symm, (streams_of_clean hclean).symm, ?_⟩
    rw [heldCells_none, zero_add, add_zero]
  have hstream : (stream, .stream) ∈ (stream, Block.stream) ::ₘ takenCells entry link :=
    Multiset.mem_cons_self _ _
  refine through_then hstream ?_
  cases hfirst : env.fgetcFirst entry.fe.path with
  | none =>
      exact Triple.pure (recordRead_of_leaks stream ⟨hopen, .inl hfirst⟩
        (by simp [Dedup.metadataFromEntry, hfirst]))
  | some first =>
      refine through_then hstream ?_
      cases hseek : env.fseekOk entry.fe.path with
      | false =>
          exact Triple.pure (recordRead_of_leaks stream ⟨hopen, .inr (.inl hseek)⟩
            (by simp [Dedup.metadataFromEntry, hseek]))
      | true =>
          refine through_then hstream ?_
          cases hlast : env.fgetcLast entry.fe.path with
          | none =>
              exact Triple.pure (recordRead_of_leaks stream ⟨hopen, .inr (.inr hlast)⟩
                (by simp [Dedup.metadataFromEntry, hlast]))
          | some last =>
              let fm : FileMetadata :=
                { device := entry.fe.device, inode := entry.fe.inode, nlink := entry.fe.nlink,
                  flags := entry.fe.flags, cloneId := env.getCloneId entry.fe.path,
                  size := entry.fe.size, path := entry.fe.path, sha256 := emptySha256,
                  first := charOfByte first, last := charOfByte last }
              have hread : Dedup.metadataFromEntry env entry.fe = some fm := by
                simp [Dedup.metadataFromEntry, hopen, hfirst, hseek, hlast, fm]
              refine Triple.free_then rfl ?_
              refine (dup_spec fm (taken_path_mem entry link)).bind ?_
              rintro _ _ ⟨copy, rfl, hcopy, rfl⟩
              refine Triple.pure ⟨some copy, 0, rfl, ?_, (streams_of_read hread).symm, ?_⟩
              · rw [hread, Option.map_some, hcopy]
              · rw [heldCells_some, add_zero]

/-- An entry that is printed stays as it is. -/
theorem printEntry_spec {pre : Multiset Cell} (entry : HeldEntry) {link : Option Addr}
    (howned : takenCells entry link ≤ pre) :
    Triple pre (printEntry entry.addr) fun _ cells => cells = pre := by
  refine Triple.loadAs_then (Multiset.mem_of_le howned (taken_mem entry link)) rfl ?_
  refine Triple.loadAs_then (Multiset.mem_of_le howned (taken_path_mem entry link)) rfl ?_
  exact Triple.pure rfl

theorem fileEntryFree_spec (entry : HeldEntry) (link : Option Addr) :
    Triple (takenCells entry link) (fileEntryFree entry.addr) fun _ cells => cells = 0 := by
  refine Triple.loadAs_then (taken_mem entry link) rfl ?_
  refine Triple.free_then (Multiset.cons_swap _ _ 0) ?_
  exact Triple.free rfl

end Dedup.ScanMemory
