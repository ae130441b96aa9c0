/-
Module: Dedup.Posix.SameFiles
Purpose: What a system call makes of the files, told without the clock, the count of failures and
  the modification times: its result is what it finds among the files, unless it is made to fail.
Imports: Dedup.Posix.Kernel
Trusted boundary: none
Main exports: SameFiles, Kernel.Spares, readCall_files, writeCall_files, access_files, stat_files,
  clonefile_files, copyfileCheck_files, copyfileMetadata_files, rename_files, unlink_files,
  openDir_files, fstat_files, resolve_createFile
-/
import Dedup.Posix.Kernel

namespace Dedup.Posix

open Std.Do

/-- Two states with the same files. -/
structure SameFiles (fs fs' : FileSystem) : Prop where
  nodes : fs'.nodes = fs.nodes
  inode : fs'.inode = fs.inode
  nextIno : fs'.nextIno = fs.nextIno

namespace SameFiles

variable {fs fs' fs'' : FileSystem}

theorem refl (fs : FileSystem) : SameFiles fs fs := ⟨rfl, rfl, rfl⟩

theorem symm (h : SameFiles fs fs') : SameFiles fs' fs :=
  ⟨h.nodes.symm, h.inode.symm, h.nextIno.symm⟩

theorem trans (h : SameFiles fs fs') (h' : SameFiles fs' fs'') : SameFiles fs fs'' :=
  ⟨h'.nodes.trans h.nodes, h'.inode.trans h.inode, h'.nextIno.trans h.nextIno⟩

theorem tick (h : SameFiles fs fs') : SameFiles fs fs'.tick := ⟨h.nodes, h.inode, h.nextIno⟩

theorem fail (h : SameFiles fs fs') : SameFiles fs fs'.fail := ⟨h.nodes, h.inode, h.nextIno⟩

theorem touch (h : SameFiles fs fs') (dir : Dir) : SameFiles fs (fs'.touch dir) :=
  ⟨h.nodes, h.inode, h.nextIno⟩

theorem createFile (h : SameFiles fs fs') (entry : Entry) (inode : Inode) :
    SameFiles (fs.createFile entry inode) (fs'.createFile entry inode) := by
  constructor <;> simp [FileSystem.createFile, h.nodes, h.inode, h.nextIno]

theorem removeNode (h : SameFiles fs fs') (entry : Entry) :
    SameFiles (fs.removeNode entry) (fs'.removeNode entry) := by
  constructor <;> simp [FileSystem.removeNode, h.nodes, h.inode, h.nextIno]

theorem moveNode (h : SameFiles fs fs') (source entry : Entry) :
    SameFiles (fs.moveNode source entry) (fs'.moveNode source entry) := by
  constructor <;> simp [FileSystem.moveNode, h.nodes, h.inode, h.nextIno]

theorem setMetadata (h : SameFiles fs fs') (ino : Nat) (metadata : Metadata) :
    SameFiles (fs.setMetadata ino metadata) (fs'.setMetadata ino metadata) := by
  constructor <;> simp [FileSystem.setMetadata, h.nodes, h.inode, h.nextIno]

end SameFiles

namespace Kernel

variable {k : Kernel} {fs fs' : FileSystem} {α : Type}

/-- A call is never made to fail. -/
def Spares (k : Kernel) (call : Call) : Prop :=
  ∀ time, k.fault time call = none

/-- A condition of a call that only looks at the files. -/
def OfFiles (find : FileSystem → Except Errno α) : Prop :=
  ∀ fs fs', SameFiles fs fs' → find fs' = find fs

/-! ### The rules -/

/-- A call that reads reports what it finds, or fails. -/
theorem readCall_files {call : Call} {find : FileSystem → Except Errno α} (hfind : OfFiles find)
    (fs : FileSystem) :
    ⦃fun fs' => ⌜SameFiles fs fs'⌝⦄ k.readCall call find
    ⦃⇓ result fs' => ⌜SameFiles fs fs' ∧ (∀ value, result = .ok value → find fs = .ok value) ∧
      (k.Spares call → result = find fs)⌝⦄ := by
  rw [triple_iff]
  intro fs' h
  cases houtcome : k.outcome call find fs' with
  | ok value =>
      rw [readCall_of_ok houtcome]
      have hvalue : find fs = .ok value := (hfind fs fs' h).symm.trans (outcome_eq_ok.mp houtcome).2
      exact ⟨h.tick, fun other hother => Except.ok.inj hother ▸ hvalue, fun _ => hvalue.symm⟩
  | error errno =>
      rw [readCall_of_error houtcome]
      refine ⟨h.tick.fail, by simp, fun hspares => ?_⟩
      rcases outcome_eq_error houtcome with hfault | herror
      · exact absurd (hspares _) hfault
      · rw [← herror, hfind fs fs' h]

/-- A call that writes has its effect on what it finds, or fails. -/
theorem writeCall_files {call : Call} {find : FileSystem → Except Errno α}
    {effect : α → FileSystem → FileSystem} (hfind : OfFiles find) (fs : FileSystem)
    {result : α → FileSystem}
    (heffect : ∀ found fs', SameFiles fs fs' → SameFiles (result found) (effect found fs')) :
    ⦃fun fs' => ⌜SameFiles fs fs'⌝⦄ k.writeCall call find effect
    ⦃⇓ status fs' => ⌜match status with
      | .ok _ => ∃ found, find fs = .ok found ∧ SameFiles (result found) fs'
      | .error _ => SameFiles fs fs' ∧ (k.Spares call → ∀ found, find fs ≠ .ok found)⌝⦄ := by
  rw [triple_iff]
  intro fs' h
  cases houtcome : k.outcome call find fs' with
  | ok found =>
      rw [writeCall_of_ok houtcome]
      exact ⟨found, (hfind fs fs' h).symm.trans (outcome_eq_ok.mp houtcome).2,
        heffect found _ h.tick⟩
  | error errno =>
      rw [writeCall_of_error houtcome]
      refine ⟨h.tick.fail, fun hspares found hfound => ?_⟩
      rcases outcome_eq_error houtcome with hfault | herror
      · exact hfault (hspares _)
      · rw [hfind fs fs' h, hfound] at herror
        simp at herror

/-! ### The conditions look at the files -/

theorem ns_files (h : SameFiles fs fs') : k.ns fs' = k.ns fs :=
  ns_of_nodes h.nodes

theorem resolve_files (h : SameFiles fs fs') (path : Path) :
    k.resolve path fs' = k.resolve path fs := by
  rw [resolve, resolve, ns_files h, h.nodes]

theorem immutableAt_files (h : SameFiles fs fs') (entry : Entry) :
    immutableAt fs' entry = immutableAt fs entry := by
  rw [immutableAt, immutableAt, h.nodes, h.inode]

theorem sameFile_files (h : SameFiles fs fs') (entry entry' : Entry) :
    sameFile fs' entry entry' = sameFile fs entry entry' := by
  rw [sameFile, sameFile, h.nodes]

theorem findFile_ofFiles (path : Path) : OfFiles (k.findFile path) := by
  intro fs fs' h
  rw [findFile, findFile, resolve_files h]

theorem findRemovable_ofFiles (path : Path) : OfFiles (k.findRemovable path) := by
  intro fs fs' h
  simp only [findRemovable, ns_files h, immutableAt_files h, h.nodes]

theorem findFree_ofFiles (path : Path) : OfFiles (k.findFree path) := by
  intro fs fs' h
  simp only [findFree, ns_files h, h.nodes]

theorem findClone_ofFiles (src dst : Path) : OfFiles (k.findClone src dst) := by
  intro fs fs' h
  simp only [findClone, findFile_ofFiles src fs fs' h, findFree_ofFiles dst fs fs' h]

theorem findCopy_ofFiles (src dst : Path) : OfFiles (k.findCopy src dst) := by
  intro fs fs' h
  simp only [findCopy, findFile_ofFiles src fs fs' h, findFile_ofFiles dst fs fs' h, h.inode]

theorem findRename_ofFiles (src dst : Path) : OfFiles (k.findRename src dst) := by
  intro fs fs' h
  simp only [findRename, findRemovable_ofFiles src fs fs' h, ns_files h, immutableAt_files h]

theorem checkAccess_ofFiles (path : Path) (mode : AccessMode) :
    OfFiles (k.checkAccess path mode) := by
  intro fs fs' h
  simp only [checkAccess, resolve_files h, ns_files h, h.inode]

/-! ### The calls -/

/-- `access`. -/
theorem access_files (path : Path) (mode : AccessMode) (fs : FileSystem) :
    ⦃fun fs' => ⌜SameFiles fs fs'⌝⦄ k.access path mode
    ⦃⇓ result fs' => ⌜SameFiles fs fs' ∧
      (∀ value, result = .ok value → k.checkAccess path mode fs = .ok value) ∧
      (k.Spares (.access path mode) → result = k.checkAccess path mode fs)⌝⦄ :=
  readCall_files (checkAccess_ofFiles path mode) fs

/-- `stat` of a regular file. -/
theorem stat_files {path : Path} {fs : FileSystem} {entry : Entry} {ino : Nat}
    (hresolve : k.resolve path fs = some (entry, ino)) :
    ⦃fun fs' => ⌜SameFiles fs fs'⌝⦄ k.stat path
    ⦃⇓ result fs' => ⌜SameFiles fs fs' ∧
      (∀ size, result = .ok size → (fs.inode ino).content.length = size) ∧
      (k.Spares (.stat path) → result = .ok (fs.inode ino).content.length)⌝⦄ := by
  refine triple_consequence (readCall_files (fun fs fs' h => ?_) fs) (fun _ h => h) ?_
  · simp only [resolve_files h, ns_files h, h.inode]
  · simp only [hresolve, Except.ok.injEq]
    exact fun _ _ h => h

/-- `copyfile` under `COPYFILE_CHECK`. -/
theorem copyfileCheck_files (src dst : Path) (fs : FileSystem) :
    ⦃fun fs' => ⌜SameFiles fs fs'⌝⦄ k.copyfileCheck src dst
    ⦃⇓ result fs' => ⌜SameFiles fs fs' ∧
      (∀ bits, result = .ok bits →
        ∃ entry ino, k.resolve src fs = some (entry, ino) ∧ k.copyfileBits (fs.inode ino) = bits) ∧
      (k.Spares (.copyfile src dst true) → ∀ entry ino, k.resolve src fs = some (entry, ino) →
        result = .ok (k.copyfileBits (fs.inode ino)))⌝⦄ := by
  refine triple_consequence (readCall_files (fun fs fs' h => ?_) fs) (fun _ h => h) ?_
  · simp only [findFile_ofFiles src fs fs' h, h.inode]
  · rintro result fs' ⟨hsame, hok, hspared⟩
    refine ⟨hsame, fun bits hbits => ?_, fun hspares entry ino hresolve => ?_⟩
    · obtain ⟨⟨entry, ino⟩, hfound, hvalue⟩ := bind_eq_ok.mp (hok bits hbits)
      exact ⟨entry, ino, findFile_eq_ok.mp hfound, pure_eq_ok.mp hvalue⟩
    · rw [hspared hspares, findFile_eq_ok.mpr hresolve]
      rfl

/-- `clonefile`. -/
theorem clonefile_files (src dst : Path) (fs : FileSystem) :
    ⦃fun fs' => ⌜SameFiles fs fs'⌝⦄ k.clonefile src dst
    ⦃⇓ status fs' => ⌜match status with
      | .ok _ => ∃ found, k.findClone src dst fs = .ok found ∧
          SameFiles (fs.createFile found.2 { fs.inode found.1 with nlink := 1 }) fs'
      | .error _ => SameFiles fs fs' ∧ (k.Spares (.clonefile src dst) →
          ∀ found, k.findClone src dst fs ≠ .ok found)⌝⦄ := by
  refine writeCall_files (findClone_ofFiles src dst) fs fun found fs' h => ?_
  rw [h.inode]
  exact (h.createFile _ _).touch _

/-- `copyfile` of the metadata; one that fails may have written some of it. -/
theorem copyfileMetadata_files (src dst : Path) (fs : FileSystem) :
    ⦃fun fs' => ⌜SameFiles fs fs'⌝⦄ k.copyfileMetadata src dst
    ⦃⇓ status fs' => ⌜match status with
      | .ok _ => ∃ found, k.findCopy src dst fs = .ok found ∧
          SameFiles (fs.setMetadata found.2 (fs.inode found.1).metadata) fs'
      | .error _ => (∀ found, k.resolve dst fs = some found → ∃ time, SameFiles
            (fs.setMetadata found.2 (k.partialMetadata time (fs.inode found.2).metadata)) fs') ∧
          (k.Spares (.copyfile src dst false) → ∀ found, k.findCopy src dst fs ≠ .ok found)⌝⦄ := by
  rw [triple_iff]
  intro fs' h
  unfold copyfileMetadata
  cases houtcome : k.outcome (.copyfile src dst false) (k.findCopy src dst) fs' with
  | ok found =>
      have hfound := (outcome_eq_ok.mp houtcome).2
      rw [findCopy_ofFiles src dst fs fs' h] at hfound
      refine ⟨found, hfound, ?_⟩
      rw [← h.inode]
      exact h.tick.setMetadata _ _
  | error errno =>
      have hspared : k.Spares (.copyfile src dst false) →
          ∀ found, k.findCopy src dst fs ≠ .ok found := by
        intro hspares found hfound
        rcases outcome_eq_error houtcome with hfault | herror
        · exact hfault (hspares _)
        · rw [findCopy_ofFiles src dst fs fs' h, hfound] at herror
          simp at herror
      have hresolve := resolve_files (k := k) h dst
      cases hfound : k.resolve dst fs with
      | none =>
          simp only [hresolve, hfound]
          exact ⟨by simp, hspared⟩
      | some found =>
          simp only [hresolve, hfound]
          refine ⟨fun other hother => ⟨fs'.clock, ?_⟩, hspared⟩
          obtain rfl := Option.some.inj hother
          rw [← h.inode]
          exact (h.tick.setMetadata _ _).fail

/-- `rename`. -/
theorem rename_files (src dst : Path) (fs : FileSystem) :
    ⦃fun fs' => ⌜SameFiles fs fs'⌝⦄ k.rename src dst
    ⦃⇓ status fs' => ⌜match status with
      | .ok _ => ∃ found, k.findRename src dst fs = .ok found ∧
          SameFiles (if sameFile fs found.1 found.2 then fs else fs.moveNode found.1 found.2) fs'
      | .error _ => SameFiles fs fs' ∧ (k.Spares (.rename src dst) →
          ∀ found, k.findRename src dst fs ≠ .ok found)⌝⦄ := by
  refine writeCall_files (findRename_ofFiles src dst) fs fun found fs' h => ?_
  simp only [sameFile_files h]
  split
  · exact h
  · exact ((h.moveNode _ _).touch _).touch _

/-- `unlink`. -/
theorem unlink_files (path : Path) (fs : FileSystem) :
    ⦃fun fs' => ⌜SameFiles fs fs'⌝⦄ k.unlink path
    ⦃⇓ status fs' => ⌜match status with
      | .ok _ => ∃ entry, k.findRemovable path fs = .ok entry ∧
          SameFiles (fs.removeNode entry) fs'
      | .error _ => SameFiles fs fs' ∧ (k.Spares (.unlink path) →
          ∀ entry, k.findRemovable path fs ≠ .ok entry)⌝⦄ :=
  writeCall_files (findRemovable_ofFiles path) fs fun entry _ h =>
    (h.removeNode entry).touch entry.dir

/-- `open` of a directory. -/
theorem openDir_files {path : Path} {dir : Dir} {fs : FileSystem}
    (hdir : (k.ns fs).locateDir path = some dir) :
    ⦃fun fs' => ⌜SameFiles fs fs'⌝⦄ k.openDir path
    ⦃⇓ result fs' => ⌜SameFiles fs fs' ∧ (k.Spares (.openDir path) → result = .ok dir)⌝⦄ := by
  refine triple_consequence (readCall_files (fun fs fs' h => ?_) fs) (fun _ h => h) ?_
  · simp only [ns_files h]
  · simp only [hdir]
    exact fun _ _ h => ⟨h.1, h.2.2⟩

/-- `fstat` of a directory. -/
theorem fstat_files (dir : Dir) (fs : FileSystem) :
    ⦃fun fs' => ⌜SameFiles fs fs'⌝⦄ k.fstat dir
    ⦃⇓ result fs' => ⌜SameFiles fs fs' ∧
      (k.Spares (.fstat dir) → ∃ mtime, result = .ok mtime)⌝⦄ := by
  rw [triple_iff]
  intro fs' h
  cases houtcome : k.outcome (.fstat dir) (fun fs => .ok (fs.mtime dir)) fs' with
  | ok mtime =>
      rw [fstat, readCall_of_ok houtcome]
      exact ⟨h.tick, fun _ => ⟨mtime, rfl⟩⟩
  | error errno =>
      rw [fstat, readCall_of_error houtcome]
      refine ⟨h.tick.fail, fun hspares => ?_⟩
      rcases outcome_eq_error houtcome with hfault | herror
      · exact absurd (hspares _) hfault
      · simp at herror

/-! ### A new file -/

/-- What a resolution ends at is a file. -/
theorem node_of_resolve {path : Path} {entry : Entry} {ino : Nat}
    (h : k.resolve path fs = some (entry, ino)) : fs.nodes entry = some (.file ino) := by
  have hfollow : ∀ fuel start, follow (k.ns fs) fs.nodes fuel start = some (entry, ino) →
      fs.nodes entry = some (.file ino) := by
    intro fuel
    induction fuel with
    | zero => simp [follow]
    | succ fuel ih =>
        intro start hstart
        unfold follow at hstart
        split at hstart
        · rename_i file hnode
          obtain ⟨rfl, rfl⟩ := Prod.mk.inj (Option.some.inj hstart)
          exact hnode
        · obtain ⟨next, _, hrest⟩ := Option.bind_eq_some_iff.mp hstart
          exact ih next hrest
        · simp at hstart
        · simp at hstart
  obtain ⟨start, _, hstart⟩ := Option.bind_eq_some_iff.mp h
  exact hfollow _ start hstart

/-- A new file where nothing stood is in the way of no resolution, and a resolution that is new
ends at it. -/
theorem resolve_createFile {path : Path} {entry : Entry} (hfree : fs.nodes entry = none)
    (inode : Inode) {found : Entry × Nat} :
    (k.resolve path fs = some found → k.resolve path (fs.createFile entry inode) = some found) ∧
      (k.resolve path (fs.createFile entry inode) = some found →
        found.2 = fs.nextIno ∨ k.resolve path fs = some found) := by
  have hns : k.ns (fs.createFile entry inode) = k.ns fs :=
    ns_congr (FileSystem.dirLinks_createFile hfree inode)
  have hfollow : ∀ fuel start,
      (follow (k.ns fs) fs.nodes fuel start = some found →
        follow (k.ns fs) (fs.createFile entry inode).nodes fuel start = some found) ∧
      (follow (k.ns fs) (fs.createFile entry inode).nodes fuel start = some found →
        found.2 = fs.nextIno ∨ follow (k.ns fs) fs.nodes fuel start = some found) := by
    intro fuel
    induction fuel with
    | zero => simp [follow]
    | succ fuel ih =>
        intro start
        rcases eq_or_ne start entry with rfl | hne
        · simp only [follow, hfree, FileSystem.createFile_nodes_self]
          exact ⟨by simp, fun h => .inl (by rw [← Option.some.inj h])⟩
        · simp only [follow, fs.createFile_nodes_of_ne hne]
          cases fs.nodes start with
          | none => simp
          | some node =>
              cases node with
              | file ino => exact ⟨fun h => h, .inr⟩
              | symlink target =>
                  dsimp only
                  cases (k.ns fs).locateFrom start.dir target with
                  | none => simp
                  | some next => exact ih next
              | dirLink dir => simp
  cases hlocate : (k.ns fs).locate path with
  | none => simp [resolve, hns, hlocate]
  | some start =>
      simp only [resolve, hns, hlocate, Option.bind_some]
      exact hfollow _ start

end Kernel

end Dedup.Posix
