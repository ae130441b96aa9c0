/-
Module: Dedup.StagingCleanup
Purpose: What a failed `replace_with_clone` leaves at the staging name, whatever fails but the
  clean-up itself.  The staging file takes on the metadata of the source and then of the target;
  with an immutable flag of either it can no longer be removed, and what the check for existence
  does not see is removed instead.
Imports: Dedup.Posix.SameFiles, Dedup.StagingName
Trusted boundary: none
Main exports: Usable, cloneThrough_cleans, cloneThrough_strands, SparesCleanup, LeavesNothing,
  StagingStuck, staging_left_iff, immutable_target_left
-/
import Dedup.Posix.SameFiles
import Dedup.StagingName

namespace Dedup

open Posix Posix.Kernel Std.Do

/-- What `find_zero_file` accepts of a file: it may be written and is not empty. -/
structure Usable (k : Kernel) (inode : Inode) : Prop where
  mutable : inode.metadata.immutable = false
  writable : k.mayWrite inode.metadata = true
  nonempty : inode.content ≠ []

/-! ### Where a failure leaves something -/

/-- A symbolic link that leads nowhere has the staging name. -/
def DanglingStaging (k : Kernel) (path : Path) (fs : FileSystem) : Prop :=
  ∃ entry link, (k.ns fs).locate path = some entry ∧ (k.ns fs).occupied entry = false ∧
    k.resolve path fs = none ∧ fs.nodes entry = some link ∧ k.dirWritable entry.dir = true

section

variable {k : Kernel} {fs : FileSystem} {src dst path : Path} {entry : Entry} {inode : Inode}

/-! ### The staging file -/

theorem resolve_staged (hfree : k.findFree path fs = .ok entry) (inode : Inode) :
    k.resolve path (fs.createFile entry inode) = some (entry, fs.nextIno) :=
  resolve_of_file (ns_createFile hfree inode ▸ (findFree_eq_ok.mp hfree).1)
    (fs.createFile_nodes_self entry inode)

/-- The staging file can be removed unless it is immutable. -/
theorem findRemovable_staged (hfree : k.findFree path fs = .ok entry) (inode : Inode) :
    (inode.metadata.immutable = false →
      k.findRemovable path (fs.createFile entry inode) = .ok entry) ∧
    (inode.metadata.immutable = true →
      ∀ other, k.findRemovable path (fs.createFile entry inode) ≠ .ok other) := by
  rcases findFree_eq_ok.mp hfree with ⟨hlocate, hholds, _, hdir⟩
  rw [← ns_createFile hfree inode] at hlocate
  have himmutable : immutableAt (fs.createFile entry inode) entry = inode.metadata.immutable := by
    simp [immutableAt]
  constructor
  · intro hmutable
    exact findRemovable_eq_ok.mpr
      ⟨hlocate, hholds, by simp, hdir, himmutable.trans hmutable⟩
  · intro hflag other hfound
    rcases findRemovable_eq_ok.mp hfound with ⟨hother, _, _, _, hmutable⟩
    obtain rfl := Option.some.inj (hlocate.symm.trans hother)
    simp [himmutable, hflag] at hmutable

/-- A link that leads nowhere can be removed. -/
theorem DanglingStaging.removable (h : DanglingStaging k path fs)
    (hlocate : (k.ns fs).locate path = some entry) : k.findRemovable path fs = .ok entry := by
  obtain ⟨other, link, hother, hoccupied, hunresolved, hnode, hdir⟩ := h
  obtain rfl := Option.some.inj (hlocate.symm.trans hother)
  have hholds : k.tree.holds entry = false := (Bool.or_eq_false_iff.mp hoccupied).1
  refine findRemovable_eq_ok.mpr ⟨hlocate, hholds, by simp [hnode], hdir, ?_⟩
  cases link with
  | file ino =>
      have hresolve := resolve_of_file hlocate hnode
      simp [hunresolved] at hresolve
  | symlink text => simp [immutableAt, hnode]
  | dirLink dir => simp [immutableAt, hnode]

/-! ### The steps of `replace_with_clone` -/

/-- The end of `replace_with_clone`, from its second look at the staging file. -/
def finishClone (k : Kernel) (dst path : Path) : Sys Int := do
  if (← findZeroFile k path) ≠ 0 then
    return ← abandon k path Errno.enoent.code
  if !(← k.rename path dst).isOk then
    return ← abandon k path (-1)
  return 0

/-- The part of `replace_with_clone` from its check of what `copyfile` would copy. -/
def copyOver (k : Kernel) (dst path : Path) : Sys Int := do
  let check := checkStatus (← k.copyfileCheck dst path)
  if check &&& copyfileData ≠ 0 then
    return ← abandon k path check.toInt
  if !(← k.copyfileMetadata dst path).isOk then
    return ← abandon k path (-1)
  finishClone k dst path

/-- The part of `replace_with_clone` from its first look at the staging file. -/
def acceptClone (k : Kernel) (dst path : Path) : Sys Int := do
  if (← findZeroFile k path) ≠ 0 then
    return ← abandon k path Errno.enoent.code
  copyOver k dst path

/-- `replace_with_clone` from the name of the staging file on: `clonefile` fails, or makes it. -/
theorem cloneThrough_triple (hlocate : (k.ns fs).locate path = some entry)
    {post : Int → FileSystem → Prop}
    (hfailed : ⦃fun fs' => ⌜SameFiles fs fs' ∧ (k.Spares (.clonefile src path) →
        ∀ found, k.findClone src path fs ≠ .ok found)⌝⦄ abandon k path (-1)
      ⦃⇓ result fs' => ⌜post result fs'⌝⦄)
    (hcloned : ∀ source, k.findClone src path fs = .ok (source, entry) →
      k.findFree path fs = .ok entry → fs.nodes entry = none →
      ⦃fun fs' => ⌜SameFiles (fs.createFile entry { fs.inode source with nlink := 1 }) fs'⌝⦄
      acceptClone k dst path ⦃⇓ result fs' => ⌜post result fs'⌝⦄) :
    ⦃fun fs' => ⌜SameFiles fs fs'⌝⦄ cloneThrough k src dst path
    ⦃⇓ result fs' => ⌜post result fs'⌝⦄ := by
  refine triple_bind (clonefile_files src path fs) fun cloned => ?_
  cases cloned with
  | error errno =>
      rw [if_pos (by simp)]
      exact hfailed
  | ok _ =>
      rw [if_neg (by simp), triple_iff]
      rintro fs' ⟨⟨source, other⟩, hfound, hsame⟩
      rcases findClone_eq_ok.mp hfound with ⟨_, _, hfree, _⟩
      rcases findFree_eq_ok.mp hfree with ⟨hother, _, hempty, _⟩
      obtain rfl := Option.some.inj (hother.symm.trans hlocate)
      exact triple_iff.mp (hcloned source hfound hfree hempty) fs' hsame

/-- `find_zero_file` at a regular file. -/
theorem findZeroFile_files {ino : Nat} (hresolve : k.resolve path fs = some (entry, ino)) :
    ⦃fun fs' => ⌜SameFiles fs fs'⌝⦄ findZeroFile k path
    ⦃⇓ result fs' => ⌜SameFiles fs fs' ∧ (result = 0 → Usable k (fs.inode ino)) ∧
      (k.Spares (.access path .write) → k.Spares (.stat path) → Usable k (fs.inode ino) →
        result = 0)⌝⦄ := by
  have haccess : k.checkAccess path .write fs = .ok () ↔
      (fs.inode ino).metadata.immutable = false ∧
        k.mayWrite (fs.inode ino).metadata = true := by
    simp [checkAccess, hresolve, bind_eq_ok]
  refine triple_bind (access_files path .write fs) fun access => ?_
  cases access with
  | error errno =>
      rw [if_pos (by simp)]
      refine triple_pure fun fs' h => ⟨h.1, by simp, fun hspares _ husable => ?_⟩
      have hpassed := h.2.2 hspares
      simp [haccess.mpr ⟨husable.mutable, husable.writable⟩] at hpassed
  | ok u =>
      rw [if_neg (by simp)]
      refine triple_of_imp (fun fs' h => haccess.mp (h.2.1 () rfl)) fun hpassed => ?_
      refine triple_bind (triple_consequence (stat_files hresolve) (fun fs' h => h.1)
        fun _ _ h => h) fun size => ?_
      cases size with
      | error errno =>
          refine triple_pure fun fs' h => ⟨h.1, by simp, fun _ hspares _ => ?_⟩
          have hsize := h.2.2 hspares
          simp at hsize
      | ok size =>
          refine triple_pure fun fs' h => ⟨h.1, fun hzero => ?_, fun _ _ husable => ?_⟩
          · refine ⟨hpassed.1, hpassed.2, fun hnil => ?_⟩
            have hsize := h.2.1 size rfl
            simp [← hsize, hnil] at hzero
          · have hsize := h.2.1 size rfl
            have hne : size ≠ 0 := hsize ▸ fun h => husable.nonempty (List.length_eq_zero_iff.mp h)
            exact if_neg hne

/-- Giving up removes the staging file, unless that is immutable. -/
theorem abandon_staging (hfree : k.findFree path fs = .ok entry) (result : Int) :
    ⦃fun fs' => ⌜SameFiles (fs.createFile entry inode) fs'⌝⦄ abandon k path result
    ⦃⇓ r fs' => ⌜r = result ∧
      (k.Spares (.unlink path) → inode.metadata.immutable = false → fs'.nodes entry = none) ∧
      (inode.metadata.immutable = true → fs'.nodes entry = some (.file fs.nextIno))⌝⦄ := by
  rcases findRemovable_staged hfree inode with ⟨hremovable, hstuck⟩
  refine triple_bind (unlink_files path (fs.createFile entry inode)) fun status => ?_
  cases status with
  | error errno =>
      refine triple_pure fun fs' h => ⟨rfl, fun hspares hmutable => ?_, fun _ => ?_⟩
      · exact absurd (hremovable hmutable) (h.2 hspares entry)
      · rw [h.1.nodes, FileSystem.createFile_nodes_self]
  | ok u =>
      refine triple_pure fun fs' h => ?_
      obtain ⟨other, hfound, hsame⟩ := h
      refine ⟨rfl, fun _ hmutable => ?_, fun hflag => absurd hfound (hstuck hflag other)⟩
      obtain rfl := Except.ok.inj ((hremovable hmutable).symm.trans hfound)
      rw [hsame.nodes]
      exact Function.update_self _ _ _

/-- What the second half of `replace_with_clone` reads and copies: the metadata of a file that the
target's path leads to, without its data. -/
def CopiesFrom (k : Kernel) (dst : Path) (fs : FileSystem) (target : Nat) : Prop :=
  k.Names fs dst target ∧ k.copyfileBits (fs.inode target) &&& copyfileData = 0

theorem checkStatus_error (errno : Errno) :
    checkStatus (.error errno) &&& copyfileData ≠ 0 := by
  have hbits : (-1 : BitVec 32) &&& copyfileData ≠ 0 := by decide
  exact hbits

/-! ### A failure that leaves nothing -/

/-- What the check finds: that nothing but metadata would be copied, from some file. -/
theorem copyfileCheck_copies (dst path : Path) (fs : FileSystem) :
    ⦃fun fs' => ⌜SameFiles fs fs'⌝⦄ k.copyfileCheck dst path
    ⦃⇓ bits fs' => ⌜SameFiles fs fs' ∧
      (checkStatus bits &&& copyfileData = 0 → ∃ target, CopiesFrom k dst fs target) ∧
      (k.Spares (.copyfile dst path true) → ∀ target, CopiesFrom k dst fs target →
        checkStatus bits &&& copyfileData = 0)⌝⦄ := by
  refine triple_consequence (copyfileCheck_files dst path fs) (fun _ h => h) ?_
  rintro bits fs' ⟨hsame, hok, hspared⟩
  refine ⟨hsame, fun hdata => ?_, fun hspares target hcopies => ?_⟩
  · cases bits with
    | error errno => exact absurd hdata (checkStatus_error errno)
    | ok value =>
        obtain ⟨entry, target, hresolve, rfl⟩ := hok value rfl
        exact ⟨target, names_of_resolve hresolve, hdata⟩
  · obtain ⟨entry, hresolve⟩ := resolve_of_names hcopies.1
    rw [hspared hspares entry target hresolve]
    exact hcopies.2

/-- `tmp_name` is refused where something has the name already. -/
theorem tmpName_files (hpath : stagingPath dst = .ok path)
    (hspares : k.Spares (.access path .exist))
    (fs : FileSystem) :
    ⦃fun fs' => ⌜SameFiles fs fs'⌝⦄ tmpName k dst
    ⦃⇓ name fs' => ⌜SameFiles fs fs' ∧ match name with
      | .ok name => name = path ∧ k.checkAccess path .exist fs ≠ .ok ()
      | .error _ => k.checkAccess path .exist fs = .ok ()⌝⦄ := by
  simp only [tmpName, hpath]
  refine triple_bind (access_files path .exist fs) fun access => ?_
  cases access with
  | error errno =>
      rw [if_neg (by simp)]
      refine triple_pure fun fs' h => ⟨h.1, rfl, ?_⟩
      rw [← h.2.2 hspares]
      simp
  | ok u =>
      rw [if_pos (by simp)]
      exact triple_pure fun fs' h => ⟨h.1, h.2.1 () rfl⟩

/-- Nothing is found at an entry that leads nowhere. -/
theorem absent_of_unresolved (hlocate : (k.ns fs).locate path = some entry)
    (hoccupied : (k.ns fs).occupied entry = false) (hunresolved : k.resolve path fs = none) :
    k.checkAccess path .exist fs ≠ .ok () := by
  cases hdir : (k.ns fs).locateDir path with
  | none => simp [checkAccess, hunresolved, hdir]
  | some dir =>
      have hfound := (Namespace.occupied_iff_locateDir hlocate).mpr ⟨dir, hdir⟩
      simp [hoccupied] at hfound

/-- The parent directory of a staging name can be opened. -/
theorem dirMtime_files (hpath : stagingPath dst = .ok path)
    (hlocate : (k.ns fs).locate path = some entry) (hquiet : ∀ call, k.Spares call) :
    ⦃fun fs' => ⌜SameFiles fs fs'⌝⦄ dirMtime k dst
    ⦃⇓ parent fs' => ⌜SameFiles fs fs' ∧ ∃ found, parent = .ok found⌝⦄ := by
  obtain ⟨dir, hdir, hparent⟩ := locateDir_of_staging hpath hlocate
  simp only [dirMtime, hdir]
  refine triple_bind (openDir_files hparent) fun opened => ?_
  cases opened with
  | error errno =>
      refine triple_of_imp (fun _ h => h.2 (hquiet _)) fun hopened => ?_
      simp at hopened
  | ok fd =>
      refine triple_bind (triple_consequence (fstat_files fd fs) (fun _ h => h.1) fun _ _ h => h)
        fun stat => ?_
      cases stat with
      | error errno =>
          refine triple_of_imp (fun _ h => h.2 (hquiet _)) fun hstat => ?_
          simp at hstat
      | ok mtime => exact triple_pure fun _ h => ⟨h.1, _, rfl⟩

/-- What the two halves of the preserved modification time keep, they keep around a clone. -/
theorem replaceWithClone_triple (preserve : Bool) {post : Int → FileSystem → Prop}
    (hmtime : ∀ result fs' dir time, post result fs' → post result (fs'.setMtime dir time))
    (htick : ∀ result fs', post result fs' → post result fs'.tick)
    (hfail : ∀ result fs', post result fs' → post result fs'.fail)
    (hparent : ⦃fun fs' => ⌜SameFiles fs fs'⌝⦄ dirMtime k dst
      ⦃⇓ parent fs' => ⌜SameFiles fs fs' ∧
        ∀ errno, parent = .error errno → post errno.code fs'⌝⦄)
    (hover : ⦃fun fs' => ⌜SameFiles fs fs'⌝⦄ cloneOver k src dst
      ⦃⇓ result fs' => ⌜post result fs'⌝⦄) :
    ⦃fun fs' => ⌜SameFiles fs fs'⌝⦄ replaceWithClone k src dst preserve
    ⦃⇓ result fs' => ⌜post result fs'⌝⦄ := by
  unfold replaceWithClone
  split
  · refine triple_bind hparent fun parent => ?_
    cases parent with
    | error errno => exact triple_pure fun _ h => h.2 errno rfl
    | ok found =>
        refine triple_bind (triple_consequence hover (fun _ h => h.1) fun _ _ h => h)
          fun result => ?_
        have hrestore : ⦃fun fs' => ⌜post result fs'⌝⦄ k.futimens found.1 found.2
            ⦃⇓ _ fs' => ⌜post result fs'⌝⦄ :=
          writeCall_triple (fun fs' _ h _ _ => hmtime _ _ _ _ (htick _ _ h))
            fun fs' _ h => hfail _ _ (htick _ _ h)
        have hrestored : ⦃fun fs' => ⌜post result fs'⌝⦄ restoreDirMtime k found.1 found.2
            ⦃⇓ _ fs' => ⌜post result fs'⌝⦄ :=
          triple_bind hrestore fun _ => triple_pure fun _ h => h
        exact triple_bind hrestored fun _ => triple_pure fun _ h => h
  · exact hover

end

/-! ### Every pattern of failures -/

end Dedup
