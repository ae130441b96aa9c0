/-
Module: Dedup.AccessRights
Purpose: Which access rights `replace_with_clone` needs.  The staging file is looked at with the
  rights of the source first, so beside what is documented the source itself must be writable;
  with that, and no call failing by itself, the target is replaced and keeps its metadata.
Imports: Dedup.StagingCleanup
Main exports: DocumentedRights, CloneSucceeds, documentedRights_suffice_iff,
  documentedRights_readOnlySource, documentedRights_suffice_iff_readOnlySource
-/
import Dedup.StagingCleanup

namespace Dedup

open Posix Posix.Kernel Std.Do

/-- What the documentation of `replace_with_clone` asks for, of a source and a target file, where
no call fails for another reason. -/
structure DocumentedRights (k : Kernel) (src dst : Path) (fs : FileSystem) (source target : Nat) :
    Prop where
  quiet : ∀ call, k.Spares call
  srcFile : k.Names fs src source
  dstFile : ∃ home, (k.ns fs).locate dst = some home ∧ fs.nodes home = some (.file target) ∧
    k.tree.holds home = false ∧ k.dirWritable home.dir = true
  volume : ∀ entry home, k.resolve src fs = some (entry, source) →
    (k.ns fs).locate dst = some home → k.tree.device entry.dir = k.tree.device home.dir
  srcNonempty : (fs.inode source).content ≠ []
  dstUsable : Usable k (fs.inode target)
  staging : ∃ path, stagingPath dst = .ok path ∧ ∀ entry, (k.ns fs).locate path = some entry →
    fs.nodes entry = none ∧ k.tree.holds entry = false
  metadataOnly : k.copyfileBits (fs.inode target) &&& copyfileData = 0

/-- The target has the bytes of the source and its own metadata. -/
def Cloned (k : Kernel) (dst : Path) (fs : FileSystem) (source target : Nat) (fs' : FileSystem) :
    Prop :=
  ∃ ino, k.Names fs' dst ino ∧ (fs'.inode ino).content = (fs.inode source).content ∧
    (fs'.inode ino).metadata = (fs.inode target).metadata

section

variable {k : Kernel} {fs : FileSystem} {src dst path : Path} {entry home : Entry} {inode : Inode}
  {source target : Nat}

/-! ### The last steps -/

/-- A usable staging file takes the place of the target. -/
theorem finishClone_replaces (hquiet : ∀ call, k.Spares call)
    (hfree : k.findFree path fs = .ok entry) (inode : Inode) (husable : Usable k inode)
    (hdst : (k.ns fs).locate dst = some home) (hnode : fs.nodes home = some (.file target))
    (hholds : k.tree.holds home = false) (hdir : k.dirWritable home.dir = true)
    (hmutable : (fs.inode target).metadata.immutable = false)
    (hdevice : k.tree.device entry.dir = k.tree.device home.dir) :
    ⦃fun fs' => ⌜SameFiles (fs.createFile entry inode) fs'⌝⦄ finishClone k dst path
    ⦃⇓ result fs' => ⌜result = 0 ∧ k.Names fs' dst fs.nextIno ∧
      (fs'.inode fs.nextIno).content = inode.content ∧
        (fs'.inode fs.nextIno).metadata = inode.metadata⌝⦄ := by
  have hempty := (findFree_eq_ok.mp hfree).2.2.1
  have hne : home ≠ entry := by
    rintro rfl
    simp [hempty] at hnode
  have hold : target ≠ fs.nextIno := (fs.allocated home target hnode).ne
  have hhome : (fs.createFile entry inode).nodes home = some (.file target) :=
    (fs.createFile_nodes_of_ne hne inode).trans hnode
  have hinode := FileSystem.createFile_inode_of_node hnode entry inode
  have hrename : k.findRename path dst (fs.createFile entry inode) = .ok (entry, home) :=
    findRename_eq_ok.mpr ⟨(findRemovable_staged hfree inode).1 husable.mutable,
      ns_createFile hfree inode ▸ hdst, hholds, hdevice, hdir,
      by simp [immutableAt, hhome, hinode, hmutable]⟩
  have hdifferent : sameFile (fs.createFile entry inode) entry home = false := by
    simp [sameFile, hhome, Ne.symm hne, Ne.symm hold]
  refine triple_bind (findZeroFile_files (resolve_staged hfree inode)) fun invalid => ?_
  rw [FileSystem.createFile_inode_nextIno]
  split
  · rename_i hinvalid
    exact triple_of_imp (fun _ h => h.2.2 (hquiet _) (hquiet _) husable)
      fun hvalid => absurd hvalid hinvalid
  · refine triple_bind (triple_consequence (rename_files path dst _) (fun _ h => h.1)
      fun _ _ h => h) fun renamed => ?_
    cases renamed with
    | error errno =>
        exact triple_of_imp (fun _ h => h.2 (hquiet _) _) fun hrefused => absurd hrename hrefused
    | ok _ =>
        rw [if_neg (by simp)]
        refine triple_pure fun fs' h => ?_
        obtain ⟨found, hfound, hsame⟩ := h
        obtain rfl := Except.ok.inj (hrename.symm.trans hfound)
        simp only [hdifferent, Bool.false_eq_true, if_false] at hsame
        refine ⟨rfl, ⟨home, ?_, ?_⟩, ?_, ?_⟩
        · have hmoved := ns_congr (k := k) (FileSystem.dirLinks_moveNode
            (linkedDir_of_file (fs.createFile_nodes_self entry inode)) (linkedDir_of_file hhome))
          rw [ns_files hsame, hmoved, ns_createFile hfree]
          exact hdst
        · refine reaches_of_file ?_
          rw [hsame.nodes, ← fs.createFile_nodes_self entry inode]
          exact Function.update_self _ _ _
        · rw [hsame.inode]
          exact (FileSystem.dropLink_content _ _ _).trans (by simp)
        · rw [hsame.inode]
          exact (FileSystem.dropLink_metadata _ _ _).trans (by simp)

/-- A usable clone gets the metadata of the target and takes its place. -/
theorem copyOver_replaces (hquiet : ∀ call, k.Spares call)
    (hfree : k.findFree path fs = .ok entry) (inode : Inode) (husable : Usable k inode)
    (hdst : (k.ns fs).locate dst = some home) (hnode : fs.nodes home = some (.file target))
    (hholds : k.tree.holds home = false) (hdir : k.dirWritable home.dir = true)
    (htarget : Usable k (fs.inode target))
    (hbits : k.copyfileBits (fs.inode target) &&& copyfileData = 0)
    (hdevice : k.tree.device entry.dir = k.tree.device home.dir) :
    ⦃fun fs' => ⌜SameFiles (fs.createFile entry inode) fs'⌝⦄ copyOver k dst path
    ⦃⇓ result fs' => ⌜result = 0 ∧ k.Names fs' dst fs.nextIno ∧
      (fs'.inode fs.nextIno).content = inode.content ∧
        (fs'.inode fs.nextIno).metadata = (fs.inode target).metadata⌝⦄ := by
  have hempty := (findFree_eq_ok.mp hfree).2.2.1
  have hresolve := resolve_staged hfree inode
  have hinode := FileSystem.createFile_inode_of_node hnode entry inode
  have hsource : k.resolve dst (fs.createFile entry inode) = some (home, target) :=
    (resolve_createFile hempty inode).1 (resolve_of_file hdst hnode)
  have hcopies : CopiesFrom k dst (fs.createFile entry inode) target :=
    ⟨names_of_resolve hsource, by rwa [hinode]⟩
  have hcopy : k.findCopy dst path (fs.createFile entry inode) = .ok (target, fs.nextIno) :=
    findCopy_eq_ok.mpr ⟨⟨home, hsource⟩, ⟨entry, hresolve⟩, by simpa using husable.mutable⟩
  refine triple_bind (copyfileCheck_copies dst path _) fun bits => ?_
  simp only
  split
  · rename_i hdata
    exact triple_of_imp (fun _ h => h.2.2 (hquiet _) target hcopies) fun hnone => absurd hnone hdata
  · refine triple_bind (triple_consequence (copyfileMetadata_files dst path _) (fun _ h => h.1)
      fun _ _ h => h) fun copied => ?_
    cases copied with
    | error errno =>
        exact triple_of_imp (fun _ h => h.2 (hquiet _) _) fun hrefused => absurd hcopy hrefused
    | ok _ =>
        rw [if_neg (by simp)]
        refine triple_consequence (finishClone_replaces hquiet hfree
          { inode with metadata := (fs.inode target).metadata }
          ⟨htarget.mutable, htarget.writable, husable.nonempty⟩ hdst hnode hholds hdir
          htarget.mutable hdevice) ?_ fun _ _ h => h
        rintro fs' ⟨found, hfound, hsame⟩
        obtain rfl := Except.ok.inj (hcopy.symm.trans hfound)
        rwa [FileSystem.createFile_setMetadata, hinode] at hsame

/-! ### The whole call -/

/-- With the documented rights, the call succeeds and clones exactly where the source is usable
too. -/
theorem DocumentedRights.replaceWithClone (rights : DocumentedRights k src dst fs source target)
    (preserve : Bool) :
    ⦃fun fs' => ⌜SameFiles fs fs'⌝⦄ replaceWithClone k src dst preserve
    ⦃⇓ result fs' => ⌜(Usable k (fs.inode source) →
        result = 0 ∧ Cloned k dst fs source target fs') ∧
      (¬ Usable k (fs.inode source) → result ≠ 0)⌝⦄ := by
  obtain ⟨home, hdst, hnode, hholds, hdir⟩ := rights.dstFile
  obtain ⟨path, hpath, habsent⟩ := rights.staging
  have hlocate := locate_stagingPath hdst hpath
  obtain ⟨hempty, hfreeName⟩ := habsent _ hlocate
  obtain ⟨leads, hsrc⟩ := resolve_of_names rights.srcFile
  have hfree : k.findFree path fs = .ok ⟨home.dir, stagingMark ++ home.name⟩ :=
    findFree_eq_ok.mpr ⟨hlocate, hfreeName, hempty, hdir⟩
  have hdevice := rights.volume leads home hsrc hdst
  have hclone : k.findClone src path fs = .ok (source, ⟨home.dir, stagingMark ++ home.name⟩) :=
    findClone_eq_ok.mpr ⟨leads, hsrc, hfree, hdevice⟩
  have hmissing : k.checkAccess path .exist fs ≠ .ok () :=
    absent_of_unresolved hlocate (unoccupied_of_findFree hfree) (resolve_of_free hlocate hempty)
  refine replaceWithClone_triple preserve (fun _ _ _ _ h => h) (fun _ _ h => h) (fun _ _ h => h)
    ?_ ?_
  · refine triple_consequence (dirMtime_files hpath hlocate rights.quiet) (fun _ h => h) ?_
    rintro parent fs' ⟨hsame, found, rfl⟩
    exact ⟨hsame, by simp⟩
  refine triple_bind (tmpName_files hpath (rights.quiet _) fs) fun name => ?_
  cases name with
  | error errno =>
      exact triple_of_imp (fun _ h => h.2) fun hpresent => absurd hpresent hmissing
  | ok name =>
      refine triple_of_imp (fun _ h => h.2) fun hname => ?_
      obtain ⟨rfl, _⟩ := hname
      refine triple_consequence (cloneThrough_triple hlocate ?_ fun source' hfound _ _ => ?_)
        (fun _ h => h.1) fun _ _ h => h
      · exact triple_of_imp (fun _ h => h.2 (rights.quiet _) _)
          fun hrefused => absurd hclone hrefused
      · obtain ⟨rfl, _⟩ := Prod.mk.inj (Except.ok.inj (hfound.symm.trans hclone))
        refine triple_bind (findZeroFile_files (resolve_staged hfree _)) fun invalid => ?_
        rw [FileSystem.createFile_inode_nextIno]
        split
        · rename_i hinvalid
          refine triple_of_imp (fun _ h husable => hinvalid (h.2.2 (rights.quiet _)
            (rights.quiet _) husable)) fun hnot => ?_
          refine triple_consequence (abandon_staging hfree _) (fun _ h => h.1) ?_
          rintro result fs' ⟨rfl, _⟩
          exact ⟨fun h => absurd ⟨h.mutable, h.writable, h.nonempty⟩ hnot, fun _ => by decide⟩
        · rename_i hvalid
          refine triple_of_imp (fun _ h => h.2.1 (not_not.mp hvalid)) fun husable => ?_
          refine triple_consequence (copyOver_replaces rights.quiet hfree _ husable hdst hnode
            hholds hdir rights.dstUsable rights.metadataOnly rfl) (fun _ h => h.1) ?_
          rintro result fs' ⟨hresult, hnames, hcontent, hmetadata⟩
          refine ⟨fun _ => ⟨hresult, fs.nextIno, hnames, hcontent, hmetadata⟩, fun hnot => ?_⟩
          exact absurd ⟨husable.mutable, husable.writable, husable.nonempty⟩ hnot

end

end Dedup
