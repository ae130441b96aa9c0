/-
Module: Dedup.CloneSafety
Purpose: Clone mode and the files of the user.  Over a whole run of `deduplicate`, with calls that
  fail at any time, every path that named a regular file goes on to name one with the same bytes
  and metadata, and a path recorded with several links its inode, unless the check for a staging
  file fails in a replacement where the user has a file, or a link to a directory, of that name.
Imports: Dedup.Replace
Main exports: Keeps, SparesReplacement, replaceWithClone_keeps, SparesAll, cloneMode_keeps_files,
  cloneOver_loses_staging, cloneMode_loses_staging_file
-/
import Dedup.Replace

namespace Dedup

open Posix Posix.Kernel Std.Do

/-! ### What is kept -/

/-- An inode stands for an inode of before: it has its bytes and its metadata, and is that inode
where it had several names. -/
structure StandsFor (before after : Nat → Inode) (ino ino' : Nat) : Prop where
  content : (after ino').content = (before ino).content
  metadata : (after ino').metadata = (before ino).metadata
  linked : 1 < (before ino).nlink → ino' = ino

/-- An entry that led to an inode is as it was, or holds a file that stands for it. -/
def KeepsAt (before fs : FileSystem) (entry : Entry) (ino : Nat) : Prop :=
  (fs.nodes entry = before.nodes entry ∧
      (before.nodes entry = some (.file ino) → StandsFor before.inode fs.inode ino ino)) ∨
    ∃ ino', fs.nodes entry = some (.file ino') ∧ StandsFor before.inode fs.inode ino ino'

/-- The links to directories lead where they did, and every entry that led to a regular file is
kept. -/
def Keeps (k : Kernel) (before fs : FileSystem) : Prop :=
  k.ns fs = k.ns before ∧
    ∀ entry ino, Reaches (k.ns before) before.nodes entry ino → KeepsAt before fs entry ino

/-- A staging file: nothing else is named like it, nothing that led to a file before, and what it
holds is good. -/
structure StagedAt (k : Kernel) (before : FileSystem) (path : Path) (good : Inode → Prop)
    (fs : FileSystem) (entry : Entry) (ino : Nat) : Prop where
  keeps : Keeps k before fs
  located : (k.ns before).locate path = some entry
  node : fs.nodes entry = some (.file ino)
  alone : ∀ other, fs.nodes other = some (.file ino) → other = entry
  vacant : (k.ns before).occupied entry = false
  unreached : ∀ ino', ¬ Reaches (k.ns before) before.nodes entry ino'
  holds : good (fs.inode ino)

/-- The files are kept and a staging file is there. -/
def Staged (k : Kernel) (before : FileSystem) (path : Path) (good : Inode → Prop)
    (fs : FileSystem) : Prop :=
  ∃ entry ino, StagedAt k before path good fs entry ino

/-- What stands at a path may not be taken away: it is a directory, or the rights forbid it. -/
def Unremovable (k : Kernel) (before : FileSystem) (path : Path) : Prop :=
  ∀ entry, (k.ns before).locate path = some entry →
    k.tree.holds entry = true ∨ k.dirWritable entry.dir = false ∨
      immutableAt before entry = true

/-- An `unlink` of the path at a time is refused, if the path led somewhere before: to a file, or
by a symbolic link to a directory. -/
def Refused (k : Kernel) (before : FileSystem) (path : Path) (time : Nat) : Prop :=
  k.checkAccess path .exist before = .ok () →
    k.fault time (.unlink path) ≠ none ∨ Unremovable k before path

/-- Where the check for the staging file fails now, although something stood there before, the
`unlink` two calls later is refused. -/
def SparesStaging (k : Kernel) (before : FileSystem) (dst : Path) (fs : FileSystem) : Prop :=
  ∀ path, stagingPath dst = .ok path → k.fault fs.clock (.access path .exist) ≠ none →
    Refused k before path (fs.clock + 2)

/-- A replacement by a clone spares its staging name: in the state in which it checks for the file,
if it comes to that. -/
def SparesReplacement (k : Kernel) (before : FileSystem) (preserve : Bool) (dst : Path)
    (fs : FileSystem) : Prop :=
  if preserve then
    ∀ opened fs', dirMtime k dst fs = (.ok opened, fs') → SparesStaging k before dst fs'
  else SparesStaging k before dst fs

section

variable {k : Kernel} {before fs fs' : FileSystem}

theorem Keeps.refl (k : Kernel) (fs : FileSystem) : Keeps k fs fs :=
  ⟨rfl, fun _ _ _ => .inl ⟨rfl, fun _ => ⟨rfl, rfl, fun _ => rfl⟩⟩⟩

/-- A path that named a file names one that stands for it. -/
theorem Keeps.names (h : Keeps k before fs) {path : Path} {ino : Nat}
    (hnames : k.Names before path ino) :
    ∃ ino', k.Names fs path ino' ∧ StandsFor before.inode fs.inode ino ino' := by
  rcases hnames with ⟨entry, hlocate, hreaches⟩
  rcases reaches_of_kept h.2 hreaches with ⟨ino', hreaches', hstands⟩
  rw [← h.1] at hlocate hreaches'
  exact ⟨ino', ⟨entry, hlocate, hreaches'⟩, hstands⟩

/-- What stands at an entry that led to a file. -/
theorem Keeps.node (h : Keeps k before fs) {entry : Entry} {ino ino' : Nat}
    (hreaches : Reaches (k.ns before) before.nodes entry ino)
    (hnode : fs.nodes entry = some (.file ino')) :
    StandsFor before.inode fs.inode ino ino' := by
  rcases h.2 entry ino hreaches with ⟨hsame, hstands⟩ | ⟨other, hother, hstands⟩
  · have hfile : before.nodes entry = some (.file ino') := hsame.symm.trans hnode
    obtain rfl := (reaches_of_file hfile).unique hreaches
    exact hstands hfile
  · obtain rfl : other = ino' := by simpa [hother] using hnode
    exact hstands

/-- What stands at an entry that led to a file is no link to a directory. -/
theorem Keeps.no_dirLink (h : Keeps k before fs) {entry : Entry} {ino : Nat}
    (hreaches : Reaches (k.ns before) before.nodes entry ino) :
    linkedDir (fs.nodes entry) = none := by
  rcases h.2 entry ino hreaches with ⟨hsame, _⟩ | ⟨ino', hnode, _⟩
  · rw [hsame]
    exact hreaches.no_dirLink
  · exact linkedDir_of_file hnode

/-- Something stands at an entry that led to a file. -/
theorem Keeps.occupied (h : Keeps k before fs) {entry : Entry} {ino : Nat}
    (hreaches : Reaches (k.ns before) before.nodes entry ino) : fs.nodes entry ≠ none := by
  rcases h.2 entry ino hreaches with ⟨hsame, _⟩ | ⟨ino', hnode, _⟩
  · rcases hreaches.occupied with ⟨node, hnode⟩
    simp [hsame, hnode]
  · simp [hnode]

/-- A change elsewhere: an entry has its node, and the file at it its bytes and metadata. -/
theorem Keeps.congr_at (h : Keeps k before fs) {entry : Entry} {ino : Nat}
    (hreaches : Reaches (k.ns before) before.nodes entry ino)
    (node : fs'.nodes entry = fs.nodes entry)
    (data : ∀ ino', fs.nodes entry = some (.file ino') →
      (fs'.inode ino').content = (fs.inode ino').content ∧
        (fs'.inode ino').metadata = (fs.inode ino').metadata) :
    KeepsAt before fs' entry ino := by
  have hstands : ∀ ino', fs.nodes entry = some (.file ino') →
      StandsFor before.inode fs'.inode ino ino' := by
    intro ino' hnode
    rcases data ino' hnode with ⟨hcontent, hmetadata⟩
    have hold := h.node hreaches hnode
    exact ⟨hcontent.trans hold.content, hmetadata.trans hold.metadata, hold.linked⟩
  rcases h.2 entry ino hreaches with ⟨hsame, _⟩ | ⟨ino', hnode, _⟩
  · exact .inl ⟨node.trans hsame, fun hfile => hstands ino (hsame.trans hfile)⟩
  · exact .inr ⟨ino', node.trans hnode, hstands ino' hnode⟩

/-! ### The calls of one replacement -/

/-- What may be taken away now might have been before. -/
theorem Keeps.removable (h : Keeps k before fs) {path : Path} {entry : Entry} {ino : Nat}
    (hreaches : Reaches (k.ns before) before.nodes entry ino)
    (hfound : k.findRemovable path fs = .ok entry) :
    k.findRemovable path before = .ok entry := by
  rcases findRemovable_eq_ok.mp hfound with ⟨hlocate, hholds, hnode, hdir, himmutable⟩
  refine findRemovable_eq_ok.mpr ⟨h.1 ▸ hlocate, hholds, ?_, hdir, ?_⟩
  · rcases hreaches.occupied with ⟨node, hbefore⟩
    simp [hbefore]
  · cases hbefore : before.nodes entry with
    | none => simp [immutableAt, hbefore]
    | some node =>
        cases node with
        | symlink text => simp [immutableAt, hbefore]
        | dirLink dir => simp [immutableAt, hbefore]
        | file ino' =>
            obtain rfl := (reaches_of_file hbefore).unique hreaches
            rcases h.2 entry ino' hreaches with ⟨hsame, hstands⟩ | ⟨other, hother, hstands⟩
            · have hmetadata := (hstands hbefore).metadata
              simpa [immutableAt, hbefore, hsame, hmetadata] using himmutable
            · simpa [immutableAt, hbefore, hother, hstands.metadata] using himmutable

/-- The staging file may go: nothing stood at its name before. -/
theorem Staged.refused {path : Path} {good : Inode → Prop} (h : Staged k before path good fs)
    (time : Nat) : Refused k before path time := by
  rcases h with ⟨entry, ino, hstaged⟩
  intro hled
  rcases checkAccess_exist_eq_ok.mp hled with ⟨ino', entry', hlocate, hreaches⟩ | ⟨dir, hdir⟩
  · obtain rfl : entry = entry' := Option.some.inj (hstaged.located.symm.trans hlocate)
    exact absurd hreaches (hstaged.unreached ino')
  · have hoccupied := (Namespace.occupied_iff_locateDir hstaged.located).mpr ⟨dir, hdir⟩
    simp [hstaged.vacant] at hoccupied

theorem Staged.keeps {path : Path} {good : Inode → Prop} (h : Staged k before path good fs) :
    Keeps k before fs := by
  rcases h with ⟨entry, ino, hstaged⟩
  exact hstaged.keeps

theorem Staged.tick {path : Path} {good : Inode → Prop} (h : Staged k before path good fs) :
    Staged k before path good fs.tick := by
  rcases h with ⟨entry, ino, keeps, located, node, alone, vacant, unreached, holds⟩
  exact ⟨entry, ino, keeps, located, node, alone, vacant, unreached, holds⟩

theorem Staged.fail {path : Path} {good : Inode → Prop} (h : Staged k before path good fs) :
    Staged k before path good fs.fail := by
  rcases h with ⟨entry, ino, keeps, located, node, alone, vacant, unreached, holds⟩
  exact ⟨entry, ino, keeps, located, node, alone, vacant, unreached, holds⟩

/-- What `unlink` takes away although it is refused for what stood there before led nowhere. -/
theorem Refused.unreached {path : Path} {entry : Entry} (hrefused : Refused k before path fs.clock)
    (h : Keeps k before fs) (hfault : k.fault fs.clock (.unlink path) = none)
    (hfound : k.findRemovable path fs = .ok entry) :
    (∀ ino, ¬ Reaches (k.ns before) before.nodes entry ino) ∧
      (k.ns before).dirLink entry = none := by
  rcases findRemovable_eq_ok.mp hfound with ⟨hlocate, hholds, _, hdir, _⟩
  rw [h.1] at hlocate
  -- only an immutable file would be left
  have hstuck : k.checkAccess path .exist before = .ok () → immutableAt before entry = true := by
    intro hled
    rcases hrefused hled with hrefused | hrefused
    · exact absurd hfault hrefused
    · rcases hrefused entry hlocate with hisDir | hlocked | himmutable
      · simp [hholds] at hisDir
      · simp [hdir] at hlocked
      · exact himmutable
  constructor
  · intro ino hreaches
    have himmutable := hstuck (checkAccess_exist_eq_ok.mpr (.inl ⟨ino, entry, hlocate, hreaches⟩))
    have hmutable := (findRemovable_eq_ok.mp (h.removable hreaches hfound)).2.2.2.2
    simp [himmutable] at hmutable
  · by_contra hlink
    have hoccupied : (k.ns before).occupied entry = true := by
      simp [Namespace.occupied, Option.isSome_iff_ne_none, hlink]
    have himmutable := hstuck (checkAccess_exist_eq_ok.mpr
      (.inr ((Namespace.occupied_iff_locateDir hlocate).mp hoccupied)))
    unfold immutableAt at himmutable
    split at himmutable
    · rename_i ino hnode
      simp [ns, DirTree.withLinks, FileSystem.dirLinks, hnode, linkedDir] at hlink
    · simp at himmutable

/-- `unlink` where it is refused for what stood there before. -/
theorem unlink_keeps (path : Path) :
    ⦃fun fs => ⌜Keeps k before fs ∧ Refused k before path fs.clock⌝⦄ k.unlink path
    ⦃⇓ _ fs => ⌜Keeps k before fs⌝⦄ := by
  refine writeCall_triple ?_ fun fs errno h => h.1
  rintro fs entry ⟨hkeeps, hrefused⟩ hfault hfound
  obtain ⟨hunreached, hlink⟩ := hrefused.unreached hkeeps hfault hfound
  have hns : k.ns (fs.removeNode entry) = k.ns fs :=
    ns_of_changed (fun other hother => Function.update_of_ne hother _ _)
      (by rw [hkeeps.1, hlink]) (by simp [FileSystem.removeNode, linkedDir])
  refine ⟨hns.trans hkeeps.1, fun other ino hreaches => ?_⟩
  refine hkeeps.congr_at hreaches ?_ fun ino' _ => ?_
  · have hother : other ≠ entry := fun heq => hunreached ino (heq ▸ hreaches)
    exact Function.update_of_ne hother _ _
  · exact ⟨FileSystem.dropLink_content _ _ _, FileSystem.dropLink_metadata _ _ _⟩

theorem abandon_keeps (path : Path) (result : Int) :
    ⦃fun fs => ⌜Keeps k before fs ∧ Refused k before path fs.clock⌝⦄ abandon k path result
    ⦃⇓ _ fs => ⌜Keeps k before fs⌝⦄ := by
  apply Triple.bind _ _ (unlink_keeps path)
  intro _
  exact Triple.pure _ .rfl

theorem abandon_staged (path : Path) (result : Int) (good : Inode → Prop) :
    ⦃fun fs => ⌜Staged k before path good fs⌝⦄ abandon k path result
    ⦃⇓ _ fs => ⌜Keeps k before fs⌝⦄ :=
  triple_consequence (abandon_keeps path result)
    (fun fs h => ⟨h.keeps, h.refused fs.clock⟩) fun _ _ h => h

/-- `clonefile` makes the staging file, or leaves an `unlink` at the next time refused. -/
theorem clonefile_staged {src path : Path} {content : List UInt8} {ino : Nat}
    (hsrc : k.Names before src ino) (hcontent : (before.inode ino).content = content) :
    ⦃fun fs => ⌜Keeps k before fs ∧ Refused k before path (fs.clock + 1)⌝⦄ k.clonefile src path
    ⦃⇓ result fs => ⌜match result with
      | .ok _ => Staged k before path (fun inode => inode.content = content) fs
      | .error _ => Keeps k before fs ∧ Refused k before path fs.clock⌝⦄ := by
  refine writeCall_triple ?_ fun fs errno h => h
  rintro fs ⟨source, entry⟩ ⟨hkeeps, _⟩ _ hfound
  rcases findClone_eq_ok.mp hfound with ⟨_, hresolve, hfree, _⟩
  rcases findFree_eq_ok.mp hfree with ⟨hlocate, _, hnode, _⟩
  have hvacant : (k.ns before).occupied entry = false := hkeeps.1 ▸ unoccupied_of_findFree hfree
  have hunreached : ∀ ino, ¬ Reaches (k.ns before) before.nodes entry ino :=
    fun ino hreaches => hkeeps.occupied hreaches hnode
  have hsource : (fs.inode source).content = content := by
    rcases hkeeps.names hsrc with ⟨ino', hnames, hstands⟩
    obtain rfl := (names_of_resolve hresolve).unique hnames
    exact hstands.content.trans hcontent
  refine ⟨entry, fs.nextIno, ⟨?_, ?_⟩, hkeeps.1 ▸ hlocate, Function.update_self _ _ _, ?_, hvacant,
    hunreached, ?_⟩
  · exact (ns_createFile hfree { fs.inode source with nlink := 1 }).trans hkeeps.1
  · intro other ino hreaches
    refine hkeeps.congr_at hreaches ?_ fun ino' hfile => ?_
    · have hother : other ≠ entry := fun heq => hunreached ino (heq ▸ hreaches)
      exact Function.update_of_ne hother _ _
    · have hino : ino' ≠ fs.nextIno := (fs.allocated other ino' hfile).ne
      simp [FileSystem.createFile, FileSystem.touch, FileSystem.tick, Function.update_of_ne hino]
  · intro other hfile
    by_contra hother
    have hold : fs.nodes other = some (.file fs.nextIno) := by
      rwa [← Function.update_of_ne hother (some (Node.file fs.nextIno)) fs.nodes]
    exact absurd (fs.allocated other _ hold) (lt_irrefl _)
  · simp [FileSystem.createFile, FileSystem.touch, FileSystem.tick, hsource]

/-- `find_zero_file` only reads. -/
theorem findZeroFile_staged (path : Path) (good : Inode → Prop) :
    ⦃fun fs => ⌜Staged k before path good fs⌝⦄ findZeroFile k path
    ⦃⇓ _ fs => ⌜Staged k before path good fs⌝⦄ :=
  findZeroFile_triple _ path (fun _ => Staged.tick) fun _ => Staged.fail

theorem copyfileCheck_staged (dst path : Path) (good : Inode → Prop) :
    ⦃fun fs => ⌜Staged k before path good fs⌝⦄ k.copyfileCheck dst path
    ⦃⇓ _ fs => ⌜Staged k before path good fs⌝⦄ :=
  readCall_triple _ (fun _ => Staged.tick) fun _ => Staged.fail

/-- Another inode record for the staging file. -/
theorem Staged.setMetadata {path : Path} {good : Inode → Prop}
    (h : Staged k before path good fs) {entry : Entry} {ino : Nat} {metadata : Metadata}
    (hresolve : k.resolve path fs = some (entry, ino)) {good' : Inode → Prop}
    (hgood : ∀ inode, good inode → good' { inode with metadata := metadata }) :
    Staged k before path good' (fs.setMetadata ino metadata) := by
  rcases h with ⟨staged, ino', hstaged⟩
  obtain rfl : ino' = ino :=
    Names.unique ⟨staged, hstaged.keeps.1 ▸ hstaged.located, reaches_of_file hstaged.node⟩
      (names_of_resolve hresolve)
  refine ⟨staged, ino', ⟨hstaged.keeps.1, ?_⟩, hstaged.located, hstaged.node, hstaged.alone,
    hstaged.vacant, hstaged.unreached, ?_⟩
  · intro other ino hreaches
    refine hstaged.keeps.congr_at hreaches rfl fun other' hfile => ?_
    have hino : other' ≠ ino' := by
      rintro rfl
      exact hstaged.unreached ino (hstaged.alone other hfile ▸ hreaches)
    simp [FileSystem.setMetadata, Function.update_of_ne hino]
  · simpa [FileSystem.setMetadata] using hgood _ hstaged.holds

/-- `copyfile` gives the staging file the metadata of the file it stands in for. -/
theorem copyfileMetadata_staged {dst path : Path} {content : List UInt8} {ino : Nat}
    (hdst : k.Names before dst ino) :
    ⦃fun fs => ⌜Staged k before path (fun inode => inode.content = content) fs⌝⦄
    k.copyfileMetadata dst path
    ⦃⇓ result fs => ⌜match result with
      | .ok _ => Staged k before path (fun inode => inode.content = content ∧
          inode.metadata = (before.inode ino).metadata) fs
      | .error _ => Staged k before path (fun inode => inode.content = content) fs⌝⦄ := by
  rw [triple_iff]
  intro fs h
  unfold copyfileMetadata
  cases houtcome : k.outcome (.copyfile dst path false) (k.findCopy dst path) fs with
  | ok found =>
      rcases outcome_eq_ok.mp houtcome with ⟨_, hfound⟩
      rcases findCopy_eq_ok.mp hfound with ⟨⟨_, hsource⟩, ⟨_, htarget⟩, _⟩
      have hmetadata : (fs.inode found.1).metadata = (before.inode ino).metadata := by
        rcases h.keeps.names hdst with ⟨ino', hnames, hstands⟩
        obtain rfl := (names_of_resolve hsource).unique hnames
        exact hstands.metadata
      exact h.tick.setMetadata htarget fun inode hinode => ⟨hinode, hmetadata⟩
  | error errno =>
      cases hresolve : k.resolve path fs with
      | none => exact h.tick.fail
      | some target => exact (h.tick.setMetadata hresolve fun inode hinode => hinode).fail

/-- `rename` puts the staging file in the place of a file it stands for. -/
theorem rename_keeps {dst path : Path} {content : List UInt8} {ino : Nat}
    (hdst : k.Names before dst ino) (hcontent : (before.inode ino).content = content)
    (hsingle : (before.inode ino).nlink ≤ 1) :
    ⦃fun fs => ⌜Staged k before path (fun inode => inode.content = content ∧
      inode.metadata = (before.inode ino).metadata) fs⌝⦄ k.rename path dst
    ⦃⇓ result fs => ⌜match result with
      | .ok _ => Keeps k before fs
      | .error _ => Staged k before path (fun inode => inode.content = content ∧
          inode.metadata = (before.inode ino).metadata) fs⌝⦄ := by
  refine writeCall_triple ?_ fun fs errno h => h.tick.fail
  rintro fs ⟨source, entry⟩ ⟨staged, stagedIno, h⟩ _ hfound
  rcases findRename_eq_ok.mp hfound with ⟨hremovable, hentry, _⟩
  have hsource := (findRemovable_eq_ok.mp hremovable).1
  rw [h.keeps.1] at hsource hentry
  obtain rfl : staged = source := Option.some.inj (h.located.symm.trans hsource)
  rcases hdst with ⟨entry', hlocate, hreaches⟩
  obtain rfl : entry = entry' := Option.some.inj (hentry.symm.trans hlocate)
  simp only
  split
  · exact h.keeps
  · refine ⟨?_, fun other otherIno hother => ?_⟩
    · have hns := ns_congr (k := k) (FileSystem.dirLinks_moveNode (linkedDir_of_file h.node)
        (h.keeps.no_dirLink hreaches))
      exact hns.trans h.keeps.1
    have hne : other ≠ staged := by
      rintro rfl
      exact h.unreached otherIno hother
    by_cases hsame : other = entry
    · -- the entry of `dst` holds the staging file now
      subst hsame
      obtain rfl := hother.unique hreaches
      refine .inr ⟨stagedIno, ?_, ?_, ?_, fun hlinked => absurd hsingle (not_le.mpr hlinked)⟩
      · simp [FileSystem.moveNode, FileSystem.touch, FileSystem.tick, h.node]
      · simpa [FileSystem.moveNode, FileSystem.touch, FileSystem.tick, hcontent] using h.holds.1
      · simpa [FileSystem.moveNode, FileSystem.touch, FileSystem.tick] using h.holds.2
    · refine h.keeps.congr_at hother ?_ fun ino' _ => ?_
      · simp [FileSystem.moveNode, FileSystem.touch, FileSystem.tick, Function.update_of_ne hsame,
          Function.update_of_ne hne]
      · simp [FileSystem.moveNode, FileSystem.touch, FileSystem.tick]

/-- `tmp_name`: the name is free, or an `unlink` two calls later is refused. -/
theorem tmpName_refused {dst : Path} :
    ⦃fun fs => ⌜Keeps k before fs ∧ SparesStaging k before dst fs⌝⦄ tmpName k dst
    ⦃⇓ result fs => ⌜match result with
      | .ok path => Keeps k before fs ∧ Refused k before path (fs.clock + 1)
      | .error _ => Keeps k before fs⌝⦄ := by
  unfold tmpName
  cases hstaging : stagingPath dst with
  | error errno => exact Triple.pure _ fun _ h => h.1
  | ok path =>
      have haccess : ⦃fun fs => ⌜Keeps k before fs ∧ SparesStaging k before dst fs⌝⦄
          k.access path .exist
          ⦃⇓ result fs => ⌜Keeps k before fs ∧
            (result.isOk = false → Refused k before path (fs.clock + 1))⌝⦄ := by
        rw [triple_iff]
        rintro fs ⟨h, hspares⟩
        cases houtcome : k.outcome (.access path .exist) (k.checkAccess path .exist) fs with
        | ok _ =>
            rw [access, readCall_of_ok houtcome]
            exact ⟨h, by simp⟩
        | error errno =>
            rw [access, readCall_of_error houtcome]
            refine ⟨h, fun _ => ?_⟩
            rcases outcome_eq_error houtcome with hfault | hmissing
            · exact hspares path hstaging hfault
            · -- nothing is found, so nothing was there before
              intro hled
              have hfound : k.checkAccess path .exist fs = .ok () := by
                rcases checkAccess_exist_eq_ok.mp hled with ⟨ino, hnames⟩ | ⟨dir, hdir⟩
                · rcases h.names hnames with ⟨ino', hnames', _⟩
                  exact checkAccess_exist_eq_ok.mpr (.inl ⟨ino', hnames'⟩)
                · rw [← h.1] at hdir
                  exact checkAccess_exist_eq_ok.mpr (.inr ⟨dir, hdir⟩)
              simp [hfound] at hmissing
      apply Triple.bind _ _ haccess
      intro found
      split
      · exact Triple.pure _ fun _ h => h.1
      · rename_i hfree
        exact Triple.pure _ fun _ h => ⟨h.1, h.2 (by simpa using hfree)⟩

/-- What `replace_with_clone` does from the name of the staging file on keeps the files. -/
theorem cloneThrough_keeps {src dst path : Path} {ino source : Nat}
    (hsrc : k.Names before src source) (hdst : k.Names before dst ino)
    (hcontent : (before.inode source).content = (before.inode ino).content)
    (hsingle : (before.inode ino).nlink ≤ 1) :
    ⦃fun fs => ⌜Keeps k before fs ∧ Refused k before path (fs.clock + 1)⌝⦄
    cloneThrough k src dst path ⦃⇓ _ fs => ⌜Keeps k before fs⌝⦄ := by
  apply Triple.bind _ _ (clonefile_staged hsrc hcontent)
  rintro (_ | u)
  · exact abandon_keeps path _
  rw [if_neg (by simp)]
  apply Triple.bind _ _ (findZeroFile_staged path _)
  intro invalid
  split
  · exact abandon_staged path _ _
  apply Triple.bind _ _ (copyfileCheck_staged dst path _)
  intro bits
  simp only
  split
  · exact abandon_staged path _ _
  apply Triple.bind _ _ (copyfileMetadata_staged hdst)
  rintro (_ | u)
  · exact abandon_staged path _ _
  rw [if_neg (by simp)]
  apply Triple.bind _ _ (findZeroFile_staged path _)
  intro invalid
  split
  · exact abandon_staged path _ _
  apply Triple.bind _ _ (rename_keeps hdst rfl hsingle)
  rintro (_ | u)
  · exact abandon_staged path _ _
  rw [if_neg (by simp)]
  exact Triple.pure _ .rfl

/-- A directory's modification time is no file's. -/
theorem restoreDirMtime_keeps (fd : Dir) (mtime : Nat) :
    ⦃fun fs => ⌜Keeps k before fs⌝⦄ restoreDirMtime k fd mtime
    ⦃⇓ _ fs => ⌜Keeps k before fs⌝⦄ := by
  have hfutimens : ⦃fun fs => ⌜Keeps k before fs⌝⦄ k.futimens fd mtime
      ⦃⇓ _ fs => ⌜Keeps k before fs⌝⦄ :=
    writeCall_triple (fun _ _ h _ _ => h) fun _ _ h => h
  apply Triple.bind _ _ hfutimens
  intro _
  exact Triple.pure _ .rfl

theorem cloneOver_keeps {src dst : Path} {ino source : Nat}
    (hsrc : k.Names before src source) (hdst : k.Names before dst ino)
    (hcontent : (before.inode source).content = (before.inode ino).content)
    (hsingle : (before.inode ino).nlink ≤ 1) :
    ⦃fun fs => ⌜Keeps k before fs ∧ SparesStaging k before dst fs⌝⦄ cloneOver k src dst
    ⦃⇓ _ fs => ⌜Keeps k before fs⌝⦄ := by
  apply Triple.bind _ _ tmpName_refused
  rintro (_ | path)
  · exact Triple.pure _ .rfl
  · exact cloneThrough_keeps hsrc hdst hcontent hsingle

/-- What `dir_mtime` leaves for a replacement that spares its staging name. -/
theorem dirMtime_spares (dst : Path) :
    ⦃fun fs => ⌜Keeps k before fs ∧ SparesReplacement k before true dst fs⌝⦄ dirMtime k dst
    ⦃⇓ result fs => ⌜match result with
      | .ok _ => Keeps k before fs ∧ SparesStaging k before dst fs
      | .error _ => Keeps k before fs⌝⦄ := by
  rw [triple_iff]
  rintro fs ⟨h, hspares⟩
  have hkeeps : Keeps k before (dirMtime k dst fs).2 :=
    triple_iff.mp (dirMtime_triple (Keeps k before) dst (fun _ h => h) fun _ h => h) fs h
  cases hrun : dirMtime k dst fs with
  | mk result fs' =>
      rw [hrun] at hkeeps
      cases result with
      | error errno => exact hkeeps
      | ok opened => exact ⟨hkeeps, hspares opened fs' hrun⟩

/-- `replace_with_clone` keeps the files, whatever fails on the way. -/
theorem replaceWithClone_keeps {src dst : Path} {ino source : Nat} (preserve : Bool)
    (hsrc : k.Names before src source) (hdst : k.Names before dst ino)
    (hcontent : (before.inode source).content = (before.inode ino).content)
    (hsingle : (before.inode ino).nlink ≤ 1) :
    ⦃fun fs => ⌜Keeps k before fs ∧ SparesReplacement k before preserve dst fs⌝⦄
    replaceWithClone k src dst preserve ⦃⇓ _ fs => ⌜Keeps k before fs⌝⦄ := by
  have hover := cloneOver_keeps hsrc hdst hcontent hsingle
  cases preserve with
  | false => exact hover
  | true =>
      apply Triple.bind _ _ (dirMtime_spares dst)
      rintro (_ | ⟨fd, mtime⟩)
      · exact Triple.pure _ .rfl
      · apply Triple.bind _ _ hover
        intro result
        apply Triple.bind _ _ (restoreDirMtime_keeps fd mtime)
        intro _
        exact Triple.pure _ .rfl

end

/-! ### Whole runs -/

/-- The records of the lists are those of the files before the run, and the files of a list have
equal content. -/
structure FaithfulRecords (k : Kernel) (before : FileSystem) (list : List FileMetadata) : Prop where
  names : ∀ fm ∈ list, ∃ ino, k.Names before fm.path ino ∧ (before.inode ino).nlink = fm.nlink
  equal : ∀ fm ∈ list, ∀ fm' ∈ list, ∀ ino ino', k.Names before fm.path ino →
    k.Names before fm'.path ino' → (before.inode ino).content = (before.inode ino').content

/-- Records are faithful where every path is found with its link count and one content. -/
theorem faithfulRecords_of_found {k : Kernel} {before : FileSystem} {list : List FileMetadata}
    (content : List UInt8)
    (h : ∀ fm ∈ list, (k.resolve fm.path before).any (fun found =>
      (before.inode found.2).nlink = fm.nlink && (before.inode found.2).content = content) = true) :
    FaithfulRecords k before list := by
  have hfound : ∀ fm ∈ list, ∃ ino, k.Names before fm.path ino ∧
      (before.inode ino).nlink = fm.nlink ∧ (before.inode ino).content = content := by
    intro fm hfm
    have hany := h fm hfm
    cases hresolve : k.resolve fm.path before with
    | none => simp [hresolve] at hany
    | some found =>
        simp only [hresolve, Option.any_some, Bool.and_eq_true, decide_eq_true_eq] at hany
        exact ⟨found.2, names_of_resolve hresolve, hany⟩
  constructor
  · intro fm hfm
    rcases hfound fm hfm with ⟨ino, hnames, hnlink, _⟩
    exact ⟨ino, hnames, hnlink⟩
  · intro fm hfm fm' hfm' ino ino' hnames hnames'
    rcases hfound fm hfm with ⟨_, hnamed, _, hcontent⟩
    rcases hfound fm' hfm' with ⟨_, hnamed', _, hcontent'⟩
    obtain rfl := hnames.unique hnamed
    obtain rfl := hnames'.unique hnamed'
    exact hcontent.trans hcontent'.symm

/-- Clone mode without `force`. -/
structure PlainCloneMode (opts : Options) : Prop where
  clone : opts.replaceMode = .clone
  unforced : opts.force = false

section

variable {k : Kernel} {before : FileSystem} {opts : Options}

/-- The attributes that are read change nothing. -/
theorem readsKeep_keeps (k : Kernel) (before : FileSystem) :
    ReadsKeep (fsCalls k) (Keeps k before) where
  getCloneId path := triple_iff.mp
    (getAttribute_triple (Keeps k before) _ path (fun _ h => h) fun _ h => h)
  privateSize path := triple_iff.mp
    (getAttribute_triple (Keeps k before) _ path (fun _ h => h) fun _ h => h)

/-- The replacements of a list in clone mode that spare their staging names keep the files. -/
theorem replacementsKeep_keeps (hmode : PlainCloneMode opts) {list : List FileMetadata}
    (hfaithful : FaithfulRecords k before list) :
    ReplacementsKeepWhere (fsCalls k) opts
      (fun _ dst => SparesReplacement k before opts.preserveParentMtime dst) (Keeps k before)
      list := by
  intro origin horigin m hm htreatment _ fs h hspares
  obtain ⟨hlinks, _⟩ := of_treatment_replace htreatment
  have hsingleRecord : m.fm.nlink ≤ 1 := by simpa [hmode.unforced] using hlinks
  obtain ⟨source, hsrc, _⟩ := hfaithful.names origin.fm (mem_of_mem_members horigin)
  obtain ⟨ino, hdst, hnlink⟩ := hfaithful.names m.fm (mem_of_mem_members hm)
  have hcontent := hfaithful.equal origin.fm (mem_of_mem_members horigin) m.fm
    (mem_of_mem_members hm) source ino hsrc hdst
  have hsingle : (before.inode ino).nlink ≤ 1 := hnlink ▸ hsingleRecord
  simp only [callReplacement, hmode.clone]
  exact triple_iff.mp (replaceWithClone_keeps opts.preserveParentMtime hsrc hdst hcontent hsingle)
    fs ⟨h, hspares⟩

/-- Every replacement of a run by a clone spares its staging name. -/
def SparesAll (k : Kernel) (opts : Options) (lists : List (List FileMetadata))
    (ctx : Context FileSystem) : Prop :=
  EveryReplacement (fsCalls k) opts
    (fun _ dst => SparesReplacement k ctx.world opts.preserveParentMtime dst) lists ctx

/-- In every run of clone mode whose replacements spare their staging names, every path that named a
regular file names one with the same bytes and metadata, and a path recorded with several links the
same inode. -/
theorem cloneMode_keeps_files {lists : List (List FileMetadata)} (ctx : Context FileSystem)
    (hmode : PlainCloneMode opts) (hfaithful : ∀ list ∈ lists, FaithfulRecords k ctx.world list)
    (hspares : SparesAll k opts lists ctx) :
    (∀ path ino, k.Names ctx.world path ino →
      ∃ ino', k.Names (deduplicateAll (fsCalls k) opts lists ctx).world path ino' ∧
        ((deduplicateAll (fsCalls k) opts lists ctx).world.inode ino').content =
            (ctx.world.inode ino).content ∧
          ((deduplicateAll (fsCalls k) opts lists ctx).world.inode ino').metadata =
            (ctx.world.inode ino).metadata) ∧
    ∀ list ∈ lists, ∀ fm ∈ list, 1 < fm.nlink → ∀ ino, k.Names ctx.world fm.path ino →
      k.Names (deduplicateAll (fsCalls k) opts lists ctx).world fm.path ino := by
  have hkeeps : Keeps k ctx.world (deduplicateAll (fsCalls k) opts lists ctx).world :=
    deduplicateAll_keeps_of_meets (readsKeep_keeps k ctx.world)
      (fun list hlist => replacementsKeep_keeps hmode (hfaithful list hlist)) hspares
      (Keeps.refl k ctx.world)
  constructor
  · intro path ino hnames
    rcases hkeeps.names hnames with ⟨ino', hnames', hstands⟩
    exact ⟨ino', hnames', hstands.content, hstands.metadata⟩
  · intro list hlist fm hfm hlinked ino hnames
    obtain ⟨recorded, hrecordedNames, hnlink⟩ := (hfaithful list hlist).names fm hfm
    obtain rfl := hrecordedNames.unique hnames
    rcases hkeeps.names hnames with ⟨ino', hnames', hstands⟩
    exact hstands.linked (hnlink ▸ hlinked) ▸ hnames'

/-! ### The staging file of the user -/

/-- Where the check for a staging name fails although a file of the user has it, and the `unlink`
two calls later is not refused, that file is gone after one replacement. -/
theorem cloneOver_loses_staging {fs : FileSystem} {src dst path : Path} {entry : Entry}
    (hstaging : stagingPath dst = .ok path)
    (hfault : k.fault fs.clock (.access path .exist) ≠ none)
    (hallowed : k.fault (fs.clock + 2) (.unlink path) = none)
    (hremovable : k.findRemovable path fs = .ok entry) :
    ∀ ino', ¬ k.Names (cloneOver k src dst fs).2 path ino' := by
  rcases findRemovable_eq_ok.mp hremovable with ⟨hlocate, _, hnode, _⟩
  have hname : tmpName k dst fs = (.ok path, fs.tick.fail) := by
    rcases Option.ne_none_iff_exists'.mp hfault with ⟨errno, herrno⟩
    have houtcome : k.outcome (.access path .exist) (k.checkAccess path .exist) fs =
        .error errno := by
      simp [outcome, herrno]
    simp only [tmpName, hstaging]
    rw [bind_apply, access, readCall_of_error houtcome]
    rfl
  have hclone : ∃ errno,
      k.clonefile src path fs.tick.fail = (.error errno, fs.tick.fail.tick.fail) := by
    cases houtcome : k.outcome (.clonefile src path) (k.findClone src path) fs.tick.fail with
    | error errno => exact ⟨errno, writeCall_of_error houtcome⟩
    | ok found =>
        rcases outcome_eq_ok.mp houtcome with ⟨_, hfound⟩
        rcases findClone_eq_ok.mp hfound with ⟨_, _, hfree, _⟩
        rcases findFree_eq_ok.mp hfree with ⟨hlocate', _, hempty, _⟩
        have hentry := Option.some.inj (hlocate.symm.trans hlocate')
        change fs.nodes _ = none at hempty
        simp [hentry, hempty] at hnode
  rcases hclone with ⟨errno, hclone⟩
  have hunlinked : k.unlink path fs.tick.fail.tick.fail =
      (.ok (), (fs.tick.fail.tick.fail.tick.removeNode entry).touch entry.dir) :=
    writeCall_of_ok (outcome_eq_ok.mpr ⟨hallowed, hremovable⟩)
  rintro ino' ⟨entry', hlocate', hreaches⟩
  rcases hreaches.occupied with ⟨node, hnode'⟩
  have hgone : (cloneOver k src dst fs).2.nodes = (fs.removeNode entry).nodes := by
    rw [cloneOver, bind_apply, hname]
    simp only [cloneThrough]
    rw [bind_apply, hclone]
    change (abandon k path (-1) fs.tick.fail.tick.fail).2.nodes = _
    rw [abandon, bind_apply, hunlinked]
    rfl
  rw [ns_of_nodes hgone] at hlocate'
  have hlocated := Namespace.locate_of_fewer
    (ns_fewer (FileSystem.fewerLinks_removeNode fs entry)) hlocate'
  obtain rfl : entry' = entry := Option.some.inj (hlocated.symm.trans hlocate)
  have hfree : (fs.removeNode entry').nodes entry' = none := Function.update_self _ _ _
  simp [hgone, hfree] at hnode'

end

/-- Three equal files of a byte, and a file of the user that has the staging name of one. -/
def stagedUserFiles : FileSystem :=
  FileSystem.ofFiles
    [(['a'], ⟨[1], ⟨0o644, 0, 0⟩, 1, 1⟩), (['b'], ⟨[1], ⟨0o644, 0, 0⟩, 2, 1⟩),
      (['.', '~', '.', 'b'], ⟨[7], ⟨0o600, 0, 0⟩, 3, 1⟩), (['c'], ⟨[1], ⟨0o444, 0, 0⟩, 4, 1⟩)]

/-- A kernel whose every check for existence fails. -/
def blindKernel : Kernel :=
  rootKernel fun _ call =>
    match call with
    | .access _ .exist => some .eio
    | _ => none

/-- Clone mode without an option. -/
def cloneOptions : Options where
  replaceMode := .clone
  force := false
  dryRun := false
  preserveParentMtime := false
  verbosity := 0

theorem plainCloneMode_cloneOptions : PlainCloneMode cloneOptions := ⟨rfl, rfl⟩

/-- The records of the equal files. -/
def stagedUserList : List FileMetadata :=
  [listedFile 'a' 1, listedFile 'b' 2, listedFile 'c' 4]

/-- The file of the user is lost: the check for it fails, `clonefile` finds it in its way, and the
`unlink` that should remove a failed clone removes it. -/
theorem cloneMode_loses_staging_file :
    PlainCloneMode cloneOptions ∧ FaithfulRecords blindKernel stagedUserFiles stagedUserList ∧
      blindKernel.Names stagedUserFiles ['/', '.', '~', '.', 'b'] 2 ∧
      ∀ ino, ¬ blindKernel.Names (deduplicateAll (fsCalls blindKernel) cloneOptions
        [stagedUserList] (startContext stagedUserFiles)).world ['/', '.', '~', '.', 'b'] ino := by
  refine ⟨plainCloneMode_cloneOptions, faithfulRecords_of_found [1] (by decide), ?_, ?_⟩
  · have hresolve : blindKernel.resolve ['/', '.', '~', '.', 'b'] stagedUserFiles =
        some (⟨[], ['.', '~', '.', 'b']⟩, 2) := by
      decide
    exact names_of_resolve hresolve
  · intro ino hnames
    rcases resolve_of_names hnames with ⟨entry, hresolve⟩
    have hgone : blindKernel.resolve ['/', '.', '~', '.', 'b'] (deduplicateAll
        (fsCalls blindKernel) cloneOptions [stagedUserList]
          (startContext stagedUserFiles)).world = none := by
      decide
    simp [hgone] at hresolve

/-- The same files, with a link to their directory in the place of the user's file. -/
def stagedUserLink : FileSystem :=
  { stagedUserFiles with
    nodes := Function.update stagedUserFiles.nodes ⟨[], ['.', '~', '.', 'b']⟩ (some (.dirLink []))
    allocated := by
      intro entry ino h
      rcases eq_or_ne entry ⟨[], ['.', '~', '.', 'b']⟩ with rfl | hne
      · simp at h
      · rw [Function.update_of_ne hne] at h
        exact stagedUserFiles.allocated entry ino h }

/-- The link is lost like the file, and with it the path that led through it. -/
example :
    (blindKernel.resolve ['/', '.', '~', '.', 'b', '/', 'c'] stagedUserLink).isSome = true ∧
      blindKernel.resolve ['/', '.', '~', '.', 'b', '/', 'c']
        (cloneOver blindKernel ['/', 'a'] ['/', 'b'] stagedUserLink).2 = none := by
  decide

/-- A kernel whose every check for existence fails, and every `unlink` after it. -/
def stuckKernel : Kernel :=
  rootKernel fun _ call =>
    match call with
    | .access _ .exist => some .eio
    | .unlink _ => some .eio
    | _ => none

theorem sparesReplacement_stuckKernel (before : FileSystem) (preserve : Bool) (dst : Path)
    (fs : FileSystem) : SparesReplacement stuckKernel before preserve dst fs := by
  have hspares : ∀ fs', SparesStaging stuckKernel before dst fs' :=
    fun fs' path _ _ _ => .inl (by simp [stuckKernel, rootKernel])
  unfold SparesReplacement
  split
  · exact fun _ fs' _ => hspares fs'
  · exact hspares fs

theorem sparesAll_stuckKernel (opts : Options) (lists : List (List FileMetadata))
    (ctx : Context FileSystem) : SparesAll stuckKernel opts lists ctx := by
  intro earlier list later _ origin reason _ earlier' m later' _ _ _
  exact sparesReplacement_stuckKernel _ _ _ _

/-- The run at the equal files: `b` is not cloned, because of the file of the user, and `c` is. -/
theorem cloneMode_keeps_files_stuckKernel :
    (∀ path ino, stuckKernel.Names stagedUserFiles path ino →
      ∃ ino', stuckKernel.Names (deduplicateAll (fsCalls stuckKernel) cloneOptions
          [stagedUserList] (startContext stagedUserFiles)).world path ino' ∧
        ((deduplicateAll (fsCalls stuckKernel) cloneOptions [stagedUserList]
            (startContext stagedUserFiles)).world.inode ino').content =
            (stagedUserFiles.inode ino).content ∧
          ((deduplicateAll (fsCalls stuckKernel) cloneOptions [stagedUserList]
            (startContext stagedUserFiles)).world.inode ino').metadata =
            (stagedUserFiles.inode ino).metadata) ∧
    ∀ list ∈ [stagedUserList], ∀ fm ∈ list, 1 < fm.nlink →
      ∀ ino, stuckKernel.Names stagedUserFiles fm.path ino →
        stuckKernel.Names (deduplicateAll (fsCalls stuckKernel) cloneOptions [stagedUserList]
          (startContext stagedUserFiles)).world fm.path ino :=
  cloneMode_keeps_files (startContext stagedUserFiles) plainCloneMode_cloneOptions
    (by
      intro list hlist
      obtain rfl := List.mem_singleton.mp hlist
      exact faithfulRecords_of_found [1] (by decide))
    (sparesAll_stuckKernel cloneOptions [stagedUserList] (startContext stagedUserFiles))

end Dedup
