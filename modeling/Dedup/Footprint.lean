/-
Module: Dedup.Footprint
Purpose: What a run of `deduplicate` may change, in every mode, for every list and whatever call
  fails.  No file that was there is written to: it keeps its bytes, its metadata and its clone id,
  and a file that the run makes has the bytes of one that was there.  What stands at an entry
  changes only where a path that may be replaced names it, or its staging name does.
Imports: Dedup.Posix.SameFiles, Dedup.CloneSafety
Trusted boundary: none
Main exports: SameData, Within, MayTouch, Touched, replacement_within, footprint
-/
import Dedup.Posix.SameFiles
import Dedup.CloneSafety

namespace Dedup

open Posix Posix.Kernel Std.Do

/-! ### What is left alone -/

/-- Two inodes hold the same file, under however many names. -/
structure SameData (first second : Inode) : Prop where
  content : first.content = second.content
  metadata : first.metadata = second.metadata
  cloneId : first.cloneId = second.cloneId

theorem SameData.refl (inode : Inode) : SameData inode inode :=
  ⟨rfl, rfl, rfl⟩

theorem SameData.trans {first second third : Inode} (h : SameData first second)
    (h' : SameData second third) : SameData first third :=
  ⟨h.content.trans h'.content, h.metadata.trans h'.metadata, h.cloneId.trans h'.cloneId⟩

/-- The files of before hold what they held, files of the run have the bytes of such a file,
entries that may not be touched are as they were, and no link to a directory is new. -/
structure Within (before : FileSystem) (touched : Entry → Prop) (fs : FileSystem) : Prop where
  grown : before.nextIno ≤ fs.nextIno
  old : ∀ ino < before.nextIno, SameData (fs.inode ino) (before.inode ino)
  new : ∀ ino, before.nextIno ≤ ino → ino < fs.nextIno →
    ∃ source < before.nextIno, (fs.inode ino).content = (before.inode source).content
  nodes : ∀ entry, ¬ touched entry → fs.nodes entry = before.nodes entry
  links : fs.FewerLinks before

theorem Within.refl (fs : FileSystem) (touched : Entry → Prop) : Within fs touched fs where
  grown := le_refl _
  old _ _ := SameData.refl _
  new _ hnew hino := absurd hino (Nat.not_lt.mpr hnew)
  nodes _ _ := rfl
  links := FileSystem.FewerLinks.refl fs

/-- More may be touched. -/
theorem Within.mono {before fs : FileSystem} {touched touched' : Entry → Prop}
    (h : Within before touched fs) (more : ∀ entry, touched entry → touched' entry) :
    Within before touched' fs :=
  ⟨h.grown, h.old, h.new, fun entry hentry => h.nodes entry fun hmem => hentry (more entry hmem),
    h.links⟩

/-- What is within the files of another state with the same files. -/
theorem Within.ofFiles {before before' fs : FileSystem} {touched : Entry → Prop}
    (h : Within before' touched fs) (same : SameFiles before before') :
    Within before touched fs where
  grown := same.nextIno ▸ h.grown
  old := same.nextIno ▸ same.inode ▸ h.old
  new := same.nextIno ▸ same.inode ▸ h.new
  nodes := same.nodes ▸ h.nodes
  links entry dir hdir := by
    rw [← FileSystem.dirLinks_of_nodes same.nodes]
    exact h.links entry dir hdir

/-- A link more or less is no other data. -/
theorem sameData_dropLink (inode : Nat → Inode) (node : Option Node) (ino : Nat) :
    SameData (FileSystem.dropLink inode node ino) (inode ino) := by
  unfold FileSystem.dropLink
  split
  · rename_i dropped
    rcases eq_or_ne ino dropped with rfl | hino
    · rw [Function.update_self]
      exact ⟨rfl, rfl, rfl⟩
    · rw [Function.update_of_ne hino]
      exact SameData.refl _
  · exact SameData.refl _

theorem sameData_raiseLink (inode : Nat → Inode) (node : Option Node) (ino : Nat) :
    SameData (FileSystem.raiseLink inode node ino) (inode ino) := by
  unfold FileSystem.raiseLink
  split
  · rename_i raised
    rcases eq_or_ne ino raised with rfl | hino
    · rw [Function.update_self]
      exact ⟨rfl, rfl, rfl⟩
    · rw [Function.update_of_ne hino]
      exact SameData.refl _
  · exact SameData.refl _

section

variable {k : Kernel} {before fs fs' : FileSystem} {touched : Entry → Prop}

/-- What is located now was located before. -/
theorem Within.located (h : Within before touched fs) {path : Path} {entry : Entry}
    (hlocate : (k.ns fs).locate path = some entry) : (k.ns before).locate path = some entry :=
  Namespace.locate_of_fewer (ns_fewer h.links) hlocate

/-- A change of names: the inodes hold what they held, and only touched entries change. -/
theorem Within.rename (h : Within before touched fs) (grown : fs'.nextIno = fs.nextIno)
    (data : ∀ ino, SameData (fs'.inode ino) (fs.inode ino))
    (nodes : ∀ entry, ¬ touched entry → fs'.nodes entry = fs.nodes entry)
    (links : fs'.FewerLinks fs) : Within before touched fs' where
  grown := grown ▸ h.grown
  old ino hino := (data ino).trans (h.old ino hino)
  new ino hnew hino := by
    obtain ⟨source, hsource, hcontent⟩ := h.new ino hnew (grown ▸ hino)
    exact ⟨source, hsource, (data ino).content.trans hcontent⟩
  nodes entry hentry := (nodes entry hentry).trans (h.nodes entry hentry)
  links := links.trans h.links

theorem Within.tick (h : Within before touched fs) : Within before touched fs.tick :=
  h.rename rfl (fun _ => SameData.refl _) (fun _ _ => rfl) (FileSystem.FewerLinks.refl fs)

theorem Within.fail (h : Within before touched fs) : Within before touched fs.fail :=
  h.rename rfl (fun _ => SameData.refl _) (fun _ _ => rfl) (FileSystem.FewerLinks.refl fs)

theorem Within.touch (h : Within before touched fs) (dir : Dir) :
    Within before touched (fs.touch dir) :=
  h.rename rfl (fun _ => SameData.refl _) (fun _ _ => rfl) (FileSystem.FewerLinks.refl fs)

theorem Within.setMtime (h : Within before touched fs) (dir : Dir) (time : Nat) :
    Within before touched (fs.setMtime dir time) :=
  h.rename rfl (fun _ => SameData.refl _) (fun _ _ => rfl) (FileSystem.FewerLinks.refl fs)

/-- What may not be touched is another entry than one that may. -/
theorem ne_of_touched {entry other : Entry} (hentry : touched entry) (hother : ¬ touched other) :
    other ≠ entry :=
  fun h => hother (h ▸ hentry)

theorem Within.removeNode (h : Within before touched fs) {entry : Entry} (hentry : touched entry) :
    Within before touched (fs.removeNode entry) :=
  h.rename rfl (fun ino => sameData_dropLink fs.inode (fs.nodes entry) ino)
    (fun _ hother => Function.update_of_ne (ne_of_touched hentry hother) _ _)
    (fs.fewerLinks_removeNode entry)

theorem Within.moveNode (h : Within before touched fs) {source entry : Entry}
    (hsource : touched source) (hentry : touched entry)
    (hfile : linkedDir (fs.nodes source) = none) :
    Within before touched (fs.moveNode source entry) :=
  h.rename rfl (fun ino => sameData_dropLink fs.inode (fs.nodes entry) ino)
    (fun _ hother => (Function.update_of_ne (ne_of_touched hentry hother) _ _).trans
      (Function.update_of_ne (ne_of_touched hsource hother) _ _))
    (FileSystem.fewerLinks_moveNode hfile entry)

theorem Within.addLink (h : Within before touched fs) {source entry : Entry}
    (hentry : touched entry) (hfile : linkedDir (fs.nodes source) = none) :
    Within before touched (fs.addLink source entry) :=
  h.rename rfl (fun ino => sameData_raiseLink fs.inode (fs.nodes source) ino)
    (fun _ hother => Function.update_of_ne (ne_of_touched hentry hother) _ _)
    (FileSystem.fewerLinks_addLink hfile entry)

theorem Within.addSymlink (h : Within before touched fs) {entry : Entry} (hentry : touched entry)
    (target : Path) : Within before touched (fs.addSymlink entry target) :=
  h.rename rfl (fun _ => SameData.refl _)
    (fun _ hother => Function.update_of_ne (ne_of_touched hentry hother) _ _)
    (fs.fewerLinks_addSymlink entry target)

/-- The bytes of a file that is there are those of one that was. -/
theorem Within.source (h : Within before touched fs) {entry : Entry} {ino : Nat}
    (hnode : fs.nodes entry = some (.file ino)) :
    ∃ source < before.nextIno, (fs.inode ino).content = (before.inode source).content := by
  rcases Nat.lt_or_ge ino before.nextIno with hold | hnew
  · exact ⟨ino, hold, (h.old ino hold).content⟩
  · exact h.new ino hnew (fs.allocated entry ino hnode)

/-- A new file with the bytes of one that is there. -/
theorem Within.createFile (h : Within before touched fs) {source entry : Entry} {ino : Nat}
    (hsource : fs.nodes source = some (.file ino)) (hentry : touched entry) {inode : Inode}
    (hcontent : inode.content = (fs.inode ino).content) :
    Within before touched (fs.createFile entry inode) where
  grown := Nat.le_succ_of_le h.grown
  old other hother := by
    have hne : other ≠ fs.nextIno := (Nat.lt_of_lt_of_le hother h.grown).ne
    rw [show (fs.createFile entry inode).inode other = fs.inode other from
      Function.update_of_ne hne _ _]
    exact h.old other hother
  new other hnew hother := by
    rcases eq_or_ne other fs.nextIno with rfl | hne
    · rw [FileSystem.createFile_inode_nextIno, hcontent]
      exact h.source hsource
    · rw [show (fs.createFile entry inode).inode other = fs.inode other from
        Function.update_of_ne hne _ _]
      exact h.new other hnew (lt_of_le_of_ne (Nat.le_of_lt_succ hother) hne)
  nodes other hother := by
    rw [fs.createFile_nodes_of_ne (ne_of_touched hentry hother)]
    exact h.nodes other hother
  links := (fs.fewerLinks_createFile entry inode).trans h.links

/-- Metadata of a file of the run. -/
theorem Within.setMetadata (h : Within before touched fs) {ino : Nat}
    (hino : before.nextIno ≤ ino) (metadata : Metadata) :
    Within before touched (fs.setMetadata ino metadata) where
  grown := h.grown
  old other hother := by
    have hne : other ≠ ino := (Nat.lt_of_lt_of_le hother hino).ne
    rw [show (fs.setMetadata ino metadata).inode other = fs.inode other from
      Function.update_of_ne hne _ _]
    exact h.old other hother
  new other hnew hother := by
    obtain ⟨source, hsource, hcontent⟩ := h.new other hnew hother
    refine ⟨source, hsource, ?_⟩
    rcases eq_or_ne other ino with rfl | hne
    · simpa [FileSystem.setMetadata] using hcontent
    · simpa [FileSystem.setMetadata, Function.update_of_ne hne] using hcontent
  nodes := h.nodes
  links := h.links

/-! ### The calls -/

/-- A call that reads. -/
theorem readCall_within {α : Type} {call : Call} {find : FileSystem → Except Errno α} :
    ⦃fun fs => ⌜Within before touched fs⌝⦄ k.readCall call find
    ⦃⇓ _ fs => ⌜Within before touched fs⌝⦄ :=
  readCall_triple _ (fun _ => Within.tick) fun _ => Within.fail

/-- `unlink` of a path whose entry may be touched. -/
theorem unlink_within {path : Path}
    (htouched : ∀ entry, (k.ns before).locate path = some entry → touched entry) :
    ⦃fun fs => ⌜Within before touched fs⌝⦄ k.unlink path
    ⦃⇓ _ fs => ⌜Within before touched fs⌝⦄ := by
  refine writeCall_triple (fun fs entry h _ hfound => ?_) fun fs errno h => h.tick.fail
  have hlocate := (findRemovable_eq_ok.mp hfound).1
  exact (h.tick.removeNode (htouched entry (h.located hlocate))).touch _

/-- `link` to a path whose entry may be touched. -/
theorem link_within (src : Path) {dst : Path}
    (htouched : ∀ entry, (k.ns before).locate dst = some entry → touched entry) :
    ⦃fun fs => ⌜Within before touched fs⌝⦄ k.link src dst
    ⦃⇓ _ fs => ⌜Within before touched fs⌝⦄ := by
  refine writeCall_triple (fun fs found h _ hfound => ?_) fun fs errno h => h.tick.fail
  obtain ⟨_, hresolve, hfree, _⟩ := findLink_eq_ok.mp hfound
  have hlocate := (findFree_eq_ok.mp hfree).1
  have hfile := linkedDir_of_file (node_of_resolve hresolve)
  exact (h.tick.addLink (htouched found.2 (h.located hlocate)) hfile).touch _

/-- `symlink` at a path whose entry may be touched. -/
theorem symlink_within (target : Option Path) {path : Path}
    (htouched : ∀ entry, (k.ns before).locate path = some entry → touched entry) :
    ⦃fun fs => ⌜Within before touched fs⌝⦄ k.symlink target path
    ⦃⇓ _ fs => ⌜Within before touched fs⌝⦄ := by
  refine writeCall_triple (fun fs found h _ hfound => ?_) fun fs errno h => h.tick.fail
  obtain ⟨_, _, _, hfree⟩ := findSymlink_eq_ok.mp hfound
  have hlocate := (findFree_eq_ok.mp hfree).1
  exact (h.tick.addSymlink (htouched found.2 (h.located hlocate)) found.1).touch _

/-- What a staging file adds: its path names a file of the run. -/
structure WithStaging (k : Kernel) (before : FileSystem) (touched : Entry → Prop) (path : Path)
    (fs : FileSystem) : Prop where
  within : Within before touched fs
  staged : ∃ ino, before.nextIno ≤ ino ∧ k.Names fs path ino

theorem readCall_withStaging {α : Type} {path : Path} {call : Call}
    {find : FileSystem → Except Errno α} :
    ⦃fun fs => ⌜WithStaging k before touched path fs⌝⦄ k.readCall call find
    ⦃⇓ _ fs => ⌜WithStaging k before touched path fs⌝⦄ :=
  readCall_triple _ (fun _ h => ⟨h.within.tick, h.staged⟩) fun _ h => ⟨h.within.fail, h.staged⟩

/-- `clonefile` to a path whose entry may be touched puts a file of the run there. -/
theorem clonefile_within (src : Path) {path : Path}
    (htouched : ∀ entry, (k.ns before).locate path = some entry → touched entry) :
    ⦃fun fs => ⌜Within before touched fs⌝⦄ k.clonefile src path
    ⦃⇓ result fs => ⌜match result with
      | .ok _ => WithStaging k before touched path fs
      | .error _ => Within before touched fs⌝⦄ := by
  refine writeCall_triple ?_ fun fs errno h => h.tick.fail
  rintro fs ⟨ino, entry⟩ h - hfound
  obtain ⟨source, hresolve, hfree, -⟩ := findClone_eq_ok.mp hfound
  have hlocate := (findFree_eq_ok.mp hfree).1
  have hcreated : Within before touched
      (fs.tick.createFile entry { fs.tick.inode ino with nlink := 1 }) :=
    h.tick.createFile (node_of_resolve hresolve) (htouched entry (h.located hlocate)) rfl
  have hns := ns_createFile hfree { fs.inode ino with nlink := 1 }
  exact ⟨hcreated.touch entry.dir, fs.nextIno, h.grown, entry, hns ▸ hlocate,
    reaches_of_file (Function.update_self _ _ _)⟩

/-- `copyfile` to a staging file. -/
theorem copyfileMetadata_within (dst path : Path) :
    ⦃fun fs => ⌜WithStaging k before touched path fs⌝⦄ k.copyfileMetadata dst path
    ⦃⇓ _ fs => ⌜WithStaging k before touched path fs⌝⦄ := by
  rw [triple_iff]
  intro fs h
  obtain ⟨ino, hino, hnames⟩ := h.staged
  unfold copyfileMetadata
  cases houtcome : k.outcome (.copyfile dst path false) (k.findCopy dst path) fs with
  | ok found =>
      obtain ⟨-, ⟨_, htarget⟩, -⟩ := findCopy_eq_ok.mp (outcome_eq_ok.mp houtcome).2
      obtain rfl := hnames.unique (names_of_resolve htarget)
      exact ⟨h.within.tick.setMetadata hino _, _, hino, hnames⟩
  | error errno =>
      cases hresolve : k.resolve path fs with
      | none => exact ⟨h.within.tick.fail, _, hino, hnames⟩
      | some target =>
          obtain rfl := hnames.unique (names_of_resolve hresolve)
          exact ⟨(h.within.tick.setMetadata hino _).fail, _, hino, hnames⟩

/-- `rename` of a staging file, between two paths whose entries may be touched. -/
theorem rename_within {path dst : Path}
    (hpath : ∀ entry, (k.ns before).locate path = some entry → touched entry)
    (hdst : ∀ entry, (k.ns before).locate dst = some entry → touched entry) :
    ⦃fun fs => ⌜WithStaging k before touched path fs⌝⦄ k.rename path dst
    ⦃⇓ _ fs => ⌜Within before touched fs⌝⦄ := by
  refine writeCall_triple (fun fs found h _ hfound => ?_) fun fs errno h => h.within.tick.fail
  obtain ⟨hremovable, hentry, -⟩ := findRename_eq_ok.mp hfound
  have hsource := (findRemovable_eq_ok.mp hremovable).1
  obtain ⟨ino, -, staged, hstaged, hreaches⟩ := h.staged
  obtain rfl : staged = found.1 := Option.some.inj (hstaged.symm.trans hsource)
  have hwithin := h.within
  simp only
  split
  · exact hwithin.tick
  · exact ((hwithin.tick.moveNode (hpath _ (hwithin.located hsource))
      (hdst _ (hwithin.located hentry)) hreaches.no_dirLink).touch _).touch _

/-! ### The replacements -/

/-- What the replacement of a path may change: what stands at the entry that it named before and, in
clone mode, at that of its staging name. -/
def MayTouch (k : Kernel) (before : FileSystem) (mode : ReplaceMode) (path : Path)
    (entry : Entry) : Prop :=
  (k.ns before).locate path = some entry ∨
    mode = .clone ∧ ∃ staging, stagingPath path = .ok staging ∧
      (k.ns before).locate staging = some entry

theorem mayTouch_ofFiles (same : SameFiles before fs) (mode : ReplaceMode) (path : Path)
    (entry : Entry) : MayTouch k fs mode path entry ↔ MayTouch k before mode path entry := by
  rw [MayTouch, MayTouch, ns_files same]

/-- `unlink` of the staging file on the way out. -/
theorem abandon_within {path : Path} (result : Int)
    (htouched : ∀ entry, (k.ns before).locate path = some entry → touched entry) :
    ⦃fun fs => ⌜Within before touched fs⌝⦄ abandon k path result
    ⦃⇓ _ fs => ⌜Within before touched fs⌝⦄ := by
  apply Triple.bind _ _ (unlink_within htouched)
  intro _
  exact Triple.pure _ .rfl

theorem abandon_withStaging {path : Path} (result : Int)
    (htouched : ∀ entry, (k.ns before).locate path = some entry → touched entry) :
    ⦃fun fs => ⌜WithStaging k before touched path fs⌝⦄ abandon k path result
    ⦃⇓ _ fs => ⌜Within before touched fs⌝⦄ :=
  triple_consequence (abandon_within result htouched) (fun _ h => h.within) fun _ _ h => h

theorem findZeroFile_withStaging (path : Path) :
    ⦃fun fs => ⌜WithStaging k before touched path fs⌝⦄ findZeroFile k path
    ⦃⇓ _ fs => ⌜WithStaging k before touched path fs⌝⦄ :=
  findZeroFile_triple _ path (fun _ h => ⟨h.within.tick, h.staged⟩)
    fun _ h => ⟨h.within.fail, h.staged⟩

/-- What `replace_with_clone` does from the name of the staging file on. -/
theorem cloneThrough_within (src : Path) {dst path : Path}
    (hpath : ∀ entry, (k.ns before).locate path = some entry → touched entry)
    (hdst : ∀ entry, (k.ns before).locate dst = some entry → touched entry) :
    ⦃fun fs => ⌜Within before touched fs⌝⦄ cloneThrough k src dst path
    ⦃⇓ _ fs => ⌜Within before touched fs⌝⦄ := by
  apply Triple.bind _ _ (clonefile_within src hpath)
  rintro (_ | u)
  · exact abandon_within _ hpath
  rw [if_neg (by simp)]
  apply Triple.bind _ _ (findZeroFile_withStaging path)
  intro invalid
  split
  · exact abandon_withStaging _ hpath
  apply Triple.bind _ _ readCall_withStaging
  intro bits
  simp only
  split
  · exact abandon_withStaging _ hpath
  apply Triple.bind _ _ (copyfileMetadata_within dst path)
  intro copied
  split
  · exact abandon_withStaging _ hpath
  apply Triple.bind _ _ (findZeroFile_withStaging path)
  intro invalid
  split
  · exact abandon_withStaging _ hpath
  apply Triple.bind _ _ (rename_within hpath hdst)
  intro renamed
  split
  · exact abandon_within _ hpath
  · exact Triple.pure _ .rfl

/-- The time of a directory is no file's data. -/
theorem restoreDirMtime_within (fd : Dir) (mtime : Nat) :
    ⦃fun fs => ⌜Within before touched fs⌝⦄ restoreDirMtime k fd mtime
    ⦃⇓ _ fs => ⌜Within before touched fs⌝⦄ := by
  have hfutimens : ⦃fun fs => ⌜Within before touched fs⌝⦄ k.futimens fd mtime
      ⦃⇓ _ fs => ⌜Within before touched fs⌝⦄ :=
    writeCall_triple (fun _ _ h _ _ => h.tick.setMtime _ _) fun _ _ h => h.tick.fail
  apply Triple.bind _ _ hfutimens
  intro _
  exact Triple.pure _ .rfl

/-- `replace_with_clone`. -/
theorem replaceWithClone_within (src : Path) {dst : Path} (preserve : Bool)
    (htouched : ∀ entry, MayTouch k before .clone dst entry → touched entry) :
    ⦃fun fs => ⌜Within before touched fs⌝⦄ replaceWithClone k src dst preserve
    ⦃⇓ _ fs => ⌜Within before touched fs⌝⦄ := by
  have hover : ⦃fun fs => ⌜Within before touched fs⌝⦄ cloneOver k src dst
      ⦃⇓ _ fs => ⌜Within before touched fs⌝⦄ := by
    unfold cloneOver tmpName
    cases hstaging : stagingPath dst with
    | error errno => exact Triple.pure _ .rfl
    | ok path =>
        rw [bind_assoc]
        apply Triple.bind _ _ readCall_within
        intro found
        split
        · exact Triple.pure _ .rfl
        · exact cloneThrough_within src
            (fun entry hentry => htouched entry (.inr ⟨rfl, path, hstaging, hentry⟩))
            fun entry hentry => htouched entry (.inl hentry)
  unfold replaceWithClone
  split
  · apply Triple.bind _ _ (dirMtime_triple (Within before touched) dst (fun _ => Within.tick)
      fun _ => Within.fail)
    rintro (_ | ⟨fd, mtime⟩)
    · exact Triple.pure _ .rfl
    · apply Triple.bind _ _ hover
      intro result
      apply Triple.bind _ _ (restoreDirMtime_within fd mtime)
      intro _
      exact Triple.pure _ .rfl
  · exact hover

/-- What both link replacements end with. -/
theorem unlinkThen_within {dst : Path} {second : Sys (Except Errno Unit)}
    (htouched : ∀ entry, (k.ns before).locate dst = some entry → touched entry)
    (hsecond : ⦃fun fs => ⌜Within before touched fs⌝⦄ second
      ⦃⇓ _ fs => ⌜Within before touched fs⌝⦄) :
    ⦃fun fs => ⌜Within before touched fs⌝⦄ unlinkThen k dst second
    ⦃⇓ _ fs => ⌜Within before touched fs⌝⦄ := by
  apply Triple.bind _ _ (unlink_within htouched)
  intro unlinked
  split
  · exact Triple.pure _ .rfl
  · apply Triple.bind _ _ hsecond
    intro _
    exact Triple.pure _ .rfl

/-- `path_relative_to` only reads. -/
theorem pathRelativeTo_within (src dst : Path) :
    ⦃fun fs => ⌜Within before touched fs⌝⦄ pathRelativeTo k src dst
    ⦃⇓ _ fs => ⌜Within before touched fs⌝⦄ := by
  apply Triple.bind _ _ readCall_within
  rintro (_ | realSrc)
  · exact Triple.pure _ .rfl
  · apply Triple.bind _ _ readCall_within
    rintro (_ | realDst)
    · exact Triple.pure _ .rfl
    · exact Triple.pure _ .rfl

/-- A replacement, in any mode. -/
theorem replacement_within {opts : Options} (src : Path) {dst : Path}
    (htouched : ∀ entry, MayTouch k before opts.replaceMode dst entry → touched entry)
    (h : Within before touched fs) :
    Within before touched (callReplacement (fsCalls k) opts src dst fs).2 := by
  have hdst : ∀ entry, (k.ns before).locate dst = some entry → touched entry :=
    fun entry hentry => htouched entry (.inl hentry)
  unfold callReplacement
  cases hmode : opts.replaceMode with
  | clone =>
      rw [hmode] at htouched
      exact triple_iff.mp (replaceWithClone_within src opts.preserveParentMtime htouched) fs h
  | link => exact triple_iff.mp (unlinkThen_within hdst (link_within src hdst)) fs h
  | symlink =>
      have hsymlink : ⦃fun fs => ⌜Within before touched fs⌝⦄ replaceWithSymlink k src dst
          ⦃⇓ _ fs => ⌜Within before touched fs⌝⦄ := by
        apply Triple.bind _ _ (pathRelativeTo_within dst src)
        intro path
        exact unlinkThen_within hdst (symlink_within path hdst)
      exact triple_iff.mp hsymlink fs h

/-! ### Whole runs -/

variable {opts : Options}

/-- An entry that a run over the lists may change. -/
def Touched (k : Kernel) (before : FileSystem) (opts : Options)
    (lists : List (List FileMetadata)) (entry : Entry) : Prop :=
  opts.dryRun = false ∧ ∃ list ∈ lists, ∃ fm ∈ list,
    (opts.force = true ∨ fm.nlink ≤ 1) ∧ fm.immutable = false ∧
      MayTouch k before opts.replaceMode fm.path entry

theorem readsKeep_within (k : Kernel) (before : FileSystem) (touched : Entry → Prop) :
    ReadsKeep (fsCalls k) (Within before touched) where
  getCloneId path := triple_iff.mp
    (getAttribute_triple (Within before touched) _ path (fun _ => Within.tick) fun _ => Within.fail)
  privateSize path := triple_iff.mp
    (getAttribute_triple (Within before touched) _ path (fun _ => Within.tick) fun _ => Within.fail)

/-- A run of `deduplicate` over any lists, in any mode and whatever call fails: the files that were
there keep their bytes, metadata and clone ids, the files that it makes have the bytes of such
files, and only entries of files that it may replace and of their staging names change. -/
theorem footprint (k : Kernel) (opts : Options) (lists : List (List FileMetadata))
    (ctx : Context FileSystem) :
    Within ctx.world (Touched k ctx.world opts lists)
      (deduplicateAll (fsCalls k) opts lists ctx).world := by
  apply deduplicateAll_keeps (readsKeep_within k ctx.world _) _ (Within.refl _ _)
  intro list hlist origin _ m hm htreatment hdry fs h
  obtain ⟨hlinks, himmutable⟩ := of_treatment_replace htreatment
  apply replacement_within origin.fm.path _ h
  intro entry hentry
  exact ⟨hdry, list, hlist, m.fm, mem_of_mem_members hm, hlinks, himmutable, hentry⟩

end

end Dedup
