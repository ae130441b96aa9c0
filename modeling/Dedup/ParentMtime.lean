/-
Module: Dedup.ParentMtime
Purpose: With `-m`, `replace_with_clone` leaves the modification time of every directory as it was.
  All entries it creates, renames and removes stand in the directory that it opened first, so that
  directory alone is touched, and every exit past the opening passes through the restoration.
Imports: Dedup.Posix.SameFiles, Dedup.StagingName
Trusted boundary: a call changes the modification time of the directory whose entry it changes
Main exports: TouchesOnly, NamesIn, TouchesUnder, cloneThrough_invariant, cloneOver_touches,
  replaceWithClone_mtime, parentMtime_preserved
-/
import Dedup.Posix.SameFiles
import Dedup.StagingName

namespace Dedup

open Posix Posix.Kernel Std.Do

/-- Since `before` no modification time changed but that of one directory, and that one only if the
process may change it. -/
def TouchesOnly (k : Kernel) (dir : Dir) (before fs : FileSystem) : Prop :=
  ∀ other, fs.mtime other ≠ before.mtime other → other = dir ∧ k.dirWritable dir = true

/-- A path names nothing outside a directory. -/
def NamesIn (k : Kernel) (start : FileSystem) (dir : Dir) (path : Path) : Prop :=
  ∀ entry, (k.ns start).locate path = some entry → entry.dir = dir

/-- Only one directory is touched, and no link to a directory is new since a start. -/
structure TouchesUnder (k : Kernel) (dir : Dir) (before start fs : FileSystem) : Prop where
  touches : TouchesOnly k dir before fs
  links : fs.FewerLinks start

section

variable {k : Kernel} {before start fs : FileSystem} {dir : Dir} {src dst path : Path}

/-! ### One directory -/

theorem TouchesOnly.refl (k : Kernel) (dir : Dir) (fs : FileSystem) : TouchesOnly k dir fs fs :=
  fun _ h => absurd rfl h

/-- A change of times at the directory that the process may change. -/
theorem TouchesOnly.touch (h : TouchesOnly k dir before fs) (writable : k.dirWritable dir = true) :
    TouchesOnly k dir before (fs.touch dir) := by
  intro other hother
  by_cases hdir : other = dir
  · exact ⟨hdir, writable⟩
  · have hsame : (fs.touch dir).mtime other = fs.mtime other := Function.update_of_ne hdir _ _
    exact h other (hsame ▸ hother)

/-- The time that is set back, where it could have changed. -/
theorem TouchesOnly.restore (h : TouchesOnly k dir before fs) :
    (k.dirWritable dir = true → (fs.setMtime dir (before.mtime dir)).mtime = before.mtime) ∧
      (k.dirWritable dir = false → fs.mtime = before.mtime) := by
  refine ⟨fun _ => ?_, fun hdir => ?_⟩
  · funext other
    by_cases hother : other = dir
    · rw [hother]
      exact Function.update_self _ _ _
    · have hsame : fs.mtime other = before.mtime other := by
        by_contra hchanged
        exact hother (h other hchanged).1
      exact (Function.update_of_ne hother _ _).trans hsame
  · funext other
    by_contra hchanged
    have hwritable := (h other hchanged).2
    simp [hdir] at hwritable

theorem TouchesUnder.tick (h : TouchesUnder k dir before start fs) :
    TouchesUnder k dir before start fs.tick :=
  ⟨h.touches, h.links⟩

theorem TouchesUnder.fail (h : TouchesUnder k dir before start fs) :
    TouchesUnder k dir before start fs.fail :=
  ⟨h.touches, h.links⟩

/-- What a path names now is in the directory too. -/
theorem TouchesUnder.dir_of_locate (h : TouchesUnder k dir before start fs)
    (hpath : NamesIn k start dir path) {entry : Entry}
    (hlocate : (k.ns fs).locate path = some entry) : entry.dir = dir :=
  hpath entry (Namespace.locate_of_fewer (ns_fewer h.links) hlocate)

/-! ### The calls -/

theorem clonefile_touches (hpath : NamesIn k start dir path) :
    ⦃fun fs => ⌜TouchesUnder k dir before start fs⌝⦄ k.clonefile src path
    ⦃⇓ _ fs => ⌜TouchesUnder k dir before start fs⌝⦄ := by
  refine writeCall_triple ?_ fun fs errno h => h.tick.fail
  rintro fs ⟨ino, entry⟩ h _ hfound
  obtain ⟨_, _, hfree, _⟩ := findClone_eq_ok.mp hfound
  obtain ⟨hlocate, _, _, hwritable⟩ := findFree_eq_ok.mp hfree
  obtain rfl := h.dir_of_locate hpath hlocate
  have hcreated : TouchesOnly k entry.dir before
      (fs.tick.createFile entry { fs.tick.inode ino with nlink := 1 }) := h.touches
  have hlinks := fs.fewerLinks_createFile entry { fs.inode ino with nlink := 1 }
  exact ⟨hcreated.touch hwritable, hlinks.trans h.links⟩

theorem unlink_touches (hpath : NamesIn k start dir path) :
    ⦃fun fs => ⌜TouchesUnder k dir before start fs⌝⦄ k.unlink path
    ⦃⇓ _ fs => ⌜TouchesUnder k dir before start fs⌝⦄ := by
  refine writeCall_triple ?_ fun fs errno h => h.tick.fail
  intro fs entry h _ hfound
  obtain ⟨hlocate, _, _, hwritable, _⟩ := findRemovable_eq_ok.mp hfound
  obtain rfl := h.dir_of_locate hpath hlocate
  have hremoved : TouchesOnly k entry.dir before (fs.tick.removeNode entry) := h.touches
  exact ⟨hremoved.touch hwritable, (fs.fewerLinks_removeNode entry).trans h.links⟩

/-- `rename`, whatever it moves. -/
theorem rename_touches (hpath : NamesIn k start dir path) (hdst : NamesIn k start dir dst) :
    ⦃fun fs => ⌜TouchesUnder k dir before start fs⌝⦄ k.rename path dst
    ⦃⇓ result fs => ⌜match result with
      | .ok _ => TouchesOnly k dir before fs
      | .error _ => TouchesUnder k dir before start fs⌝⦄ := by
  refine writeCall_triple ?_ fun fs errno h => h.tick.fail
  rintro fs ⟨source, entry⟩ h _ hfound
  obtain ⟨hsource, hlocate, _, _, hwritable, _⟩ := findRename_eq_ok.mp hfound
  have hsourceDir := h.dir_of_locate hpath (findRemovable_eq_ok.mp hsource).1
  have hentryDir := h.dir_of_locate hdst hlocate
  rw [hentryDir] at hwritable
  simp only [hsourceDir, hentryDir]
  split
  · exact h.touches
  · have hmoved : TouchesOnly k dir before (fs.tick.moveNode source entry) := h.touches
    exact (hmoved.touch hwritable).touch hwritable

/-- `copyfile` changes the metadata of a file. -/
theorem copyfileMetadata_touches (dst path : Path) :
    ⦃fun fs => ⌜TouchesUnder k dir before start fs⌝⦄ k.copyfileMetadata dst path
    ⦃⇓ _ fs => ⌜TouchesUnder k dir before start fs⌝⦄ := by
  rw [triple_iff]
  intro fs h
  unfold copyfileMetadata
  split
  · exact ⟨h.touches, h.links⟩
  · split
    · exact ⟨h.touches, h.links⟩
    · exact ⟨h.touches, h.links⟩

/-! ### The body of `replace_with_clone` -/

/-- What every call of the body keeps holds to its end, up to the `rename` that it ends with. -/
theorem cloneThrough_invariant {keep after : FileSystem → Prop}
    (tick : ∀ fs, keep fs → keep fs.tick) (fail : ∀ fs, keep fs → keep fs.fail)
    (weaker : ∀ fs, keep fs → after fs)
    (clone : ⦃fun fs => ⌜keep fs⌝⦄ k.clonefile src path ⦃⇓ _ fs => ⌜keep fs⌝⦄)
    (copy : ⦃fun fs => ⌜keep fs⌝⦄ k.copyfileMetadata dst path ⦃⇓ _ fs => ⌜keep fs⌝⦄)
    (rename : ⦃fun fs => ⌜keep fs⌝⦄ k.rename path dst
      ⦃⇓ result fs => ⌜match result with
        | .ok _ => after fs
        | .error _ => keep fs⌝⦄)
    (unlink : ⦃fun fs => ⌜keep fs⌝⦄ k.unlink path ⦃⇓ _ fs => ⌜keep fs⌝⦄) :
    ⦃fun fs => ⌜keep fs⌝⦄ cloneThrough k src dst path ⦃⇓ _ fs => ⌜after fs⌝⦄ := by
  have giveUp : ∀ result,
      ⦃fun fs => ⌜keep fs⌝⦄ abandon k path result ⦃⇓ _ fs => ⌜after fs⌝⦄ := fun result =>
    triple_bind unlink fun _ => triple_pure weaker
  have look := findZeroFile_triple (k := k) keep path tick fail
  unfold cloneThrough
  refine triple_bind clone fun cloned => ?_
  split
  · exact giveUp _
  · refine triple_bind look fun size => ?_
    split
    · exact giveUp _
    · refine triple_bind (readCall_triple keep tick fail) fun check => ?_
      dsimp only
      split
      · exact giveUp _
      · refine triple_bind copy fun copied => ?_
        split
        · exact giveUp _
        · refine triple_bind look fun size => ?_
          split
          · exact giveUp _
          · refine triple_bind rename fun renamed => ?_
            cases renamed with
            | error errno => exact giveUp _
            | ok u => exact triple_pure fun _ h => h

/-- The name of the staging file, and a check that only reads. -/
theorem tmpName_triple {keep : FileSystem → Prop} (tick : ∀ fs, keep fs → keep fs.tick)
    (fail : ∀ fs, keep fs → keep fs.fail) :
    ⦃fun fs => ⌜keep fs⌝⦄ tmpName k dst
    ⦃⇓ name fs => ⌜keep fs ∧ ∀ path, name = .ok path → stagingPath dst = .ok path⌝⦄ := by
  unfold tmpName
  cases hstaging : stagingPath dst with
  | error errno => exact triple_pure fun _ h => ⟨h, by simp⟩
  | ok out =>
      refine triple_bind (readCall_triple keep tick fail) fun access => ?_
      split
      · exact triple_pure fun _ h => ⟨h, by simp⟩
      · exact triple_pure fun _ h => ⟨h, fun path hpath => hpath⟩

/-- The staging file and the file it stands in for are in the directory that `dirname` spells. -/
theorem namesIn_of_dirname {parent : Path} (hparent : dirnameR dst = some parent)
    (hdir : (k.ns start).locateDir parent = some dir) :
    NamesIn k start dir dst ∧ ∀ path, stagingPath dst = .ok path → NamesIn k start dir path := by
  refine ⟨fun entry hlocate => ?_, fun path hpath entry hlocate => ?_⟩
  · have hentry := (dirnameR_basenameR_of_locate hlocate).1 parent hparent
    exact Option.some.inj (hentry.symm.trans hdir)
  · obtain ⟨other, hother, hentry⟩ := locateDir_of_staging hpath hlocate
    obtain rfl := Option.some.inj (hother.symm.trans hparent)
    exact Option.some.inj (hentry.symm.trans hdir)

/-- Between the two halves of the preserved time only the parent directory is touched. -/
theorem cloneOver_touches {parent : Path} (hparent : dirnameR dst = some parent)
    (hdir : (k.ns start).locateDir parent = some dir) :
    ⦃fun fs => ⌜TouchesUnder k dir before start fs⌝⦄ cloneOver k src dst
    ⦃⇓ _ fs => ⌜TouchesOnly k dir before fs⌝⦄ := by
  obtain ⟨hdst, hstaging⟩ := namesIn_of_dirname hparent hdir
  refine triple_bind (tmpName_triple (fun _ => TouchesUnder.tick) fun _ => TouchesUnder.fail)
    fun name => ?_
  cases name with
  | error errno => exact triple_pure fun _ h => h.1.touches
  | ok path =>
      refine triple_of_imp (fun _ h => h.2 path rfl) fun hpath => ?_
      have hin := hstaging path hpath
      have hthrough : ⦃fun fs => ⌜TouchesUnder k dir before start fs⌝⦄ cloneThrough k src dst path
          ⦃⇓ _ fs => ⌜TouchesOnly k dir before fs⌝⦄ :=
        cloneThrough_invariant (fun _ => TouchesUnder.tick) (fun _ => TouchesUnder.fail)
          (fun _ h => h.touches) (clonefile_touches hin) (copyfileMetadata_touches dst path)
          (rename_touches hin hdst) (unlink_touches hin)
      exact triple_consequence hthrough (fun _ h => h.1) fun _ _ h => h

/-! ### The two halves of the preserved time -/

/-- What a call that reads reports, it found in a state like that before it. -/
theorem readCall_found {α : Type} {keep : FileSystem → Prop} {call : Call}
    {find : FileSystem → Except Errno α} (tick : ∀ fs, keep fs → keep fs.tick)
    (fail : ∀ fs, keep fs → keep fs.fail) :
    ⦃fun fs => ⌜keep fs⌝⦄ k.readCall call find
    ⦃⇓ result fs => ⌜keep fs ∧
      ∀ value, result = .ok value → ∃ fs', keep fs' ∧ find fs' = .ok value⌝⦄ := by
  rw [triple_iff]
  intro fs h
  cases houtcome : k.outcome call find fs with
  | ok found =>
      rw [readCall_of_ok houtcome]
      refine ⟨tick _ h, fun value hvalue => ⟨fs, h, ?_⟩⟩
      rw [← Except.ok.inj hvalue]
      exact (outcome_eq_ok.mp houtcome).2
  | error errno =>
      rw [readCall_of_error houtcome]
      exact ⟨fail _ (tick _ h), by simp⟩

/-- The times and the entries are those of two states. -/
def TimesAndNodes (before start fs : FileSystem) : Prop :=
  fs.mtime = before.mtime ∧ fs.nodes = start.nodes

/-- `dir_mtime` reports the parent directory and its time, and changes nothing. -/
theorem dirMtime_reports (before start : FileSystem) :
    ⦃fun fs => ⌜TimesAndNodes before start fs⌝⦄ dirMtime k dst
    ⦃⇓ found fs => ⌜TimesAndNodes before start fs ∧ ∀ fd time, found = .ok (fd, time) →
      time = before.mtime fd ∧
        ∃ parent, dirnameR dst = some parent ∧ (k.ns start).locateDir parent = some fd⌝⦄ := by
  unfold dirMtime
  cases hparent : dirnameR dst with
  | none => exact triple_pure fun _ h => ⟨h, by simp⟩
  | some parent =>
      refine triple_bind (readCall_found (fun _ h => h) fun _ h => h) fun opened => ?_
      cases opened with
      | error errno => exact triple_pure fun _ h => ⟨h.1, by simp⟩
      | ok fd =>
          refine triple_of_imp (fun _ h => h.2 fd rfl) fun hopened => ?_
          have hdir : (k.ns start).locateDir parent = some fd := by
            obtain ⟨fs', hsame, hfound⟩ := hopened
            rw [ns_of_nodes hsame.2] at hfound
            cases hlocate : (k.ns start).locateDir parent with
            | none => simp [hlocate] at hfound
            | some dir => simpa [hlocate] using hfound
          have hstat : ⦃fun fs => ⌜TimesAndNodes before start fs⌝⦄ k.fstat fd
              ⦃⇓ result fs => ⌜TimesAndNodes before start fs ∧ ∀ value, result = .ok value →
                ∃ fs' : FileSystem, TimesAndNodes before start fs' ∧
                  (.ok (fs'.mtime fd) : Except Errno Nat) = .ok value⌝⦄ :=
            readCall_found (fun _ h => h) fun _ h => h
          refine triple_bind (triple_consequence hstat (fun _ h => h.1) fun _ _ h => h)
            fun stat => ?_
          cases stat with
          | error errno => exact triple_pure fun _ h => ⟨h.1, by simp⟩
          | ok mtime =>
              refine triple_pure fun fs h => ⟨h.1, fun fd' time heq => ?_⟩
              obtain ⟨rfl, rfl⟩ := Prod.mk.inj (Except.ok.inj heq)
              obtain ⟨fs', hsame, hfound⟩ := h.2 mtime rfl
              refine ⟨?_, parent, rfl, hdir⟩
              rw [← Except.ok.inj hfound, hsame.1]

/-- `restore_dir_mtime` sets back what was touched. -/
theorem restoreDirMtime_restores (spares : k.Spares (.futimens dir)) :
    ⦃fun fs => ⌜TouchesOnly k dir before fs⌝⦄ restoreDirMtime k dir (before.mtime dir)
    ⦃⇓ _ fs => ⌜fs.mtime = before.mtime⌝⦄ := by
  have hset : ⦃fun fs => ⌜TouchesOnly k dir before fs⌝⦄ k.futimens dir (before.mtime dir)
      ⦃⇓ _ fs => ⌜fs.mtime = before.mtime⌝⦄ := by
    rw [triple_iff]
    intro fs h
    cases hwritable : k.dirWritable dir with
    | true =>
        have houtcome : k.outcome (.futimens dir)
            (fun _ => require .eperm (k.dirWritable dir)) fs = .ok () :=
          outcome_eq_ok.mpr ⟨spares _, by simp [hwritable]⟩
        rw [futimens, writeCall_of_ok houtcome]
        have hticked : TouchesOnly k dir before fs.tick := h
        exact hticked.restore.1 hwritable
    | false =>
        -- the call is refused, and nothing had changed
        have hsame := h.restore.2 hwritable
        unfold futimens writeCall
        split
        · rename_i found houtcome
          have hfound := (outcome_eq_ok.mp houtcome).2
          simp [hwritable] at hfound
        · exact hsame
  exact triple_bind hset fun _ => triple_pure fun _ h => h

/-- `replace_with_clone` with the parent's time preserved keeps the time of every directory. -/
theorem replaceWithClone_mtime (spares : ∀ dir, k.Spares (.futimens dir)) (src dst : Path)
    (before : FileSystem) :
    ⦃fun fs => ⌜fs.mtime = before.mtime⌝⦄ replaceWithClone k src dst true
    ⦃⇓ _ fs => ⌜fs.mtime = before.mtime⌝⦄ := by
  rw [triple_iff]
  intro start hstart
  have hrun : ⦃fun fs => ⌜TimesAndNodes before start fs⌝⦄ replaceWithClone k src dst true
      ⦃⇓ _ fs => ⌜fs.mtime = before.mtime⌝⦄ := by
    unfold replaceWithClone
    rw [if_pos rfl]
    refine triple_bind (dirMtime_reports before start) fun found => ?_
    cases found with
    | error errno => exact triple_pure fun _ h => h.1.1
    | ok found =>
        rcases found with ⟨fd, time⟩
        refine triple_of_imp (fun _ h => h.2 fd time rfl) fun hfound => ?_
        rcases hfound with ⟨rfl, parent, hparent, hdir⟩
        have hover : ⦃fun fs => ⌜TimesAndNodes before start fs⌝⦄ cloneOver k src dst
            ⦃⇓ _ fs => ⌜TouchesOnly k fd before fs⌝⦄ := by
          refine triple_consequence (cloneOver_touches hparent hdir) (fun fs h => ?_)
            fun _ _ h => h
          refine ⟨fun other hother => absurd (congrFun h.1 other) hother, fun entry dir hlink => ?_⟩
          rwa [FileSystem.dirLinks_of_nodes h.2] at hlink
        refine triple_bind (triple_consequence hover (fun _ h => h.1) fun _ _ h => h)
          fun result => ?_
        exact triple_bind (restoreDirMtime_restores (spares fd)) fun _ => triple_pure fun _ h => h
  exact triple_iff.mp hrun start ⟨hstart, rfl⟩

end

/-! ### Whole runs -/

/-- The reads of `deduplicate` keep the times of the directories. -/
theorem readsKeep_mtime (k : Kernel) (before : FileSystem) :
    ReadsKeep (fsCalls k) fun fs => fs.mtime = before.mtime where
  getCloneId path fs h :=
    triple_iff.mp (getAttribute_triple (fun fs => fs.mtime = before.mtime) _ path
      (fun _ h => h) fun _ h => h) fs h
  privateSize path fs h :=
    triple_iff.mp (getAttribute_triple (fun fs => fs.mtime = before.mtime) _ path
      (fun _ h => h) fun _ h => h) fs h

/-- A run in clone mode with `-m` leaves every directory with the modification time it had,
whichever calls fail, as long as setting a time does not. -/
theorem parentMtime_preserved (k : Kernel) (spares : ∀ dir, k.Spares (.futimens dir))
    (opts : Options) (mode : opts.replaceMode = .clone)
    (preserve : opts.preserveParentMtime = true) (lists : List (List FileMetadata))
    (ctx : Context FileSystem) (dir : Dir) :
    (deduplicateAll (fsCalls k) opts lists ctx).world.mtime dir = ctx.world.mtime dir := by
  have hkeeps : (deduplicateAll (fsCalls k) opts lists ctx).world.mtime = ctx.world.mtime := by
    refine deduplicateAll_keeps (I := fun fs : FileSystem => fs.mtime = ctx.world.mtime)
      (readsKeep_mtime k ctx.world) (fun list _ origin _ m _ _ _ fs h => ?_) rfl
    simp only [callReplacement, mode, fsCalls, preserve]
    exact triple_iff.mp (replaceWithClone_mtime spares origin.fm.path m.fm.path ctx.world) fs h
  rw [hkeeps]

/-- Two equal files of one byte in the root directory. -/
def equalFiles : FileSystem :=
  FileSystem.ofFiles
    [(['a'], ⟨[1], ⟨0o644, 0, 0⟩, 1, 1⟩), (['b'], ⟨[1], ⟨0o644, 0, 0⟩, 2, 1⟩)]

/-- A run in clone mode with `-m`. -/
def preservingOptions : Options where
  replaceMode := .clone
  force := false
  dryRun := false
  preserveParentMtime := true
  verbosity := 0

/-- Without `-m` a run over the two files changes the time of their directory. -/
example : (deduplicateAll (fsCalls (rootKernel fun _ _ => none))
    { preservingOptions with preserveParentMtime := false }
    [[listedFile 'a' 1, listedFile 'b' 2]] (startContext equalFiles)).world.mtime [] ≠
      equalFiles.mtime [] := by
  decide

/-- The run at the two files, of which the second is replaced. -/
theorem parentMtime_preserved_equalFiles :
    (deduplicateAll (fsCalls (rootKernel fun _ _ => none)) preservingOptions
      [[listedFile 'a' 1, listedFile 'b' 2]] (startContext equalFiles)).world.mtime [] =
        equalFiles.mtime [] :=
  parentMtime_preserved (rootKernel fun _ _ => none) (fun _ _ => rfl) preservingOptions rfl rfl
    [[listedFile 'a' 1, listedFile 'b' 2]] (startContext equalFiles) []

end Dedup
