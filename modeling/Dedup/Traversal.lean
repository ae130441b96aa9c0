/-
Module: Dedup.Traversal
Purpose: The `fts_read` loop of `main` up to its append to the queue, with the device it remembers
  and the two ways in which it prunes.  Over a forest the queue is what a filter that remembers
  nothing leaves of the traversal in which nothing is skipped, but for a device with the number
  that stands for no device, and for a file on a clone-capable device that lies, under `-x`, in a
  directory on one that is not.
Imports: Dedup.Posix.Fts, Dedup.Deduplicate
Trusted boundary: `statfs` of a path reports the volume of the entry's device.  The call follows
  symbolic links, so for an `FTS_SL` entry that leads to another volume it may answer for that one
Main exports: Volumes, isClonefileSupported, TraversalOptions, traverseEntry, traverse, Admitted,
  FilesStay, traverse_queue, FiltersExactly, traverse_filters, traverse_filters_fileAfterMount,
  traverse_not_filters
-/
import Dedup.Posix.Fts
import Dedup.Deduplicate

namespace Dedup

open Posix

/-! ### Clone support -/

/-- What `statfs` and `getattrlist` report of the mounted volumes: the mount point of a device, and
the interface capabilities at a mount point. -/
structure Volumes where
  mountPoint : Int → Option Path
  interfaces : Path → Option (BitVec 32)

/-- `VOL_CAP_INT_CLONE` of `sys/attr.h`. -/
def volCapIntClone : BitVec 32 := 0x00010000

/-- `is_vol_cap_supported` for a path whose `statfs` reports the volume of a device. -/
def isVolCapSupported (volumes : Volumes) (device : Int) (volCap : BitVec 32) : Bool :=
  match volumes.mountPoint device with
  | none => false
  | some mount =>
      match volumes.interfaces mount with
      | none => false
      | some interfaces => interfaces &&& volCap ≠ 0

/-- `is_clonefile_supported`. -/
def isClonefileSupported (volumes : Volumes) (device : Int) : Bool :=
  isVolCapSupported volumes device volCapIntClone

/-! ### The loop -/

/-- What the command line fixes of the traversal: the mode, `-x` and `-d`. -/
structure TraversalOptions where
  replaceMode : ReplaceMode
  oneFileSystem : Bool
  maxDepth : UInt16
deriving DecidableEq, Repr

/-- The variables of the loop. -/
structure TraversalState where
  currentDev : Int
  clonefileSupported : Bool
  queue : List FileEntry
deriving DecidableEq, Repr

/-- The loop starts with `current_dev = -1`. -/
def TraversalState.start : TraversalState where
  currentDev := -1
  clonefileSupported := false
  queue := []

/-- The entry looks like a previously failed clone. -/
def looksLikeFailedClone (path : Path) : Bool :=
  min path.length pathMax > 3 && path[0]? = some '.' && path[1]? = some '~' && path[2]? = some '.'

/-- The arguments of `file_entry_queue_append`. -/
def fileEntryOf (entry : FtsEnt) : FileEntry where
  path := entry.path
  device := entry.stat.device
  inode := entry.stat.inode
  nlink := entry.stat.nlink
  flags := entry.stat.flags
  size := entry.stat.size

/-- The second half of the loop body: what is queued. -/
def queueFile (entry : FtsEnt) (s : TraversalState) : TraversalState :=
  if entry.info = .d || entry.info = .dc || entry.info = .dnr || entry.info = .dot ||
      entry.info = .dp then s
  else if entry.info ≠ .f then s
  else if entry.stat.size = 0 then s
  else if looksLikeFailedClone entry.path then s
  else { s with queue := s.queue ++ [fileEntryOf entry] }

/-- A device is remembered, with whether it supports clones. -/
def rememberDevice (volumes : Volumes) (device : Int) (s : TraversalState) : TraversalState :=
  { s with currentDev := device, clonefileSupported := isClonefileSupported volumes device }

/-- The body of the loop, and whether it sets `FTS_SKIP`. -/
def traverseEntry (opts : TraversalOptions) (volumes : Volumes) (entry : FtsEnt)
    (s : TraversalState) : TraversalState × Bool :=
  if entry.errno ≠ 0 then (s, false)
  else if entry.level > opts.maxDepth.toNat + 1 then (s, true)
  else
    let moved := opts.replaceMode = .clone && s.currentDev ≠ entry.stat.device
    let s := if moved then rememberDevice volumes entry.stat.device s else s
    -- under `-x` no volume that supports clones is expected below
    if moved && !s.clonefileSupported && opts.oneFileSystem then (s, true)
    else if opts.replaceMode = .clone && !s.clonefileSupported then (s, false)
    else (queueFile entry s, false)

/-- The whole loop. -/
def traverse (opts : TraversalOptions) (volumes : Volumes) (roots : Forest) : TraversalState :=
  read opts.oneFileSystem (traverseEntry opts volumes) .roots roots .start

/-! ### The filter -/

/-- The mark before the name of a staging file at the start of a longer path. -/
def MarkedFirst (path : Path) : Prop :=
  3 < path.length ∧ ['.', '~', '.'] <+: path

instance (path : Path) : Decidable (MarkedFirst path) :=
  inferInstanceAs (Decidable (_ ∧ _))

/-- What is to be queued of a traversal, entry by entry. -/
structure Admitted (opts : TraversalOptions) (volumes : Volumes) (entry : FtsEnt) : Prop where
  noError : entry.errno = 0
  isFile : entry.info = .f
  nonempty : entry.stat.size ≠ 0
  depth : entry.level ≤ opts.maxDepth.toNat + 1
  volume : opts.replaceMode = .clone → isClonefileSupported volumes entry.stat.device = true
  unmarked : ¬ MarkedFirst entry.path

theorem admitted_iff {opts : TraversalOptions} {volumes : Volumes} {entry : FtsEnt} :
    Admitted opts volumes entry ↔ entry.errno = 0 ∧ entry.info = .f ∧ entry.stat.size ≠ 0 ∧
      entry.level ≤ opts.maxDepth.toNat + 1 ∧
        (opts.replaceMode = .clone → isClonefileSupported volumes entry.stat.device = true) ∧
          ¬ MarkedFirst entry.path :=
  ⟨fun h => ⟨h.noError, h.isFile, h.nonempty, h.depth, h.volume, h.unmarked⟩,
    fun ⟨herror, hfile, hsize, hdepth, hvolume, hmark⟩ =>
      ⟨herror, hfile, hsize, hdepth, hvolume, hmark⟩⟩

instance (opts : TraversalOptions) (volumes : Volumes) (entry : FtsEnt) :
    Decidable (Admitted opts volumes entry) :=
  decidable_of_iff _ admitted_iff.symm

theorem looksLikeFailedClone_iff {path : Path} :
    looksLikeFailedClone path = true ↔ MarkedFirst path := by
  have hmax : 3 < pathMax := by decide
  unfold looksLikeFailedClone MarkedFirst
  match path with
  | [] => simp
  | [_] => simp
  | [_, _] => simp
  | [_, _, _] => simp
  | first :: second :: third :: fourth :: rest =>
      simp [hmax, List.cons_prefix_cons, and_assoc, @eq_comm Char '.', @eq_comm Char '~']

/-- The second half of the loop body queues what passes its tests. -/
theorem queueFile_queue (entry : FtsEnt) (s : TraversalState) :
    (queueFile entry s).queue = s.queue ++
      if entry.info = .f ∧ entry.stat.size ≠ 0 ∧ ¬ MarkedFirst entry.path then [fileEntryOf entry]
      else [] := by
  unfold queueFile
  by_cases hfile : entry.info = .f
  · simp only [hfile, reduceCtorEq, decide_false, Bool.or_self, Bool.false_eq_true, if_false,
      ne_eq, not_true_eq_false, true_and, looksLikeFailedClone_iff]
    by_cases hsize : entry.stat.size = 0
    · simp [hsize]
    · by_cases hmark : MarkedFirst entry.path
      · simp [hsize, hmark]
      · simp [hsize, hmark]
  · simp [hfile]

/-- It does not touch the remembered device. -/
theorem queueFile_device (entry : FtsEnt) (s : TraversalState) :
    (queueFile entry s).currentDev = s.currentDev ∧
      (queueFile entry s).clonefileSupported = s.clonefileSupported := by
  unfold queueFile
  split_ifs <;> exact ⟨rfl, rfl⟩

/-! ### One turn of the loop -/

section

variable {opts : TraversalOptions} {volumes : Volumes}

/-- The remembered support for clones is that of the remembered device. -/
def Remembers (opts : TraversalOptions) (volumes : Volumes) (s : TraversalState) : Prop :=
  opts.replaceMode = .clone → s.clonefileSupported = isClonefileSupported volumes s.currentDev

/-- A turn ends where it is, or with what it queues; the remembered device may be another. -/
theorem traverseEntry_cases (opts : TraversalOptions) (volumes : Volumes) (entry : FtsEnt)
    (s : TraversalState) :
    ∃ seen : TraversalState, seen.queue = s.queue ∧
      ((traverseEntry opts volumes entry s).1 = seen ∨
        (traverseEntry opts volumes entry s).1 = queueFile entry seen) := by
  unfold traverseEntry
  split
  · exact ⟨s, rfl, .inl rfl⟩
  split
  · exact ⟨s, rfl, .inl rfl⟩
  dsimp only
  generalize hseen : (if opts.replaceMode = .clone && s.currentDev ≠ entry.stat.device then
    rememberDevice volumes entry.stat.device s else s) = seen
  refine ⟨seen, ?_, ?_⟩
  · rw [← hseen]
    split <;> rfl
  split
  · exact .inl rfl
  split
  · exact .inl rfl
  · exact .inr rfl

/-- In another mode than that of clones the volume is not looked at. -/
theorem traverseEntry_of_other_mode {entry : FtsEnt} {s : TraversalState}
    (herror : entry.errno = 0) (hdepth : entry.level ≤ opts.maxDepth.toNat + 1)
    (hmode : opts.replaceMode ≠ .clone) :
    traverseEntry opts volumes entry s = (queueFile entry s, false) := by
  simp [traverseEntry, herror, Nat.not_lt.mpr hdepth, hmode]

/-- In clone mode, a turn on a volume whose support for clones is remembered or looked up. -/
theorem traverseEntry_of_clone {entry : FtsEnt} {s : TraversalState}
    (herror : entry.errno = 0) (hdepth : entry.level ≤ opts.maxDepth.toNat + 1)
    (hclone : opts.replaceMode = .clone) (hinv : Remembers opts volumes s) :
    ∃ seen : TraversalState, seen.queue = s.queue ∧ Remembers opts volumes seen ∧
      ((isClonefileSupported volumes entry.stat.device = true ∧
          traverseEntry opts volumes entry s = (queueFile entry seen, false)) ∨
        (isClonefileSupported volumes entry.stat.device = false ∧
          ∃ skip, traverseEntry opts volumes entry s = (seen, skip) ∧
            (skip = true → opts.oneFileSystem = true))) := by
  have hknown := hinv hclone
  unfold traverseEntry
  rw [if_neg (not_not.mpr herror), if_neg (Nat.not_lt.mpr hdepth)]
  by_cases hsame : s.currentDev = entry.stat.device
  · refine ⟨s, rfl, hinv, ?_⟩
    rw [hsame] at hknown
    cases hcap : isClonefileSupported volumes entry.stat.device <;>
      simp [hclone, hsame, hknown, hcap]
  · refine ⟨rememberDevice volumes entry.stat.device s, rfl, fun _ => rfl, ?_⟩
    cases hcap : isClonefileSupported volumes entry.stat.device <;>
      cases hxdev : opts.oneFileSystem <;> simp [hclone, hsame, rememberDevice, hcap]

/-- A turn that comes to its second half. -/
theorem queueFile_admitted {entry : FtsEnt} (s : TraversalState) (herror : entry.errno = 0)
    (hdepth : entry.level ≤ opts.maxDepth.toNat + 1)
    (hvolume : opts.replaceMode = .clone →
      isClonefileSupported volumes entry.stat.device = true) :
    (queueFile entry s).queue = s.queue ++
      if Admitted opts volumes entry then [fileEntryOf entry] else [] := by
  have hadmitted : Admitted opts volumes entry ↔
      entry.info = .f ∧ entry.stat.size ≠ 0 ∧ ¬ MarkedFirst entry.path :=
    ⟨fun h => ⟨h.isFile, h.nonempty, h.unmarked⟩,
      fun ⟨hfile, hsize, hmark⟩ => ⟨herror, hfile, hsize, hdepth, hvolume, hmark⟩⟩
  rw [queueFile_queue]
  simp only [hadmitted]

theorem queueFile_remembers {entry : FtsEnt} {s : TraversalState}
    (hinv : Remembers opts volumes s) : Remembers opts volumes (queueFile entry s) := by
  obtain ⟨hdevice, hsupported⟩ := queueFile_device entry s
  intro hclone
  rw [hdevice, hsupported]
  exact hinv hclone

/-- One turn queues its entry where that is admitted. -/
theorem traverseEntry_queue (entry : FtsEnt) (s : TraversalState)
    (hinv : Remembers opts volumes s) :
    Remembers opts volumes (traverseEntry opts volumes entry s).1 ∧
      (traverseEntry opts volumes entry s).1.queue = s.queue ++
        if Admitted opts volumes entry then [fileEntryOf entry] else [] := by
  by_cases herror : entry.errno = 0
  swap
  · rw [if_neg fun h => herror h.noError, traverseEntry, if_pos herror]
    exact ⟨hinv, (List.append_nil _).symm⟩
  by_cases hdepth : entry.level ≤ opts.maxDepth.toNat + 1
  swap
  · rw [if_neg fun h => hdepth h.depth, traverseEntry, if_neg (not_not.mpr herror),
      if_pos (Nat.not_le.mp hdepth)]
    exact ⟨hinv, (List.append_nil _).symm⟩
  by_cases hclone : opts.replaceMode = .clone
  · obtain ⟨seen, hqueue, hseen, ⟨hcapable, hturn⟩ | ⟨hrefused, skip, hturn, _⟩⟩ :=
      traverseEntry_of_clone herror hdepth hclone hinv
    · rw [hturn, ← hqueue]
      exact ⟨queueFile_remembers hseen, queueFile_admitted seen herror hdepth fun _ => hcapable⟩
    · rw [hturn, if_neg fun h => by simp [h.volume hclone] at hrefused]
      exact ⟨hseen, by rw [hqueue, List.append_nil]⟩
  · rw [traverseEntry_of_other_mode herror hdepth hclone]
    exact ⟨queueFile_remembers hinv,
      queueFile_admitted s herror hdepth fun h => absurd h hclone⟩

/-- Where `FTS_SKIP` is set: too deep, or on a volume without clones under `-x`. -/
theorem traverseEntry_skip {entry : FtsEnt} {s : TraversalState}
    (hinv : Remembers opts volumes s) (hskip : (traverseEntry opts volumes entry s).2 = true) :
    entry.level > opts.maxDepth.toNat + 1 ∨
      (opts.replaceMode = .clone ∧ opts.oneFileSystem = true ∧
        isClonefileSupported volumes entry.stat.device = false) := by
  by_cases herror : entry.errno = 0
  swap
  · simp [traverseEntry, herror] at hskip
  by_cases hdepth : entry.level ≤ opts.maxDepth.toNat + 1
  swap
  · exact .inl (Nat.not_le.mp hdepth)
  by_cases hclone : opts.replaceMode = .clone
  · obtain ⟨seen, _, _, ⟨_, hturn⟩ | ⟨hrefused, skip, hturn, hxdev⟩⟩ :=
      traverseEntry_of_clone herror hdepth hclone hinv
    · simp [hturn] at hskip
    · rw [hturn] at hskip
      exact .inr ⟨hclone, hxdev hskip, hrefused⟩
  · simp [traverseEntry_of_other_mode herror hdepth hclone] at hskip

end

/-! ### The whole loop -/

/-- Under `FTS_XDEV`, no file on a volume that supports clones lies in a directory on one that
does not. -/
def FilesStay (volumes : Volumes) : Place → Forest → Prop
  | _, .nil => True
  | place, .leaf _ info _ stat rest =>
      (info = .f → isClonefileSupported volumes stat.device = true →
        isClonefileSupported volumes (place.device stat) = true) ∧ FilesStay volumes place rest
  | place, .dir name stat children _ rest =>
      (place.crosses true stat = false → FilesStay volumes (place.enter name stat) children) ∧
        FilesStay volumes place rest

section

variable {opts : TraversalOptions} {volumes : Volumes}

/-- Below a directory on a volume without clones nothing is admitted. -/
theorem not_admitted_of_filesStay (hclone : opts.replaceMode = .clone) {dir : Path} {level : Nat}
    {device : Int} (hvolume : isClonefileSupported volumes device = false) {forest : Forest}
    (hstay : FilesStay volumes (.inside dir level device) forest) :
    ∀ entry ∈ entries true (.inside dir level device) forest, ¬ Admitted opts volumes entry := by
  induction forest generalizing dir level with
  | nil => simp [entries]
  | leaf name info errno stat rest ih =>
      intro entry hentry hadmitted
      rcases List.mem_cons.mp hentry with rfl | hentry
      · have hcapable := hstay.1 hadmitted.isFile (hadmitted.volume hclone)
        simp [Place.device, hvolume] at hcapable
      · exact ih hstay.2 entry hentry hadmitted
  | dir name stat children errno rest ihChildren ihRest =>
      intro entry hentry hadmitted
      simp only [entries, List.mem_cons, List.mem_append] at hentry
      have hfile := hadmitted.isFile
      rcases hentry with rfl | hentry | hentry
      · simp at hfile
      · split at hentry
        · obtain rfl := List.mem_singleton.mp hentry
          simp at hfile
        · rename_i hcross
          rcases List.mem_append.mp hentry with hentry | hentry
          · exact ihChildren (hstay.1 (Bool.eq_false_iff.mpr hcross)) entry hentry hadmitted
          · obtain rfl := List.mem_singleton.mp hentry
            exact absurd hfile (afterDir_ne_file children errno)
      · exact ihRest hstay.2 entry hentry hadmitted

/-- Nothing admitted is pruned. -/
theorem traverse_prunesNothing {place : Place} {forest : Forest}
    (hstay : opts.replaceMode = .clone → opts.oneFileSystem = true →
      FilesStay volumes place forest) :
    PrunesNothing opts.oneFileSystem
      (fun entry => ∃ s, Remembers opts volumes s ∧ (traverseEntry opts volumes entry s).2 = true)
      (fun entry => Admitted opts volumes entry) place forest := by
  induction forest generalizing place with
  | nil => trivial
  | leaf name info errno stat rest ih => exact ih fun hclone hxdev => (hstay hclone hxdev).2
  | dir name stat children errno rest ihChildren ihRest =>
      refine ⟨fun hcross => ⟨?_, ?_⟩, ihRest fun hclone hxdev => (hstay hclone hxdev).2⟩
      · rintro ⟨s, hinv, hskip⟩ entry hentry
        rw [decide_eq_false_iff_not]
        rcases traverseEntry_skip hinv hskip with hdeep | ⟨hclone, hxdev, hrefused⟩
        · intro hadmitted
          have hlevel := level_of_mem_entries hentry
          have hdepth := hadmitted.depth
          simp only [Place.enter_level, Place.entry_level] at hlevel hdeep
          omega
        · rw [hxdev] at hentry hcross
          have hdevice : stat.device = place.device stat := by
            simpa [Place.crosses] using hcross
          have hvolume : isClonefileSupported volumes (place.device stat) = false :=
            hdevice ▸ hrefused
          have hchildren := (hstay hclone hxdev).1 hcross
          exact not_admitted_of_filesStay hclone hvolume hchildren entry hentry
      · refine ihChildren fun hclone hxdev => (hstay hclone hxdev).1 ?_
        rwa [hxdev] at hcross

/-- The loop queues what is admitted, where it starts with what it remembers right. -/
theorem traverse_queue (hnodev : opts.replaceMode = .clone →
      isClonefileSupported volumes (-1) = false)
    {roots : Forest} (hstay : opts.replaceMode = .clone → opts.oneFileSystem = true →
      FilesStay volumes .roots roots) :
    (traverse opts volumes roots).queue =
      ((entries opts.oneFileSystem .roots roots).filter
        fun entry => Admitted opts volumes entry).map fileEntryOf := by
  have hstart : Remembers opts volumes .start := fun hclone => (hnodev hclone).symm
  have hgathers := read_gathers TraversalState.queue fileEntryOf
    (fun entry hkeep => (of_decide_eq_true hkeep).isFile)
    (fun entry s hs => by simpa using traverseEntry_queue entry s hs)
    (traverse_prunesNothing hstay) hstart
  exact hgathers.2

end

/-- The queue holds the files that are admitted, in the order of the traversal in which nothing is
skipped. -/
def FiltersExactly (opts : TraversalOptions) (volumes : Volumes) (roots : Forest) : Prop :=
  (traverse opts volumes roots).queue =
    ((entries opts.oneFileSystem .roots roots).filter
      fun entry => Admitted opts volumes entry).map fileEntryOf

/-- The loop loses nothing and admits nothing extra, provided that in clone mode the number that
stands for no device is not that of a volume that supports clones and that under `-x` no file on
such a volume lies in a directory on one that does not support them. -/
theorem traverse_filters (opts : TraversalOptions) (volumes : Volumes) (roots : Forest)
    (hnodev : opts.replaceMode = .clone → isClonefileSupported volumes (-1) = false)
    (hstay : opts.replaceMode = .clone → opts.oneFileSystem = true →
      FilesStay volumes .roots roots) :
    FiltersExactly opts volumes roots :=
  traverse_queue hnodev hstay

/-- A file of one byte on a device. -/
def byteOn (device : Int) : Stat where
  device := device
  inode := 0
  nlink := 1
  flags := 0
  size := 1

/-- The first volume supports clones, the second does not; a device is mounted on one of them. -/
def twoKinds (capable : Int → Bool) : Volumes where
  mountPoint device := some (if capable device then ['/'] else ['/', 'm'])
  interfaces mount := some (if mount = ['/'] then volCapIntClone else 0)

/-- Clones in any depth, below the roots' devices only. -/
def cloneOneFileSystem : TraversalOptions where
  replaceMode := .clone
  oneFileSystem := true
  maxDepth := 65535

/-- A directory with a file in it. -/
def oneFileIn (dirDevice fileDevice : Int) : Forest :=
  .dir ['d'] (byteOn dirDevice) (.leaf ['f'] .f 0 (byteOn fileDevice) .nil) 0 .nil

/-- A directory with a mount point, which has a file in it, and a file after that. -/
def fileAfterMount : Forest :=
  .dir ['d'] (byteOn 1)
    (.dir ['m'] (byteOn 2) (.leaf ['g'] .f 0 (byteOn 2) .nil) 0
      (.leaf ['f'] .f 0 (byteOn 1) .nil)) 0 .nil

/-- The conditions hold where another volume, without clones, is mounted before a file. -/
theorem traverse_filters_fileAfterMount :
    FiltersExactly cloneOneFileSystem (twoKinds fun device => device = 1) fileAfterMount ∧
      (traverse cloneOneFileSystem (twoKinds fun device => device = 1) fileAfterMount).queue =
        [fileEntryOf ⟨['d', '/', 'f'], 1, .f, 0, byteOn 1⟩] := by
  refine ⟨traverse_filters cloneOneFileSystem (twoKinds fun device => device = 1) fileAfterMount
    (fun _ => by decide) fun _ _ => ?_, by decide⟩
  simp [fileAfterMount, FilesStay, Place.enter, Place.device, Place.crosses, byteOn]

/-- A file is lost on a volume with the number that stands for no device, and so is one whose
directory is on a volume without clones, under `-x`. -/
theorem traverse_not_filters :
    ¬ FiltersExactly cloneOneFileSystem (twoKinds fun _ => true)
        (.leaf ['f'] .f 0 (byteOn (-1)) .nil) ∧
      ¬ FiltersExactly cloneOneFileSystem (twoKinds fun device => device = 1) (oneFileIn 2 1) := by
  constructor
  · unfold FiltersExactly
    decide
  · unfold FiltersExactly
    decide

end Dedup
