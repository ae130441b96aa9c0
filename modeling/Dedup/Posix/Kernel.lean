/-
Module: Dedup.Posix.Kernel
Purpose: The system calls on files as computations over a file system.  A call fails when the
  kernel's pattern of faults says so at that time, or when the state of the files forbids it.
Imports: Dedup.Lib.StateTriple, Dedup.Posix.FileSystem
Trusted boundary: human-reviewed spec of the calls.  `clonefile` and `copyfile` are used on
  regular files only, `open` on directories; a name that leads nowhere is reported by `ENOENT`
Main exports: Errno, Call, Kernel, Sys, Kernel.ns, Kernel.readCall, Kernel.writeCall, access, stat,
  clonefile, copyfileCheck, copyfileMetadata, rename, unlink, link, symlink, realpath, openDir,
  fstat, futimens, getattrlist
-/
import Dedup.Lib.StateTriple
import Dedup.Posix.FileSystem

namespace Dedup.Posix

open Std.Do

/-- The values of `errno` that occur. -/
inductive Errno where
  | eperm
  | enoent
  | eio
  | eacces
  | efault
  | eexist
  | exdev
  | eisdir
  | emlink
  | enametoolong
deriving DecidableEq, Repr

/-- The number of an error in `sys/errno.h`. -/
def Errno.code : Errno → Int
  | .eperm => 1
  | .enoent => 2
  | .eio => 5
  | .eacces => 13
  | .efault => 14
  | .eexist => 17
  | .exdev => 18
  | .eisdir => 21
  | .emlink => 31
  | .enametoolong => 63

/-- The mode argument of `access`. -/
inductive AccessMode where
  | exist
  | write
deriving DecidableEq, Repr

/-- A system call with its arguments. -/
inductive Call where
  | access (path : Path) (mode : AccessMode)
  | stat (path : Path)
  | clonefile (src dst : Path)
  | copyfile (src dst : Path) (check : Bool)
  | rename (src dst : Path)
  | unlink (path : Path)
  | link (src dst : Path)
  | symlink (target : Option Path) (path : Path)
  | realpath (path : Path)
  | openDir (path : Path)
  | fstat (dir : Dir)
  | futimens (dir : Dir)
  | getattrlist (path : Path)
deriving DecidableEq, Repr

/-- What does not change while the process runs: the directories, the rights of the process, the
volume's limits and reports, and which call is made to fail at which time. -/
structure Kernel where
  tree : DirTree
  fault : Nat → Call → Option Errno
  mayWrite : Metadata → Bool
  dirWritable : Dir → Bool
  dirSize : Dir → Nat
  linkMax : Nat
  /-- the bits that `copyfile` reports under `COPYFILE_CHECK` -/
  copyfileBits : Inode → BitVec 32
  /-- the metadata that a `copyfile` which fails may leave on its target -/
  partialMetadata : Nat → Metadata → Metadata
  privateSize : FileSystem → Nat → Nat

/-- A kernel over a root directory that grants everything but its faults. -/
def rootKernel (fault : Nat → Call → Option Errno) : Kernel where
  tree := DirTree.rootOnly
  fault := fault
  mayWrite _ := true
  dirWritable _ := true
  dirSize _ := 64
  linkMax := 32767
  copyfileBits _ := 0
  partialMetadata _ metadata := metadata
  privateSize _ _ := 0

/-- A computation of the process. -/
abbrev Sys := StateM FileSystem

namespace Kernel

variable (k : Kernel) {α : Type}

/-- What paths are read in: the directories, and the links to directories that stand now. -/
def ns (fs : FileSystem) : Namespace :=
  k.tree.withLinks fs.dirLinks

variable {k} in
theorem ns_congr {fs fs' : FileSystem} (h : fs.dirLinks = fs'.dirLinks) : k.ns fs = k.ns fs' := by
  rw [ns, ns, h]

variable {k} in
theorem ns_of_nodes {fs fs' : FileSystem} (h : fs.nodes = fs'.nodes) : k.ns fs = k.ns fs' :=
  ns_congr (FileSystem.dirLinks_of_nodes h)

variable {k} in
/-- Another node at an entry that leads to no directory, before or after. -/
theorem ns_of_changed {fs fs' : FileSystem} {entry : Entry}
    (hnodes : ∀ other, other ≠ entry → fs'.nodes other = fs.nodes other)
    (hold : (k.ns fs).dirLink entry = none) (hnew : linkedDir (fs'.nodes entry) = none) :
    k.ns fs' = k.ns fs := by
  refine DirTree.withLinks_congr fun other => ?_
  rcases eq_or_ne other entry with rfl | hne
  · refine Eq.trans ?_ hold.symm
    simp [DirTree.withLinks, FileSystem.dirLinks, hnew]
  · simp [DirTree.withLinks, FileSystem.dirLinks, hnodes other hne]

variable {k} in
/-- Fewer links stand, and fewer are read. -/
theorem ns_fewer {fs before : FileSystem} (h : fs.FewerLinks before) :
    Namespace.Fewer (k.ns fs) (k.ns before) := by
  refine ⟨rfl, fun entry dir hlink => ?_⟩
  simp only [ns, DirTree.withLinks] at hlink ⊢
  split at hlink
  · simp at hlink
  · rename_i hholds
    rw [if_neg hholds]
    obtain ⟨hdir, hisDir⟩ := Option.filter_eq_some_iff.mp hlink
    exact Option.filter_eq_some_iff.mpr ⟨h entry dir hdir, hisDir⟩

variable {k} in
/-- Nothing stands at an entry, and nothing below it is reached. -/
theorem occupied_of_free {fs : FileSystem} {entry : Entry} (hdir : k.tree.holds entry = false)
    (hnode : linkedDir (fs.nodes entry) = none) : (k.ns fs).occupied entry = false := by
  have hlink : (k.ns fs).dirLink entry = none := by
    simp [ns, DirTree.withLinks, FileSystem.dirLinks, hnode]
  rw [Namespace.occupied, hlink]
  exact (Bool.or_false _).trans hdir

/-- The regular file that a path names, with the entry where it stands. -/
def resolve (path : Path) (fs : FileSystem) : Option (Entry × Nat) :=
  ((k.ns fs).locate path).bind (follow (k.ns fs) fs.nodes maxSymlinks)

/-- A path names a regular file. -/
def Names (fs : FileSystem) (path : Path) (ino : Nat) : Prop :=
  ∃ entry, (k.ns fs).locate path = some entry ∧ Reaches (k.ns fs) fs.nodes entry ino

variable {k} in
theorem names_of_resolve {path : Path} {fs : FileSystem} {entry : Entry} {ino : Nat}
    (h : k.resolve path fs = some (entry, ino)) : k.Names fs path ino := by
  rcases Option.bind_eq_some_iff.mp h with ⟨start, hlocate, hfollow⟩
  exact ⟨start, hlocate, entry, hfollow⟩

variable {k} in
theorem resolve_of_names {path : Path} {fs : FileSystem} {ino : Nat} (h : k.Names fs path ino) :
    ∃ entry, k.resolve path fs = some (entry, ino) := by
  rcases h with ⟨start, hlocate, entry, hfollow⟩
  exact ⟨entry, by simp [resolve, hlocate, hfollow]⟩

variable {k} in
/-- A path to an entry where a file stands. -/
theorem resolve_of_file {path : Path} {fs : FileSystem} {entry : Entry} {ino : Nat}
    (hlocate : (k.ns fs).locate path = some entry) (hnode : fs.nodes entry = some (.file ino)) :
    k.resolve path fs = some (entry, ino) := by
  rw [resolve, hlocate, Option.bind_some]
  exact follow_of_file hnode 32

variable {k} in
/-- A path to an entry where nothing stands. -/
theorem resolve_of_free {path : Path} {fs : FileSystem} {entry : Entry}
    (hlocate : (k.ns fs).locate path = some entry) (hnode : fs.nodes entry = none) :
    k.resolve path fs = none := by
  rw [resolve, hlocate, Option.bind_some]
  simp [maxSymlinks, follow, hnode]

variable {k} in
theorem Names.unique {fs : FileSystem} {path : Path} {ino ino' : Nat} (h : k.Names fs path ino)
    (h' : k.Names fs path ino') : ino = ino' := by
  rcases h with ⟨entry, hlocate, hreaches⟩
  rcases h' with ⟨entry', hlocate', hreaches'⟩
  obtain rfl := Option.some.inj (hlocate.symm.trans hlocate')
  exact hreaches.unique hreaches'

/-- The result of a system call that succeeds where it finds what it needs. -/
def outcome (call : Call) (find : FileSystem → Except Errno α) (fs : FileSystem) :
    Except Errno α :=
  match k.fault fs.clock call with
  | some errno => .error errno
  | none => find fs

/-- A system call that reads. -/
def readCall (call : Call) (find : FileSystem → Except Errno α) : Sys (Except Errno α) := fun fs =>
  match k.outcome call find fs with
  | .ok result => (.ok result, fs.tick)
  | .error errno => (.error errno, fs.tick.fail)

/-- A system call that changes the file system. -/
def writeCall (call : Call) (find : FileSystem → Except Errno α)
    (effect : α → FileSystem → FileSystem) : Sys (Except Errno Unit) := fun fs =>
  match k.outcome call find fs with
  | .ok found => (.ok (), effect found fs.tick)
  | .error errno => (.error errno, fs.tick.fail)

/-! ### Conditions of the calls -/

/-- A value that may be missing. -/
def orErrno {β : Type} (errno : Errno) : Option β → Except Errno β
  | some value => .ok value
  | none => .error errno

/-- A condition of a call. -/
def require (errno : Errno) (condition : Bool) : Except Errno Unit :=
  if condition then .ok () else .error errno

theorem bind_eq_ok {β γ : Type} {x : Except Errno β} {f : β → Except Errno γ} {result : γ} :
    (x >>= f) = .ok result ↔ ∃ value, x = .ok value ∧ f value = .ok result := by
  cases x <;> simp [bind, Except.bind]

theorem pure_eq_ok {β : Type} {value result : β} :
    (pure value : Except Errno β) = .ok result ↔ value = result := by
  simp [pure, Except.pure]

@[simp] theorem orErrno_eq_ok {β : Type} {errno : Errno} {x : Option β} {value : β} :
    orErrno errno x = .ok value ↔ x = some value := by
  cases x <;> simp [orErrno]

@[simp] theorem require_eq_ok {errno : Errno} {condition : Bool} {u : Unit} :
    require errno condition = .ok u ↔ condition = true := by
  cases condition <;> simp [require]

@[simp] theorem isOk_ok {β : Type} (value : β) :
    (Except.ok value : Except Errno β).isOk = true := rfl

@[simp] theorem isOk_error {β : Type} (errno : Errno) :
    (Except.error errno : Except Errno β).isOk = false := rfl

/-- The node at an entry is a file with an immutable flag. -/
def immutableAt (fs : FileSystem) (entry : Entry) : Bool :=
  match fs.nodes entry with
  | some (.file ino) => (fs.inode ino).metadata.immutable
  | _ => false

/-- Two entries are one, or names of one file. -/
def sameFile (fs : FileSystem) (first second : Entry) : Bool :=
  first = second ||
    match fs.nodes first, fs.nodes second with
    | some (.file ino), some (.file ino') => ino = ino'
    | _, _ => false

/-- A regular file by its path. -/
def findFile (path : Path) (fs : FileSystem) : Except Errno (Entry × Nat) :=
  orErrno .enoent (k.resolve path fs)

/-- The entry of a path where something other than a directory stands, and may be taken away; a
symbolic link is taken away itself, wherever it leads. -/
def findRemovable (path : Path) (fs : FileSystem) : Except Errno Entry := do
  let entry ← orErrno .enoent ((k.ns fs).locate path)
  require .eisdir (!k.tree.holds entry)
  require .enoent (fs.nodes entry).isSome
  require .eacces (k.dirWritable entry.dir)
  require .eperm (!immutableAt fs entry)
  return entry

/-- The entry of a path where nothing stands, in a directory that the process may change. -/
def findFree (path : Path) (fs : FileSystem) : Except Errno Entry := do
  let entry ← orErrno .enoent ((k.ns fs).locate path)
  require .eexist (!k.tree.holds entry && (fs.nodes entry).isNone)
  require .eacces (k.dirWritable entry.dir)
  return entry

/-- What a clone is made of, and the entry where it is put. -/
def findClone (src dst : Path) (fs : FileSystem) : Except Errno (Nat × Entry) := do
  let (source, ino) ← k.findFile src fs
  let entry ← k.findFree dst fs
  require .exdev (k.tree.device source.dir = k.tree.device entry.dir)
  return (ino, entry)

/-- The files between which metadata is copied. -/
def findCopy (src dst : Path) (fs : FileSystem) : Except Errno (Nat × Nat) := do
  let (_, ino) ← k.findFile src fs
  let (_, target) ← k.findFile dst fs
  require .eperm (!(fs.inode target).metadata.immutable)
  return (ino, target)

/-- The two entries of a renaming. -/
def findRename (src dst : Path) (fs : FileSystem) : Except Errno (Entry × Entry) := do
  let source ← k.findRemovable src fs
  let entry ← orErrno .enoent ((k.ns fs).locate dst)
  require .eisdir (!k.tree.holds entry)
  require .exdev (k.tree.device source.dir = k.tree.device entry.dir)
  require .eacces (k.dirWritable entry.dir)
  require .eperm (!immutableAt fs entry)
  return (source, entry)

/-- The entry of the file that gets one more name, and the entry of the new name. -/
def findLink (src dst : Path) (fs : FileSystem) : Except Errno (Entry × Entry) := do
  let (source, ino) ← k.findFile src fs
  let entry ← k.findFree dst fs
  require .exdev (k.tree.device source.dir = k.tree.device entry.dir)
  require .eperm (!(fs.inode ino).metadata.immutable)
  require .emlink ((fs.inode ino).nlink < k.linkMax)
  return (source, entry)

/-- The text of a new symbolic link and its entry; the target `none` is the null pointer. -/
def findSymlink (target : Option Path) (path : Path) (fs : FileSystem) :
    Except Errno (Path × Entry) := do
  let text ← orErrno .efault target
  require .enoent (text ≠ [])
  require .enametoolong (text.length < pathMax)
  let entry ← k.findFree path fs
  return (text, entry)

/-! ### When the conditions hold -/

section

variable {k} {path src dst text : Path} {fs : FileSystem} {entry source : Entry} {ino target : Nat}

theorem findFile_eq_ok :
    k.findFile path fs = .ok (source, ino) ↔ k.resolve path fs = some (source, ino) :=
  orErrno_eq_ok

theorem findRemovable_eq_ok :
    k.findRemovable path fs = .ok entry ↔
      (k.ns fs).locate path = some entry ∧ k.tree.holds entry = false ∧
        (fs.nodes entry).isSome = true ∧ k.dirWritable entry.dir = true ∧
          immutableAt fs entry = false := by
  simp only [findRemovable, bind_eq_ok, orErrno_eq_ok, require_eq_ok, pure_eq_ok,
    Bool.not_eq_true']
  constructor
  · rintro ⟨_, hlocate, _, hholds, _, hnode, _, hdir, _, himmutable, rfl⟩
    exact ⟨hlocate, hholds, hnode, hdir, himmutable⟩
  · rintro ⟨hlocate, hholds, hnode, hdir, himmutable⟩
    exact ⟨_, hlocate, (), hholds, (), hnode, (), hdir, (), himmutable, rfl⟩

theorem findFree_eq_ok :
    k.findFree path fs = .ok entry ↔
      (k.ns fs).locate path = some entry ∧ k.tree.holds entry = false ∧ fs.nodes entry = none ∧
        k.dirWritable entry.dir = true := by
  simp only [findFree, bind_eq_ok, orErrno_eq_ok, require_eq_ok, pure_eq_ok, Bool.and_eq_true,
    Bool.not_eq_true', Option.isNone_iff_eq_none]
  constructor
  · rintro ⟨_, hlocate, _, ⟨hholds, hnode⟩, _, hdir, rfl⟩
    exact ⟨hlocate, hholds, hnode, hdir⟩
  · rintro ⟨hlocate, hholds, hnode, hdir⟩
    exact ⟨_, hlocate, (), ⟨hholds, hnode⟩, (), hdir, rfl⟩

/-- A new file where nothing stood comes in the way of no path. -/
theorem ns_createFile (hfree : k.findFree path fs = .ok entry) (inode : Inode) :
    k.ns (fs.createFile entry inode) = k.ns fs :=
  ns_congr (FileSystem.dirLinks_createFile (findFree_eq_ok.mp hfree).2.2.1 inode)

/-- Where a file may be put there is no directory. -/
theorem unoccupied_of_findFree (hfree : k.findFree path fs = .ok entry) :
    (k.ns fs).occupied entry = false := by
  obtain ⟨-, hholds, hempty, -⟩ := findFree_eq_ok.mp hfree
  exact occupied_of_free hholds (linkedDir_of_free hempty)

theorem findClone_eq_ok :
    k.findClone src dst fs = .ok (ino, entry) ↔
      ∃ source, k.resolve src fs = some (source, ino) ∧ k.findFree dst fs = .ok entry ∧
        k.tree.device source.dir = k.tree.device entry.dir := by
  simp only [findClone, bind_eq_ok, require_eq_ok, pure_eq_ok, Prod.exists, findFile_eq_ok,
    Prod.mk.injEq, decide_eq_true_eq]
  constructor
  · rintro ⟨source, _, hsource, _, hentry, _, hdevice, rfl, rfl⟩
    exact ⟨source, hsource, hentry, hdevice⟩
  · rintro ⟨source, hsource, hentry, hdevice⟩
    exact ⟨source, ino, hsource, entry, hentry, (), hdevice, rfl, rfl⟩

theorem findCopy_eq_ok :
    k.findCopy src dst fs = .ok (ino, target) ↔
      (∃ source, k.resolve src fs = some (source, ino)) ∧
        (∃ entry, k.resolve dst fs = some (entry, target)) ∧
          (fs.inode target).metadata.immutable = false := by
  simp only [findCopy, bind_eq_ok, require_eq_ok, pure_eq_ok, Prod.exists, findFile_eq_ok,
    Prod.mk.injEq, Bool.not_eq_true']
  constructor
  · rintro ⟨source, _, hsource, entry, _, hentry, _, himmutable, rfl, rfl⟩
    exact ⟨⟨source, hsource⟩, ⟨entry, hentry⟩, himmutable⟩
  · rintro ⟨⟨source, hsource⟩, ⟨entry, hentry⟩, himmutable⟩
    exact ⟨source, ino, hsource, entry, target, hentry, (), himmutable, rfl, rfl⟩

theorem findRename_eq_ok :
    k.findRename src dst fs = .ok (source, entry) ↔
      k.findRemovable src fs = .ok source ∧ (k.ns fs).locate dst = some entry ∧
        k.tree.holds entry = false ∧ k.tree.device source.dir = k.tree.device entry.dir ∧
          k.dirWritable entry.dir = true ∧ immutableAt fs entry = false := by
  simp only [findRename, bind_eq_ok, orErrno_eq_ok, require_eq_ok, pure_eq_ok, Prod.mk.injEq,
    Bool.not_eq_true', decide_eq_true_eq]
  constructor
  · rintro ⟨_, hsource, _, hentry, _, hholds, _, hdevice, _, hdir, _, himmutable, rfl, rfl⟩
    exact ⟨hsource, hentry, hholds, hdevice, hdir, himmutable⟩
  · rintro ⟨hsource, hentry, hholds, hdevice, hdir, himmutable⟩
    exact ⟨_, hsource, _, hentry, (), hholds, (), hdevice, (), hdir, (), himmutable, rfl, rfl⟩

theorem findLink_eq_ok :
    k.findLink src dst fs = .ok (source, entry) ↔
      ∃ ino, k.resolve src fs = some (source, ino) ∧ k.findFree dst fs = .ok entry ∧
        k.tree.device source.dir = k.tree.device entry.dir ∧
          (fs.inode ino).metadata.immutable = false ∧ (fs.inode ino).nlink < k.linkMax := by
  simp only [findLink, bind_eq_ok, require_eq_ok, pure_eq_ok, Prod.exists, findFile_eq_ok,
    Prod.mk.injEq, Bool.not_eq_true', decide_eq_true_eq]
  constructor
  · rintro ⟨_, ino, hsource, _, hentry, _, hdevice, _, himmutable, _, hnlink, rfl, rfl⟩
    exact ⟨ino, hsource, hentry, hdevice, himmutable, hnlink⟩
  · rintro ⟨ino, hsource, hentry, hdevice, himmutable, hnlink⟩
    exact ⟨_, ino, hsource, _, hentry, (), hdevice, (), himmutable, (), hnlink, rfl, rfl⟩

theorem findSymlink_eq_ok {string : Option Path} :
    k.findSymlink string path fs = .ok (text, entry) ↔
      string = some text ∧ text ≠ [] ∧ text.length < pathMax ∧ k.findFree path fs = .ok entry := by
  simp only [findSymlink, bind_eq_ok, orErrno_eq_ok, require_eq_ok, pure_eq_ok, Prod.mk.injEq,
    decide_eq_true_eq]
  constructor
  · rintro ⟨_, htext, _, hne, _, hlength, _, hentry, rfl, rfl⟩
    exact ⟨htext, hne, hlength, hentry⟩
  · rintro ⟨htext, hne, hlength, hentry⟩
    exact ⟨_, htext, (), hne, (), hlength, _, hentry, rfl, rfl⟩

end

/-! ### Reading -/

/-- What `access` checks. -/
def checkAccess (path : Path) (mode : AccessMode) (fs : FileSystem) : Except Errno Unit :=
  match k.resolve path fs, (k.ns fs).locateDir path, mode with
  | some _, _, .exist => .ok ()
  | none, some _, .exist => .ok ()
  | some (_, ino), _, .write => do
      require .eperm (!(fs.inode ino).metadata.immutable)
      require .eacces (k.mayWrite (fs.inode ino).metadata)
  | none, some dir, .write => require .eacces (k.dirWritable dir)
  | none, none, _ => .error .enoent

variable {k} in
/-- A check for existence finds a file or a directory. -/
theorem checkAccess_exist_eq_ok {path : Path} {fs : FileSystem} :
    k.checkAccess path .exist fs = .ok () ↔
      (∃ ino, k.Names fs path ino) ∨ ∃ dir, (k.ns fs).locateDir path = some dir := by
  constructor
  · intro h
    cases hresolve : k.resolve path fs with
    | some found => exact .inl ⟨found.2, names_of_resolve hresolve⟩
    | none =>
        cases hdir : (k.ns fs).locateDir path with
        | some dir => exact .inr ⟨dir, rfl⟩
        | none => simp [checkAccess, hresolve, hdir] at h
  · rintro (⟨ino, hnames⟩ | ⟨dir, hdir⟩)
    · rcases resolve_of_names hnames with ⟨entry, hresolve⟩
      simp [checkAccess, hresolve]
    · cases hresolve : k.resolve path fs <;> simp [checkAccess, hresolve, hdir]

/-- `access`. -/
def access (path : Path) (mode : AccessMode) : Sys (Except Errno Unit) :=
  k.readCall (.access path mode) (k.checkAccess path mode)

/-- `stat`, as far as it reports `st_size`. -/
def stat (path : Path) : Sys (Except Errno Nat) :=
  k.readCall (.stat path) fun fs =>
    match k.resolve path fs, (k.ns fs).locateDir path with
    | some (_, ino), _ => .ok (fs.inode ino).content.length
    | none, some dir => .ok (k.dirSize dir)
    | none, none => .error .enoent

/-- The path of a directory without a symbolic link. -/
def canonicalDir (dir : Dir) : Path :=
  if dir = [] then ['/'] else ('/' :: joinDirs dir).dropLast

/-- The path without a symbolic link of what a path names. -/
def findReal (path : Path) (fs : FileSystem) : Except Errno Path :=
  match k.resolve path fs, (k.ns fs).locateDir path with
  | some (entry, _), _ => .ok (canonicalPath entry)
  | none, some dir => .ok (canonicalDir dir)
  | none, none => .error .enoent

variable {k} in
theorem findReal_of_resolve {path : Path} {fs : FileSystem} {entry : Entry} {ino : Nat}
    (h : k.resolve path fs = some (entry, ino)) :
    k.findReal path fs = .ok (canonicalPath entry) := by
  simp [findReal, h]

/-- `realpath` into a buffer of its own. -/
def realpath (path : Path) : Sys (Except Errno Path) :=
  k.readCall (.realpath path) (k.findReal path)

/-- `open` of a directory for reading; the directory stands for the descriptor. -/
def openDir (path : Path) : Sys (Except Errno Dir) :=
  k.readCall (.openDir path) fun fs =>
    match (k.ns fs).locateDir path with
    | some dir => .ok dir
    | none => .error .enoent

/-- `fstat` of a directory, as far as it reports `st_mtimespec`. -/
def fstat (dir : Dir) : Sys (Except Errno Nat) :=
  k.readCall (.fstat dir) fun fs => .ok (fs.mtime dir)

/-- `copyfile` of the metadata under `COPYFILE_CHECK`: what would be copied. -/
def copyfileCheck (src dst : Path) : Sys (Except Errno (BitVec 32)) :=
  k.readCall (.copyfile src dst true) fun fs => do
    let (_, ino) ← k.findFile src fs
    return k.copyfileBits (fs.inode ino)

/-- `getattrlist` of a file for one attribute. -/
def getattrlist (value : FileSystem → Nat → Nat) (path : Path) : Sys (Except Errno Nat) :=
  k.readCall (.getattrlist path) fun fs => do
    let (_, ino) ← k.findFile path fs
    return value fs ino

/-! ### Writing -/

/-- `futimens` with the access time omitted. -/
def futimens (dir : Dir) (time : Nat) : Sys (Except Errno Unit) :=
  k.writeCall (.futimens dir) (fun _ => require .eperm (k.dirWritable dir))
    fun _ fs => fs.setMtime dir time

/-- `clonefile` without flags. -/
def clonefile (src dst : Path) : Sys (Except Errno Unit) :=
  k.writeCall (.clonefile src dst) (k.findClone src dst) fun (ino, entry) fs =>
    (fs.createFile entry { fs.inode ino with nlink := 1 }).touch entry.dir

/-- `copyfile` of the metadata.  One that fails half-way has changed nothing but the metadata of
its target. -/
def copyfileMetadata (src dst : Path) : Sys (Except Errno Unit) := fun fs =>
  match k.outcome (.copyfile src dst false) (k.findCopy src dst) fs with
  | .ok (ino, target) => (.ok (), fs.tick.setMetadata target (fs.inode ino).metadata)
  | .error errno =>
      match k.resolve dst fs with
      | some (_, target) =>
          let metadata := k.partialMetadata fs.clock (fs.inode target).metadata
          (.error errno, (fs.tick.setMetadata target metadata).fail)
      | none => (.error errno, fs.tick.fail)

/-- `rename`, which replaces atomically; two names of one file stay as they are. -/
def rename (src dst : Path) : Sys (Except Errno Unit) :=
  k.writeCall (.rename src dst) (k.findRename src dst) fun (source, entry) fs =>
    if sameFile fs source entry then fs
    else ((fs.moveNode source entry).touch source.dir).touch entry.dir

/-- `unlink`. -/
def unlink (path : Path) : Sys (Except Errno Unit) :=
  k.writeCall (.unlink path) (k.findRemovable path) fun entry fs =>
    (fs.removeNode entry).touch entry.dir

/-- `link`, which follows a symbolic link at its source. -/
def link (src dst : Path) : Sys (Except Errno Unit) :=
  k.writeCall (.link src dst) (k.findLink src dst) fun (source, entry) fs =>
    (fs.addLink source entry).touch entry.dir

/-- `symlink`. -/
def symlink (target : Option Path) (path : Path) : Sys (Except Errno Unit) :=
  k.writeCall (.symlink target path) (k.findSymlink target path) fun (text, entry) fs =>
    (fs.addSymlink entry text).touch entry.dir

/-! ### What a call does -/

section

variable {k} {call : Call} {find : FileSystem → Except Errno α}
  {effect : α → FileSystem → FileSystem} {fs : FileSystem}

theorem outcome_eq_ok {found : α} :
    k.outcome call find fs = .ok found ↔ k.fault fs.clock call = none ∧ find fs = .ok found := by
  unfold outcome
  cases k.fault fs.clock call <;> simp

theorem outcome_eq_error {errno : Errno} (h : k.outcome call find fs = .error errno) :
    k.fault fs.clock call ≠ none ∨ find fs = .error errno := by
  unfold outcome at h
  cases hfault : k.fault fs.clock call with
  | some _ => exact .inl (by simp)
  | none => exact .inr (by simpa [hfault] using h)

theorem readCall_of_ok {result : α} (h : k.outcome call find fs = .ok result) :
    k.readCall call find fs = (.ok result, fs.tick) := by
  simp [readCall, h]

theorem readCall_of_error {errno : Errno} (h : k.outcome call find fs = .error errno) :
    k.readCall call find fs = (.error errno, fs.tick.fail) := by
  simp [readCall, h]

theorem writeCall_of_ok {found : α} (h : k.outcome call find fs = .ok found) :
    k.writeCall call find effect fs = (.ok (), effect found fs.tick) := by
  simp [writeCall, h]

theorem writeCall_of_error {errno : Errno} (h : k.outcome call find fs = .error errno) :
    k.writeCall call find effect fs = (.error errno, fs.tick.fail) := by
  simp [writeCall, h]

/-- A call that reads keeps what does not depend on the clock and the count of failures. -/
theorem readCall_triple (keep : FileSystem → Prop) (tick : ∀ fs, keep fs → keep fs.tick)
    (fail : ∀ fs, keep fs → keep fs.fail) :
    ⦃fun fs => ⌜keep fs⌝⦄ k.readCall call find ⦃⇓ _ fs => ⌜keep fs⌝⦄ := by
  rw [triple_iff]
  intro fs h
  cases houtcome : k.outcome call find fs with
  | ok result => rw [readCall_of_ok houtcome]; exact tick fs h
  | error errno => rw [readCall_of_error houtcome]; exact fail _ (tick fs h)

/-- A call that writes, by its effect where it succeeds. -/
theorem writeCall_triple {pre : FileSystem → Prop} {post : Except Errno Unit → FileSystem → Prop}
    (success : ∀ fs found, pre fs → k.fault fs.clock call = none → find fs = .ok found →
      post (.ok ()) (effect found fs.tick))
    (failure : ∀ fs errno, pre fs → post (.error errno) fs.tick.fail) :
    ⦃fun fs => ⌜pre fs⌝⦄ k.writeCall call find effect ⦃⇓ result fs => ⌜post result fs⌝⦄ := by
  rw [triple_iff]
  intro fs h
  cases houtcome : k.outcome call find fs with
  | ok found =>
      rw [writeCall_of_ok houtcome]
      rcases outcome_eq_ok.mp houtcome with ⟨hfault, hfind⟩
      exact success fs found h hfault hfind
  | error errno =>
      rw [writeCall_of_error houtcome]
      exact failure fs errno h

end

end Kernel

end Dedup.Posix
