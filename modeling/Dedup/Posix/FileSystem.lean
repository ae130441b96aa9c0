/-
Module: Dedup.Posix.FileSystem
Purpose: The files of a fixed tree of directories: what stands at each entry, the inodes, the
  modification times of the directories and a clock.  Symbolic links are followed when a path is
  resolved, and one that leads to a directory may be taken away like a file.  A file system carries
  the fact that its entries name allocated inodes only, so that a new inode is named by nothing.
Imports: Dedup.Posix.Path
Trusted boundary: human-reviewed spec of inodes, hard links and symbolic links.  No directory is made
  or removed, a link to one leads there without the help of another link, and the links that are
  made lead to no directory
Main exports: Metadata, Inode, Node, FileSystem, follow, Reaches, reaches_of_kept, createFile,
  removeNode, moveNode, addLink, addSymlink, setMetadata, dirLinks, FewerLinks
-/
import Dedup.Posix.Path

namespace Dedup.Posix

/-- `UF_IMMUTABLE` of `sys/stat.h`. -/
def ufImmutable : Nat := 0x2

/-- `SF_IMMUTABLE` of `sys/stat.h`. -/
def sfImmutable : Nat := 0x20000

/-- The attributes that `COPYFILE_METADATA` copies. -/
structure Metadata where
  mode : Nat
  flags : Nat
  acl : Nat
deriving DecidableEq, Repr

/-- An immutable flag is set. -/
def Metadata.immutable (metadata : Metadata) : Bool :=
  metadata.flags &&& ufImmutable ≠ 0 || metadata.flags &&& sfImmutable ≠ 0

/-- A regular file. -/
structure Inode where
  content : List UInt8
  metadata : Metadata
  cloneId : Nat
  nlink : Nat
deriving DecidableEq, Repr

/-- What stands at an entry that is not a directory. -/
inductive Node where
  | file (ino : Nat)
  /-- a symbolic link that leads to no directory -/
  | symlink (target : Path)
  /-- a symbolic link that leads to a directory -/
  | dirLink (dir : Dir)
deriving DecidableEq, Repr

/-- The directory that a link leads to. -/
def linkedDir : Option Node → Option Dir
  | some (.dirLink dir) => some dir
  | _ => none

theorem linkedDir_of_file {node : Option Node} {ino : Nat} (h : node = some (.file ino)) :
    linkedDir node = none := by
  rw [h]
  rfl

theorem linkedDir_of_free {node : Option Node} (h : node = none) : linkedDir node = none := by
  rw [h]
  rfl

/-- The files over a fixed tree of directories.  The clock counts the system calls made, and
`failures` those of them that failed. -/
structure FileSystem where
  nodes : Entry → Option Node
  inode : Nat → Inode
  nextIno : Nat
  mtime : Dir → Nat
  clock : Nat
  failures : Nat
  allocated : ∀ entry ino, nodes entry = some (.file ino) → ino < nextIno

/-- Regular files in the root directory, each with an inode of its own. -/
def FileSystem.ofFiles (files : List (Name × Inode)) : FileSystem where
  nodes entry :=
    if entry.dir = [] then (files.findIdx? fun file => file.1 = entry.name).map .file else none
  inode ino := ((files.map Prod.snd)[ino]?).getD ⟨[], ⟨0, 0, 0⟩, 0, 0⟩
  nextIno := files.length
  mtime _ := 0
  clock := 0
  failures := 0
  allocated := by
    intro entry ino h
    split at h
    · rcases Option.map_eq_some_iff.mp h with ⟨_, hfound, heq⟩
      obtain rfl := Node.file.inj heq
      exact (List.findIdx?_eq_some_iff_findIdx_eq.mp hfound).1
    · simp at h

/-! ### Following symbolic links -/

/-- The symbolic links that one resolution may follow, and one. -/
def maxSymlinks : Nat := 33

/-- The regular file that an entry leads to, with the entry where it stands. -/
def follow (ns : Namespace) (nodes : Entry → Option Node) : Nat → Entry → Option (Entry × Nat)
  | 0, _ => none
  | fuel + 1, entry =>
      match nodes entry with
      | some (.file ino) => some (entry, ino)
      | some (.symlink target) => (ns.locateFrom entry.dir target).bind (follow ns nodes fuel)
      | some (.dirLink _) => none
      | none => none

theorem follow_of_file {ns : Namespace} {nodes : Entry → Option Node} {entry : Entry} {ino : Nat}
    (h : nodes entry = some (.file ino)) (fuel : Nat) :
    follow ns nodes (fuel + 1) entry = some (entry, ino) := by
  simp [follow, h]

theorem follow_of_symlink {ns : Namespace} {nodes : Entry → Option Node} {entry next : Entry}
    {target : Path} (h : nodes entry = some (.symlink target))
    (hnext : ns.locateFrom entry.dir target = some next) (fuel : Nat) :
    follow ns nodes (fuel + 1) entry = follow ns nodes fuel next := by
  simp [follow, h, hnext]

/-- More fuel finds the same file. -/
theorem follow_mono {ns : Namespace} {nodes : Entry → Option Node} {fuel fuel' : Nat}
    {entry : Entry} {result : Entry × Nat} (hle : fuel ≤ fuel')
    (h : follow ns nodes fuel entry = some result) : follow ns nodes fuel' entry = some result := by
  induction fuel generalizing fuel' entry with
  | zero => simp [follow] at h
  | succ fuel ih =>
      match fuel', hle with
      | fuel' + 1, hle =>
          unfold follow at h ⊢
          cases hnode : nodes entry with
          | none => simp [hnode] at h
          | some node =>
              cases node with
              | file ino => simpa [hnode] using h
              | symlink target =>
                  simp only [hnode, Option.bind_eq_some_iff] at h ⊢
                  rcases h with ⟨next, hnext, hrest⟩
                  exact ⟨next, hnext, ih (Nat.le_of_succ_le_succ hle) hrest⟩
              | dirLink dir => simp [hnode] at h

/-- An entry leads to an inode. -/
def Reaches (ns : Namespace) (nodes : Entry → Option Node) (entry : Entry) (ino : Nat) : Prop :=
  ∃ target, follow ns nodes maxSymlinks entry = some (target, ino)

theorem Reaches.unique {ns : Namespace} {nodes : Entry → Option Node} {entry : Entry}
    {ino ino' : Nat} (h : Reaches ns nodes entry ino) (h' : Reaches ns nodes entry ino') :
    ino = ino' := by
  rcases h with ⟨target, hfollow⟩
  rcases h' with ⟨target', hfollow'⟩
  exact (Prod.mk.inj (Option.some.inj (hfollow.symm.trans hfollow'))).2

/-- Something stands at an entry that leads to a file. -/
theorem Reaches.occupied {ns : Namespace} {nodes : Entry → Option Node} {entry : Entry}
    {ino : Nat} (h : Reaches ns nodes entry ino) : ∃ node, nodes entry = some node := by
  rcases h with ⟨target, hfollow⟩
  cases hnode : nodes entry with
  | none => simp [maxSymlinks, follow, hnode] at hfollow
  | some node => exact ⟨node, rfl⟩

/-- What leads to a file is no link to a directory. -/
theorem Reaches.no_dirLink {ns : Namespace} {nodes : Entry → Option Node} {entry : Entry}
    {ino : Nat} (h : Reaches ns nodes entry ino) : linkedDir (nodes entry) = none := by
  rcases h with ⟨target, hfollow⟩
  cases hnode : nodes entry with
  | none => rfl
  | some node =>
      cases node with
      | file ino => rfl
      | symlink text => rfl
      | dirLink dir => simp [maxSymlinks, follow, hnode] at hfollow

theorem reaches_of_file {ns : Namespace} {nodes : Entry → Option Node} {entry : Entry} {ino : Nat}
    (h : nodes entry = some (.file ino)) : Reaches ns nodes entry ino := by
  refine ⟨entry, ?_⟩
  simp [maxSymlinks, follow, h]

/-- Resolution after a change.  Where every entry that led to an inode stands as it did, or now
holds a file that is related to that inode, it leads to a related inode. -/
theorem reaches_of_kept {ns : Namespace} {before after : Entry → Option Node}
    {related : Nat → Nat → Prop}
    (kept : ∀ entry ino, Reaches ns before entry ino →
      (after entry = before entry ∧ (before entry = some (.file ino) → related ino ino)) ∨
        ∃ ino', after entry = some (.file ino') ∧ related ino ino')
    {entry : Entry} {ino : Nat} (h : Reaches ns before entry ino) :
    ∃ ino', Reaches ns after entry ino' ∧ related ino ino' := by
  have hfuel : ∀ fuel ≤ maxSymlinks, ∀ entry target,
      follow ns before fuel entry = some (target, ino) →
        ∃ target' ino', follow ns after fuel entry = some (target', ino') ∧ related ino ino' := by
    intro fuel
    induction fuel with
    | zero =>
        intro _ entry target hfollow
        simp [follow] at hfollow
    | succ fuel ih =>
        intro hle entry target hfollow
        rcases kept entry ino ⟨target, follow_mono hle hfollow⟩ with
          ⟨hsame, hrelated⟩ | ⟨ino', hfile, hrelated⟩
        · unfold follow at hfollow
          cases hnode : before entry with
          | none => simp [hnode] at hfollow
          | some node =>
              cases node with
              | file ino' =>
                  obtain ⟨rfl, rfl⟩ :=
                    Prod.mk.inj (Option.some.inj (by simpa [hnode] using hfollow))
                  refine ⟨entry, ino', ?_, hrelated hnode⟩
                  simp [follow, hsame, hnode]
              | symlink link =>
                  simp only [hnode, Option.bind_eq_some_iff] at hfollow
                  rcases hfollow with ⟨next, hnext, hrest⟩
                  obtain ⟨target', ino', hfollow', hrelated'⟩ :=
                    ih (Nat.le_of_succ_le hle) next target hrest
                  refine ⟨target', ino', ?_, hrelated'⟩
                  simp [follow, hsame, hnode, hnext, hfollow']
              | dirLink dir => simp [hnode] at hfollow
        · exact ⟨entry, ino', by simp [follow, hfile], hrelated⟩
  rcases h with ⟨target, hfollow⟩
  obtain ⟨target', ino', hfollow', hrelated⟩ := hfuel maxSymlinks (le_refl _) entry target hfollow
  exact ⟨ino', ⟨target', hfollow'⟩, hrelated⟩

/-! ### Updates -/

namespace FileSystem

/-- One more system call. -/
def tick (fs : FileSystem) : FileSystem :=
  { fs with clock := fs.clock + 1 }

/-- One more system call that failed. -/
def fail (fs : FileSystem) : FileSystem :=
  { fs with failures := fs.failures + 1 }

/-- A directory is changed now. -/
def touch (fs : FileSystem) (dir : Dir) : FileSystem :=
  { fs with mtime := Function.update fs.mtime dir fs.clock }

/-- The modification time of a directory is set. -/
def setMtime (fs : FileSystem) (dir : Dir) (time : Nat) : FileSystem :=
  { fs with mtime := Function.update fs.mtime dir time }

/-- One link of an inode less, where a file stood at an entry. -/
def dropLink (inode : Nat → Inode) : Option Node → Nat → Inode
  | some (.file ino) =>
      Function.update inode ino { inode ino with nlink := (inode ino).nlink - 1 }
  | _ => inode

/-- A new file at an entry. -/
def createFile (fs : FileSystem) (entry : Entry) (inode : Inode) : FileSystem :=
  { fs with
    nodes := Function.update fs.nodes entry (some (.file fs.nextIno))
    inode := Function.update fs.inode fs.nextIno inode
    nextIno := fs.nextIno + 1
    allocated := by
      intro other ino h
      rcases eq_or_ne other entry with rfl | hother
      · simp only [Function.update_self, Option.some.injEq, Node.file.injEq] at h
        omega
      · rw [Function.update_of_ne hother] at h
        exact Nat.lt_succ_of_lt (fs.allocated other ino h) }

@[simp] theorem createFile_nodes_self (fs : FileSystem) (entry : Entry) (inode : Inode) :
    (fs.createFile entry inode).nodes entry = some (.file fs.nextIno) :=
  Function.update_self _ _ _

theorem createFile_nodes_of_ne (fs : FileSystem) {entry other : Entry} (h : other ≠ entry)
    (inode : Inode) : (fs.createFile entry inode).nodes other = fs.nodes other :=
  Function.update_of_ne h _ _

@[simp] theorem createFile_inode_nextIno (fs : FileSystem) (entry : Entry) (inode : Inode) :
    (fs.createFile entry inode).inode fs.nextIno = inode :=
  Function.update_self _ _ _

/-- A file that was there is not the new one. -/
theorem createFile_inode_of_node {fs : FileSystem} {other : Entry} {ino : Nat}
    (h : fs.nodes other = some (.file ino)) (entry : Entry) (inode : Inode) :
    (fs.createFile entry inode).inode ino = fs.inode ino :=
  Function.update_of_ne (fs.allocated other ino h).ne _ _

/-- Nothing at an entry any more. -/
def removeNode (fs : FileSystem) (entry : Entry) : FileSystem :=
  { fs with
    nodes := Function.update fs.nodes entry none
    inode := dropLink fs.inode (fs.nodes entry)
    allocated := by
      intro other ino h
      rcases eq_or_ne other entry with rfl | hother
      · simp at h
      · rw [Function.update_of_ne hother] at h
        exact fs.allocated other ino h }

/-- What stands at one entry takes the place of what stands at another. -/
def moveNode (fs : FileSystem) (source entry : Entry) : FileSystem :=
  { fs with
    nodes := Function.update (Function.update fs.nodes source none) entry (fs.nodes source)
    inode := dropLink fs.inode (fs.nodes entry)
    allocated := by
      intro other ino h
      rcases eq_or_ne other entry with rfl | hother
      · rw [Function.update_self] at h
        exact fs.allocated source ino h
      · rw [Function.update_of_ne hother] at h
        rcases eq_or_ne other source with rfl | hsource
        · simp at h
        · rw [Function.update_of_ne hsource] at h
          exact fs.allocated other ino h }

/-- One link of an inode more, where a file stands at an entry. -/
def raiseLink (inode : Nat → Inode) : Option Node → Nat → Inode
  | some (.file ino) =>
      Function.update inode ino { inode ino with nlink := (inode ino).nlink + 1 }
  | _ => inode

/-- One more entry for what stands at an entry. -/
def addLink (fs : FileSystem) (source entry : Entry) : FileSystem :=
  { fs with
    nodes := Function.update fs.nodes entry (fs.nodes source)
    inode := raiseLink fs.inode (fs.nodes source)
    allocated := by
      intro other ino h
      rcases eq_or_ne other entry with rfl | hother
      · rw [Function.update_self] at h
        exact fs.allocated source ino h
      · rw [Function.update_of_ne hother] at h
        exact fs.allocated other ino h }

/-- A symbolic link at an entry. -/
def addSymlink (fs : FileSystem) (entry : Entry) (target : Path) : FileSystem :=
  { fs with
    nodes := Function.update fs.nodes entry (some (.symlink target))
    allocated := by
      intro other ino h
      rcases eq_or_ne other entry with rfl | hother
      · simp at h
      · rw [Function.update_of_ne hother] at h
        exact fs.allocated other ino h }

/-- The metadata of an inode is replaced. -/
def setMetadata (fs : FileSystem) (ino : Nat) (metadata : Metadata) : FileSystem :=
  { fs with inode := Function.update fs.inode ino { fs.inode ino with metadata := metadata } }

theorem createFile_setMetadata (fs : FileSystem) (entry : Entry) (inode : Inode)
    (metadata : Metadata) :
    (fs.createFile entry inode).setMetadata fs.nextIno metadata =
      fs.createFile entry { inode with metadata := metadata } := by
  simp [setMetadata, createFile]

/-- Dropping a link changes neither content nor metadata. -/
@[simp] theorem dropLink_content (inode : Nat → Inode) (node : Option Node) (ino : Nat) :
    (dropLink inode node ino).content = (inode ino).content := by
  unfold dropLink
  split
  · rename_i dropped
    rcases eq_or_ne ino dropped with rfl | hino
    · simp
    · rw [Function.update_of_ne hino]
  · rfl

@[simp] theorem dropLink_metadata (inode : Nat → Inode) (node : Option Node) (ino : Nat) :
    (dropLink inode node ino).metadata = (inode ino).metadata := by
  unfold dropLink
  split
  · rename_i dropped
    rcases eq_or_ne ino dropped with rfl | hino
    · simp
    · rw [Function.update_of_ne hino]
  · rfl

/-! ### The links to directories -/

/-- Where the symbolic links to directories lead. -/
def dirLinks (fs : FileSystem) (entry : Entry) : Option Dir :=
  linkedDir (fs.nodes entry)

variable {fs : FileSystem} {entry source : Entry}

theorem dirLinks_of_nodes {before : FileSystem} (h : fs.nodes = before.nodes) :
    fs.dirLinks = before.dirLinks := by
  funext entry
  rw [dirLinks, dirLinks, h]

/-- Another node at an entry where no link to a directory comes or goes. -/
theorem linkedDir_update {nodes : Entry → Option Node} {node : Option Node}
    (hold : linkedDir (nodes entry) = none) (hnew : linkedDir node = none) :
    (fun other => linkedDir (Function.update nodes entry node other)) =
      fun other => linkedDir (nodes other) := by
  funext other
  rcases eq_or_ne other entry with rfl | hne
  · rw [Function.update_self, hold, hnew]
  · rw [Function.update_of_ne hne]

theorem dirLinks_createFile (hfree : fs.nodes entry = none) (inode : Inode) :
    (fs.createFile entry inode).dirLinks = fs.dirLinks :=
  linkedDir_update (linkedDir_of_free hfree) rfl

theorem dirLinks_removeNode (h : linkedDir (fs.nodes entry) = none) :
    (fs.removeNode entry).dirLinks = fs.dirLinks :=
  linkedDir_update h rfl

theorem dirLinks_addSymlink (h : linkedDir (fs.nodes entry) = none) (target : Path) :
    (fs.addSymlink entry target).dirLinks = fs.dirLinks :=
  linkedDir_update h rfl

theorem dirLinks_addLink (hsource : linkedDir (fs.nodes source) = none)
    (h : linkedDir (fs.nodes entry) = none) : (fs.addLink source entry).dirLinks = fs.dirLinks :=
  linkedDir_update h hsource

theorem dirLinks_moveNode (hsource : linkedDir (fs.nodes source) = none)
    (h : linkedDir (fs.nodes entry) = none) :
    (fs.moveNode source entry).dirLinks = fs.dirLinks := by
  have hfirst := linkedDir_update hsource (rfl : linkedDir none = none)
  have hentry : linkedDir (Function.update fs.nodes source none entry) = none :=
    (congrFun hfirst entry).trans h
  exact (linkedDir_update hentry hsource).trans hfirst

/-- Every link to a directory was there before. -/
def FewerLinks (fs before : FileSystem) : Prop :=
  ∀ entry dir, fs.dirLinks entry = some dir → before.dirLinks entry = some dir

theorem FewerLinks.refl (fs : FileSystem) : FewerLinks fs fs :=
  fun _ _ h => h

theorem FewerLinks.trans {first second third : FileSystem} (h : FewerLinks first second)
    (h' : FewerLinks second third) : FewerLinks first third :=
  fun entry dir hdir => h' entry dir (h entry dir hdir)

/-- Another node at an entry, which is no link to a directory. -/
theorem fewerLinks_of_changed {before : FileSystem} {entry : Entry}
    (hnodes : ∀ other, other ≠ entry → fs.nodes other = before.nodes other)
    (hnew : linkedDir (fs.nodes entry) = none) : FewerLinks fs before := by
  intro other dir hdir
  rcases eq_or_ne other entry with rfl | hne
  · simp [dirLinks, hnew] at hdir
  · rwa [dirLinks, hnodes other hne] at hdir

theorem fewerLinks_createFile (fs : FileSystem) (entry : Entry) (inode : Inode) :
    FewerLinks (fs.createFile entry inode) fs :=
  fewerLinks_of_changed (fun _ hne => Function.update_of_ne hne _ _)
    (by simp [linkedDir])

theorem fewerLinks_removeNode (fs : FileSystem) (entry : Entry) :
    FewerLinks (fs.removeNode entry) fs :=
  fewerLinks_of_changed (fun _ hne => Function.update_of_ne hne _ _)
    (by simp [removeNode, linkedDir])

theorem fewerLinks_addSymlink (fs : FileSystem) (entry : Entry) (target : Path) :
    FewerLinks (fs.addSymlink entry target) fs :=
  fewerLinks_of_changed (fun _ hne => Function.update_of_ne hne _ _)
    (by simp [addSymlink, linkedDir])

theorem fewerLinks_addLink (hsource : linkedDir (fs.nodes source) = none) (entry : Entry) :
    FewerLinks (fs.addLink source entry) fs :=
  fewerLinks_of_changed (fun _ hne => Function.update_of_ne hne _ _)
    (by simpa [addLink] using hsource)

theorem fewerLinks_moveNode (hsource : linkedDir (fs.nodes source) = none) (entry : Entry) :
    FewerLinks (fs.moveNode source entry) fs := by
  have hmoved : FewerLinks (fs.moveNode source entry) (fs.removeNode source) :=
    fewerLinks_of_changed (fun _ hne => Function.update_of_ne hne _ _)
      (by simpa [moveNode] using hsource)
  exact hmoved.trans (fewerLinks_removeNode fs source)

end FileSystem

end Dedup.Posix
