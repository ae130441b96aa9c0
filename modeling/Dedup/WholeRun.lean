/-
Module: Dedup.WholeRun
Purpose: The whole program in clone mode: the `fts_read` loop, the scan by `main` and its threads
  with their mutexes, and `deduplicate` on every list of the duplicate tree.  Whatever the scheduler
  does and whatever call fails, every path that named a regular file names one with the same bytes
  and metadata at the end.  What connects the stages is that every listed record is that of a file
  the traversal queued, under the digest of its bytes.
Imports: Dedup.LockedScan, Dedup.SerialScan, Dedup.Traversal,
  Dedup.LinkLosses
Trusted boundary: SHA-256 is collision-free on the files of the traversal; nothing else changes
  the files while the program runs
Main exports: traversed, eligible_traversed, Observed, Describes, DigestsTell, faithful_lists,
  wholeRun_keeps_files
-/
import Dedup.LockedScan
import Dedup.SerialScan
import Dedup.Traversal
import Dedup.LinkLosses

namespace Dedup.WholeRun

open Posix
open CriticalSections (Interleaved)
open WorkQueue (Traversed eligible SerialStep serialInit)
open LockedScan (Config Process Returned Guarded Point)

/-! ### From the traversal to the scan -/

/-- A turn of the loop of `main`, and what it appends to the queue or reports. -/
def traverseTurn (opts : TraversalOptions) (volumes : Volumes) (entry : FtsEnt)
    (s : TraversalState × List (Traversed FileEntry)) :
    (TraversalState × List (Traversed FileEntry)) × Bool :=
  let (next, skip) := traverseEntry opts volumes entry s.1
  let turn :=
    if entry.errno ≠ 0 then [.failed]
    else (next.queue.drop s.1.queue.length).map .eligible
  ((next, s.2 ++ turn), skip)

/-- What the loop of `main` appends to the queue and reports, in this order. -/
def traversed (opts : TraversalOptions) (volumes : Volumes) (roots : Forest) :
    List (Traversed FileEntry) :=
  (read opts.oneFileSystem (traverseTurn opts volumes) .roots roots (.start, [])).2

theorem eligible_append {α : Type} (entries more : List (Traversed α)) :
    eligible (entries ++ more) = eligible entries ++ eligible more := by
  induction entries with
  | nil => rfl
  | cons first rest ih => cases first <;> simp [eligible, ih]

theorem eligible_map {α : Type} (entries : List α) :
    eligible (entries.map Traversed.eligible) = entries := by
  induction entries with
  | nil => rfl
  | cons first rest ih => simp [eligible, ih]

/-- A turn only appends to the queue. -/
theorem queue_prefix (opts : TraversalOptions) (volumes : Volumes) (entry : FtsEnt)
    (s : TraversalState) : s.queue <+: (traverseEntry opts volumes entry s).1.queue := by
  obtain ⟨seen, hseen, hturn | hturn⟩ := traverseEntry_cases opts volumes entry s
  · rw [hturn, hseen]
  · rw [hturn, queueFile_queue, hseen]
    exact List.prefix_append _ _

/-- So does what a turn writes down. -/
theorem eligible_turn {opts : TraversalOptions} {volumes : Volumes} (entry : FtsEnt)
    (s : TraversalState × List (Traversed FileEntry)) (h : eligible s.2 = s.1.queue) :
    eligible (traverseTurn opts volumes entry s).1.2 =
      (traverseTurn opts volumes entry s).1.1.queue := by
  obtain ⟨more, hmore⟩ := queue_prefix opts volumes entry s.1
  simp only [traverseTurn, eligible_append, h]
  split
  · rename_i herror
    simp [eligible, traverseEntry, herror]
  · rw [eligible_map, ← hmore]
    simp

/-- The eligible entries are the queue of the traversal. -/
theorem eligible_traversed (opts : TraversalOptions) (volumes : Volumes) (roots : Forest) :
    eligible (traversed opts volumes roots) = (traverse opts volumes roots).queue := by
  have hproject : (read opts.oneFileSystem (traverseTurn opts volumes) .roots roots
      (TraversalState.start, [])).1 = traverse opts volumes roots :=
    read_projects Prod.fst (fun _ _ => rfl) .roots roots (TraversalState.start, [])
  rw [← hproject]
  exact read_keeps eligible_turn .roots roots rfl

/-! ### What the scan is told -/

/-- What `stat` and the reads of the scan tell of a file is what the file system holds. -/
structure Observed (k : Kernel) (fs : FileSystem) (env : ScanEnv) (fe : FileEntry)
    (ino : Nat) : Prop where
  located : ∃ entry, (k.ns fs).locate fe.path = some entry ∧ fs.nodes entry = some (.file ino)
  nlink : (fs.inode ino).nlink = fe.nlink
  size : (fs.inode ino).content.length = fe.size
  contents : env.contents fe.path = (fs.inode ino).content

theorem Observed.names {k : Kernel} {fs : FileSystem} {env : ScanEnv} {fe : FileEntry} {ino : Nat}
    (h : Observed k fs env fe ino) : k.Names fs fe.path ino := by
  obtain ⟨entry, hlocate, hnode⟩ := h.located
  exact ⟨entry, hlocate, reaches_of_file hnode⟩

/-- Every regular file of a forest is one of the file system. -/
def Describes (k : Kernel) (fs : FileSystem) (env : ScanEnv) (xdev : Bool)
    (roots : Forest) : Prop :=
  ∀ entry ∈ entries xdev .roots roots, entry.errno = 0 → entry.info = .f →
    ∃ ino, Observed k fs env (fileEntryOf entry) ino

/-- The digests tell the files apart: all bytes of a file are hashed, and no two contents have one
digest. -/
structure DigestsTell (env : ScanEnv) (files : List FileEntry) : Prop where
  whole : ∀ fe ∈ files, fe.size < 2 ^ 32
  collisionFree : Set.InjOn env.sha256 {bytes | ∃ fe ∈ files, bytes = env.contents fe.path}

section

variable {k : Kernel} {fs : FileSystem} {env : ScanEnv}

/-- A turn queues only what is a file of the forest. -/
theorem observed_turn {opts : TraversalOptions} {volumes : Volumes} {roots : Forest}
    (describes : Describes k fs env opts.oneFileSystem roots) (entry : FtsEnt) (s : TraversalState)
    (hmem : entry.info = .f → entry ∈ entries opts.oneFileSystem .roots roots)
    (h : ∀ fe ∈ s.queue, ∃ ino, Observed k fs env fe ino) :
    ∀ fe ∈ (traverseEntry opts volumes entry s).1.queue, ∃ ino, Observed k fs env fe ino := by
  by_cases herror : entry.errno = 0
  · obtain ⟨seen, hseen, hturn | hturn⟩ := traverseEntry_cases opts volumes entry s
    · rw [hturn, hseen]
      exact h
    · rw [hturn, queueFile_queue, hseen]
      intro fe hfe
      rcases List.mem_append.mp hfe with hfe | hfe
      · exact h fe hfe
      · split at hfe
        · rename_i hfile
          obtain rfl := List.mem_singleton.mp hfe
          exact describes entry (hmem hfile.1) herror hfile.1
        · simp at hfe
  · simpa [traverseEntry, herror] using h

/-- What is queued is a file of the forest. -/
theorem observed_of_queued {opts : TraversalOptions} {volumes : Volumes} {roots : Forest}
    (describes : Describes k fs env opts.oneFileSystem roots) {fe : FileEntry}
    (h : fe ∈ (traverse opts volumes roots).queue) : ∃ ino, Observed k fs env fe ino :=
  read_keeps_files (observed_turn describes) (by simp [TraversalState.start]) fe h

/-- A record of a file repeats what `stat` told, and its digest is that of the hashed bytes. -/
theorem scanRecord_record {fe : FileEntry} {leafKey : LeafKey} {digest : Digest}
    {fm : FileMetadata} (h : scanRecord env fe = some ((leafKey, digest), fm)) :
    fm.path = fe.path ∧ fm.nlink = fe.nlink ∧ fm.flags = fe.flags ∧
      digest = env.sha256 ((env.contents fe.path).take (ccLong fe.size)) := by
  obtain ⟨empty, hempty, hidentified⟩ := Option.bind_eq_some_iff.mp h
  obtain ⟨first, last, -, -, hread⟩ := metadataFromEntry_eq_some hempty
  obtain ⟨found, hobtain, hpair⟩ := Option.map_eq_some_iff.mp hidentified
  obtain ⟨hkey, rfl⟩ := Prod.mk.inj hpair
  obtain rfl : found = digest := congrArg Prod.snd hkey
  refine ⟨by rw [hread]; rfl, by rw [hread]; rfl, by rw [hread]; rfl, ?_⟩
  have hbytes : hashedBytes env empty = (env.contents fe.path).take (ccLong fe.size) := by
    rw [hread]
    rfl
  have hpopulated := (populate_of_obtain hobtain).1
  rcases populate_cases env empty with ⟨hfull, -⟩ | ⟨-, hfail⟩ | ⟨-, hwritten⟩
  · exact absurd (by rw [hread]) hfull
  · exact absurd (congrArg Prod.fst hpopulated) hfail
  · rw [hwritten, hbytes] at hpopulated
    exact (congrArg (fun populated => populated.2.sha256) hpopulated).symm

/-- Every record in a list of the tree is that of one of the files, under the digest of its
list. -/
def Listed (env : ScanEnv) (files : List FileEntry) (tree : DuplicateTree) : Prop :=
  ∀ (digest : Digest) (list : List FileMetadata), tree[digest]? = some list →
    ∀ fm ∈ list, ∃ fe ∈ files, ∃ leafKey, scanRecord env fe = some ((leafKey, digest), fm)

/-- The file of a listed record. -/
theorem Listed.file {files : List FileEntry} {tree : DuplicateTree} (h : Listed env files tree)
    {list : List FileMetadata} (hlist : list ∈ duplicateSets tree) {fm : FileMetadata}
    (hfm : fm ∈ list) :
    ∃ fe ∈ files, fm.path = fe.path ∧ fm.nlink = fe.nlink ∧ fm.flags = fe.flags := by
  obtain ⟨⟨digest, list⟩, hentry, rfl⟩ := List.mem_map.mp hlist
  obtain ⟨fe, hfe, leafKey, hrecord⟩ :=
    h digest list (Std.TreeMap.mem_toList_iff_getElem?_eq_some.mp hentry) fm hfm
  obtain ⟨hpath, hnlink, hflags, -⟩ := scanRecord_record hrecord
  exact ⟨fe, hfe, hpath, hnlink, hflags⟩

/-- Where the digests tell the files apart, the lists are faithful to the files. -/
theorem faithful_lists {files : List FileEntry} {tree : DuplicateTree}
    (observed : ∀ fe ∈ files, ∃ ino, Observed k fs env fe ino) (tell : DigestsTell env files)
    (listed : Listed env files tree) {list : List FileMetadata}
    (hlist : list ∈ duplicateSets tree) : FaithfulRecords k fs list := by
  obtain ⟨⟨digest, list⟩, hentry, rfl⟩ := List.mem_map.mp hlist
  have hmembers := listed digest list (Std.TreeMap.mem_toList_iff_getElem?_eq_some.mp hentry)
  constructor
  · intro fm hfm
    obtain ⟨fe, hfe, leafKey, hrecord⟩ := hmembers fm hfm
    obtain ⟨hpath, hnlink, -⟩ := scanRecord_record hrecord
    obtain ⟨ino, hobserved⟩ := observed fe hfe
    exact ⟨ino, hpath ▸ hobserved.names, hobserved.nlink.trans hnlink.symm⟩
  · -- the bytes of both are what was hashed to the digest of the list
    have hcontent : ∀ fm ∈ list, ∀ ino, k.Names fs fm.path ino → ∃ fe ∈ files,
        (fs.inode ino).content = env.contents fe.path ∧
          digest = env.sha256 (env.contents fe.path) := by
      intro fm hfm ino hnames
      obtain ⟨fe, hfe, leafKey, hrecord⟩ := hmembers fm hfm
      obtain ⟨hpath, -, -, hdigest⟩ := scanRecord_record hrecord
      obtain ⟨ino', hobserved⟩ := observed fe hfe
      obtain rfl := (hpath ▸ hnames).unique hobserved.names
      refine ⟨fe, hfe, hobserved.contents.symm, ?_⟩
      have hlength : (env.contents fe.path).length = fe.size := by
        rw [hobserved.contents, hobserved.size]
      rwa [ccLong, Nat.mod_eq_of_lt (tell.whole fe hfe), ← hlength, List.take_length] at hdigest
    intro fm hfm fm' hfm' ino ino' hnames hnames'
    obtain ⟨fe, hfe, hbytes, hdigest⟩ := hcontent fm hfm ino hnames
    obtain ⟨fe', hfe', hbytes', hdigest'⟩ := hcontent fm' hfm' ino' hnames'
    rw [hbytes, hbytes']
    exact tell.collisionFree ⟨fe, hfe, rfl⟩ ⟨fe', hfe', rfl⟩ (hdigest.symm.trans hdigest')

/-! ### From the scan to the replacements -/

/-- The duplicate tree that a scan leaves: one by threads, which `main` has joined, or one without
threads that can go no further. -/
inductive Leaves (cfg : Config) (entries : List (Traversed FileEntry)) : DuplicateTree → Prop where
  | threaded {n : Nat} (labels : List (Option (Fin n)))
      (s : Interleaved (Option (Fin n)) Guarded (Point n)) (run : Process cfg entries labels s)
      (returned : Returned s) : Leaves cfg entries (s.shared .duplicates)
  | serial (labels : List (WorkQueue.Label 1)) (s : WorkQueue.State FileEntry 1)
      (run : Run SerialStep (serialInit entries cfg.progress) labels s)
      (stuck : ∀ label s', ¬ SerialStep s label s') :
      Leaves cfg entries (visitAll cfg.env s.visited).duplicates

/-- The listed records are those of files that the traversal queued. -/
theorem listed_of_leaves {opts : TraversalOptions} {volumes : Volumes} {roots : Forest}
    {cfg : Config} {tree : DuplicateTree} (h : Leaves cfg (traversed opts volumes roots) tree) :
    Listed cfg.env (traverse opts volumes roots).queue tree := by
  rw [← eligible_traversed]
  cases h with
  | threaded labels s run returned =>
      obtain ⟨_, u, hrun, hmain, hthreads, shares⟩ :=
        LockedScan.threadedScan_of_returned run returned
      obtain ⟨files, hfiles, hserializes⟩ :=
        ThreadedScan.serialOrder_of_returned hrun hmain hthreads
      intro digest list hlist fm hfm
      obtain ⟨fe, hfe, hrecord⟩ :=
        hserializes.members digest list ((shares.duplicates digest).symm.trans hlist) fm hfm
      exact ⟨fe, hfiles.subset (List.mem_append_left _ hfe), hrecord⟩
  | serial labels s run stuck =>
      have hprefix := (WorkQueue.serialRank_run run
        (WorkQueue.serialInvariant_init _ cfg.progress)).1.visited_first
      intro digest list hlist fm hfm
      obtain ⟨fe, hfe, hrecord⟩ := ThreadedScan.exists_file_of_recorded (List.Perm.refl _)
        (describes_visitAll cfg.env s.visited).duplicates hlist hfm
      exact ⟨fe, hprefix.subset hfe, hrecord⟩

/-! ### The whole program -/

/-- `deduplicate` on every list that the scan leaves. -/
def deduplicateTree (k : Kernel) (opts : Options) (tree : DuplicateTree)
    (ctx : Context FileSystem) : Context FileSystem :=
  deduplicateAll (fsCalls k) opts (duplicateSets tree) ctx

/-- What the program is given: the files of the traversal as they are, with digests that tell them
apart. -/
structure Given (k : Kernel) (volumes : Volumes) (traversal : TraversalOptions) (roots : Forest)
    (env : ScanEnv) (fs : FileSystem) : Prop where
  describes : Describes k fs env traversal.oneFileSystem roots
  tell : DigestsTell env (traverse traversal volumes roots).queue

/-- The lists that the scan leaves are faithful to the files. -/
theorem Given.faithful {volumes : Volumes} {traversal : TraversalOptions} {roots : Forest}
    {cfg : Config} (given : Given k volumes traversal roots cfg.env fs) {tree : DuplicateTree}
    (leaves : Leaves cfg (traversed traversal volumes roots) tree) {list : List FileMetadata}
    (hlist : list ∈ duplicateSets tree) : FaithfulRecords k fs list :=
  faithful_lists (fun _ => observed_of_queued given.describes) given.tell
    (listed_of_leaves leaves) hlist

end

/-! ### Two files -/

/-- Two files of one byte in the root directory. -/
def twoRoots : Forest :=
  .leaf ['a'] .f 0 (byteOn 0) (.leaf ['b'] .f 0 (byteOn 0) .nil)

/-- The files of `twoRoots`. -/
def twoFiles : FileSystem :=
  FileSystem.ofFiles [(['a'], ⟨[97], ⟨0o644, 0, 0⟩, 1, 1⟩), (['b'], ⟨[97], ⟨0o600, 0, 0⟩, 2, 1⟩)]

/-- The scan of `twoFiles`, which are no clones of each other. -/
def twoFilesConfig : Config where
  env := { oneByteEnv with cloneId := fun path => some (if path = ['a'] then 1 else 2) }
  verbosity := 0
  shown := false

/-- A kernel over the root directory is given what the program needs, whatever fails. -/
theorem given_twoFiles (fault : Nat → Call → Option Errno) :
    Given (rootKernel fault) (twoKinds fun _ => true) cloneOneFileSystem twoRoots
      twoFilesConfig.env twoFiles where
  describes := by
    have hfiles : ∀ path : Path, ∀ entry : Entry, ∀ ino : Nat,
        ((rootKernel fault).ns twoFiles).locate path = some entry →
          twoFiles.nodes entry = some (.file ino) →
          (twoFiles.inode ino).nlink = 1 → (twoFiles.inode ino).content = [97] →
            Observed (rootKernel fault) twoFiles twoFilesConfig.env
              (fileEntryOf ⟨path, 0, .f, 0, byteOn 0⟩) ino :=
      fun path entry ino hlocate hnode hnlink hcontent =>
        ⟨⟨entry, hlocate, hnode⟩, hnlink, by rw [hcontent]; rfl, hcontent.symm⟩
    intro entry hentry _ _
    have hcases : entry = ⟨['a'], 0, .f, 0, byteOn 0⟩ ∨ entry = ⟨['b'], 0, .f, 0, byteOn 0⟩ := by
      simpa [twoRoots, entries, Place.entry, Place.path, Place.level] using hentry
    rcases hcases with rfl | rfl
    · exact ⟨0, hfiles ['a'] ⟨[], ['a']⟩ 0 rfl (by decide) (by decide) (by decide)⟩
    · exact ⟨1, hfiles ['b'] ⟨[], ['b']⟩ 1 rfl (by decide) (by decide) (by decide)⟩
  tell := by
    constructor
    · intro fe hfe
      have hsize : ∀ fe ∈ (traverse cloneOneFileSystem (twoKinds fun _ => true) twoRoots).queue,
          fe.size < 2 ^ 32 := by decide
      exact hsize fe hfe
    · rintro _ ⟨_, -, rfl⟩ _ ⟨_, -, rfl⟩ _
      rfl

/-- A thread that starts before `main` appends the two files, and takes them when it has. -/
theorem exists_process :
    ∃ (labels : List (Option (Fin 1))) (s : Interleaved (Option (Fin 1)) Guarded (Point 1)),
      Process twoFilesConfig (traversed cloneOneFileSystem (twoKinds fun _ => true) twoRoots)
        labels s ∧ Returned s := by
  have htraversed : traversed cloneOneFileSystem (twoKinds fun _ => true) twoRoots =
      [.eligible (fileEntryOf ⟨['a'], 0, .f, 0, byteOn 0⟩),
        .eligible (fileEntryOf ⟨['b'], 0, .f, 0, byteOn 0⟩)] := by
    decide
  rw [htraversed]
  refine ⟨_, _, (.cons (.read _ (some 0) _ _ _ rfl rfl) <|
    -- `main`: the two appends and `done`
    .cons (.tau _ none _ _ rfl rfl) <|
    .cons (.acquire _ none _ _ _ rfl rfl rfl) <| .cons (.access _ none _ _ _ _ rfl) <|
    .cons (.release _ none _ _ rfl) <|
    .cons (.tau _ none _ _ rfl rfl) <|
    .cons (.acquire _ none _ _ _ rfl rfl rfl) <| .cons (.access _ none _ _ _ _ rfl) <|
    .cons (.release _ none _ _ rfl) <|
    .cons (.acquire _ none _ _ _ rfl rfl rfl) <| .cons (.access _ none _ _ _ _ rfl) <|
    .cons (.release _ none _ _ rfl) <|
    -- the first file, from the queue into the visited tree
    .cons (.acquire _ (some 0) _ _ _ rfl rfl rfl) <| .cons (.access _ (some 0) _ _ _ _ rfl) <|
    .cons (.access _ (some 0) _ _ _ _ rfl) <| .cons (.release _ (some 0) _ _ rfl) <|
    .cons (.acquire _ (some 0) _ _ _ rfl rfl rfl) <| .cons (.access _ (some 0) _ _ _ _ rfl) <|
    .cons (.access _ (some 0) _ _ _ _ rfl) <| .cons (.release _ (some 0) _ _ rfl) <|
    .cons (.tau _ (some 0) _ _ rfl rfl) <|
    -- the second one, which is recorded and counted
    .cons (.acquire _ (some 0) _ _ _ rfl rfl rfl) <| .cons (.access _ (some 0) _ _ _ _ rfl) <|
    .cons (.access _ (some 0) _ _ _ _ rfl) <| .cons (.release _ (some 0) _ _ rfl) <|
    .cons (.acquire _ (some 0) _ _ _ rfl rfl rfl) <| .cons (.access _ (some 0) _ _ _ _ rfl) <|
    .cons (.access _ (some 0) _ _ _ _ rfl) <| .cons (.release _ (some 0) _ _ rfl) <|
    .cons (.acquire _ (some 0) _ _ _ rfl rfl rfl) <| .cons (.access _ (some 0) _ _ _ _ rfl) <|
    .cons (.access _ (some 0) _ _ _ _ rfl) <| .cons (.access _ (some 0) _ _ _ _ rfl) <|
    .cons (.release _ (some 0) _ _ rfl) <|
    .cons (.acquire _ (some 0) _ _ _ rfl rfl rfl) <| .cons (.access _ (some 0) _ _ _ _ rfl) <|
    .cons (.access _ (some 0) _ _ _ _ rfl) <| .cons (.release _ (some 0) _ _ rfl) <|
    .cons (.tau _ (some 0) _ _ rfl rfl) <| .cons (.tau _ (some 0) _ _ rfl rfl) <|
    -- an empty queue, `done`, and the join
    .cons (.acquire _ (some 0) _ _ _ rfl rfl rfl) <| .cons (.access _ (some 0) _ _ _ _ rfl) <|
    .cons (.access _ (some 0) _ _ _ _ rfl) <| .cons (.release _ (some 0) _ _ rfl) <|
    .cons (.acquire _ (some 0) _ _ _ rfl rfl rfl) <| .cons (.access _ (some 0) _ _ _ _ rfl) <|
    .cons (.release _ (some 0) _ _ rfl) <|
    .cons (.join _ none (some 0) _ _ _ rfl rfl rfl rfl) <| .nil _), rfl, fun i => ?_⟩
  rw [Subsingleton.elim i 0]
  rfl

theorem exists_leaves :
    ∃ tree, Leaves twoFilesConfig
      (traversed cloneOneFileSystem (twoKinds fun _ => true) twoRoots) tree := by
  obtain ⟨labels, s, run, returned⟩ := exists_process
  exact ⟨_, .threaded labels s run returned⟩

/-! ### What every run does -/

/-- `deduplicate` on the lists of a scan keeps every file in clone mode. -/
theorem keeps_of_leaves {k : Kernel} {volumes : Volumes} {traversal : TraversalOptions}
    {roots : Forest} {cfg : Config} {opts : Options} {ctx : Context FileSystem}
    (hmode : PlainCloneMode opts) (given : Given k volumes traversal roots cfg.env ctx.world)
    {tree : DuplicateTree} (leaves : Leaves cfg (traversed traversal volumes roots) tree)
    (spares : SparesAll k opts (duplicateSets tree) ctx) :
    Keeps k ctx.world (deduplicateTree k opts tree ctx).world :=
  deduplicateAll_keeps_of_meets (readsKeep_keeps k ctx.world)
    (fun _ hlist => replacementsKeep_keeps hmode (given.faithful leaves hlist)) spares
    (Keeps.refl k ctx.world)

/-- In every run of the program in clone mode, with any scheduling of its threads or without
threads and with any calls that fail, if the replacements spare their staging names, every path that
named a regular file names one with the same bytes and metadata, and the same file where that had
several names. -/
theorem wholeRun_keeps_files (k : Kernel) (volumes : Volumes) (traversal : TraversalOptions)
    (roots : Forest) (cfg : Config) (opts : Options) (ctx : Context FileSystem)
    (hmode : PlainCloneMode opts) (given : Given k volumes traversal roots cfg.env ctx.world)
    (tree : DuplicateTree) (leaves : Leaves cfg (traversed traversal volumes roots) tree)
    (spares : SparesAll k opts (duplicateSets tree) ctx) (path : Path) (ino : Nat)
    (hnames : k.Names ctx.world path ino) :
    ∃ ino', k.Names (deduplicateTree k opts tree ctx).world path ino' ∧
      StandsFor ctx.world.inode (deduplicateTree k opts tree ctx).world.inode ino ino' :=
  (keeps_of_leaves hmode given leaves spares).names hnames

/-- A run of a thread over the two files, in which `b` is replaced. -/
theorem wholeRun_keeps_files_twoFiles :
    ∃ tree ino', Leaves twoFilesConfig
        (traversed cloneOneFileSystem (twoKinds fun _ => true) twoRoots) tree ∧
      stuckKernel.Names
        (deduplicateTree stuckKernel cloneOptions tree (startContext twoFiles)).world ['b'] ino' ∧
      StandsFor twoFiles.inode
        (deduplicateTree stuckKernel cloneOptions tree (startContext twoFiles)).world.inode
        1 ino' := by
  obtain ⟨tree, leaves⟩ := exists_leaves
  have hresolve : stuckKernel.resolve ['b'] twoFiles = some (⟨[], ['b']⟩, 1) := by
    decide
  obtain ⟨ino', hnames, hstands⟩ := wholeRun_keeps_files stuckKernel (twoKinds fun _ => true)
    cloneOneFileSystem twoRoots twoFilesConfig cloneOptions (startContext twoFiles)
    plainCloneMode_cloneOptions (given_twoFiles _) tree leaves
    (sparesAll_stuckKernel cloneOptions (duplicateSets tree) (startContext twoFiles)) ['b'] 1
    (Kernel.names_of_resolve hresolve)
  exact ⟨tree, ino', leaves, hnames, hstands⟩

/-- An entry that the program may change: that of a queued file which has one link, unless it is
forced, and no immutable flag, or in clone mode that of its staging name. -/
def QueuedTouch (k : Kernel) (before : FileSystem) (opts : Options) (files : List FileEntry)
    (entry : Entry) : Prop :=
  opts.dryRun = false ∧ ∃ fe ∈ files, (opts.force = true ∨ fe.nlink ≤ 1) ∧
    fe.flags &&& ufImmutable = 0 ∧ fe.flags &&& sfImmutable = 0 ∧
      MayTouch k before opts.replaceMode fe.path entry

/-- `deduplicate` on the lists of a scan stays within the queued files. -/
theorem within_of_leaves {k : Kernel} {volumes : Volumes} {traversal : TraversalOptions}
    {roots : Forest} {cfg : Config} (opts : Options) (ctx : Context FileSystem)
    {tree : DuplicateTree} (leaves : Leaves cfg (traversed traversal volumes roots) tree) :
    Within ctx.world (QueuedTouch k ctx.world opts (traverse traversal volumes roots).queue)
      (deduplicateTree k opts tree ctx).world := by
  apply (footprint k opts (duplicateSets tree) ctx).mono
  rintro entry ⟨hdry, list, hlist, fm, hfm, hlinks, hmutable, htouch⟩
  obtain ⟨fe, hfe, hpath, hnlink, hflags⟩ := (listed_of_leaves leaves).file hlist hfm
  simp only [FileMetadata.immutable, hflags, Bool.or_eq_false_iff, decide_eq_false_iff_not,
    not_not] at hmutable
  exact ⟨hdry, fe, hfe, hnlink ▸ hlinks, hmutable.1, hmutable.2, hpath ▸ htouch⟩

end Dedup.WholeRun
