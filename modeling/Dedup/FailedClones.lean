/-
Module: Dedup.FailedClones
Purpose: The name that `tmp_name` gives to a staging file against the test by which the scan
  recognises one.  The mark stands before the last component of the name, and the test looks for
  it at the start of the whole path, so the two agree exactly where the directory of the file is
  spelled with the mark at its start.
Imports: Dedup.Traversal, Dedup.StagingName
Main exports: TreePath, ReachesFile, SameSpelling, RecognisesStaging, unmarked_of_queued,
  staging_recognised_iff, staging_queued
-/
import Dedup.Traversal
import Dedup.StagingName

namespace Dedup

open Posix

/-! ### The mark at the start of a path -/

/-- What has no slash is at the start of a path where it is at the start of what precedes a
slash. -/
theorem isPrefix_split {mark : Path} (h : '/' ∉ mark) (front rest : Path) :
    mark <+: front ++ '/' :: rest ↔ mark <+: front := by
  refine ⟨fun hprefix => ?_, fun hprefix => hprefix.trans (List.prefix_append _ _)⟩
  rcases Nat.lt_or_ge front.length mark.length with hshort | hlong
  · -- a longer mark would have the slash in it
    have hfront : front ++ ['/'] <+: front ++ '/' :: rest := by simp
    have hmark := List.prefix_of_prefix_length_le hfront hprefix (by simpa using hshort)
    exact absurd (hmark.subset (by simp)) h
  · exact List.prefix_of_prefix_length_le hprefix (List.prefix_append _ _) hlong

theorem slash_notMem_stagingMark : '/' ∉ stagingMark := by decide

theorem isPrefix_stripSlashes (path : Path) :
    stagingMark <+: stripSlashes path ↔ stagingMark <+: path := by
  induction path using List.reverseRecOn with
  | nil => rfl
  | append_singleton path c ih =>
      by_cases hc : c = '/'
      · rw [hc, stripSlashes_concat_slash, ih, isPrefix_split slash_notMem_stagingMark path []]
      · have hkeep : stripSlashes (path ++ [c]) = path ++ [c] :=
          List.rdropWhile_concat_neg _ _ _ (by simpa using hc)
        rw [hkeep]

theorem isPrefix_trimSlash (path : Path) :
    stagingMark <+: trimSlash path ↔ stagingMark <+: path := by
  unfold trimSlash
  split
  · rename_i hlast
    conv_rhs => rw [← List.dropLast_append_getLast? '/' hlast,
      isPrefix_split slash_notMem_stagingMark]
  · rfl

/-- The mark and more. -/
theorem markedFirst_split {front rest : Path} (h : stagingMark <+: front) :
    MarkedFirst (front ++ '/' :: rest) := by
  have hlength := h.length_le
  refine ⟨?_, h.trans (List.prefix_append _ _)⟩
  simp only [stagingMark, List.length_cons, List.length_nil, List.length_append] at hlength ⊢
  omega

/-! ### Paths of the traversal -/

/-- A file of the traversal: a root argument, and names from there. -/
structure TreePath where
  root : Path
  names : List Name
  root_ne : root ≠ []
  valid : ∀ name ∈ names, ValidName name

/-- The `fts_path` of the file. -/
def TreePath.path (file : TreePath) : Path :=
  file.names.foldl joinPath file.root

theorem components_trimSlash (path : Path) : components (trimSlash path) = components path := by
  unfold trimSlash
  split
  · rename_i hlast
    conv_rhs => rw [← List.dropLast_append_getLast? '/' hlast, components_concat_slash]
  · rfl

theorem components_joinPath {dir : Path} {name : Name} (h : ValidName name) :
    components (joinPath dir name) = components dir ++ [name] := by
  rw [joinPath, components_split _ h.1 h.2.1, components_trimSlash]

/-- The components of a path of the traversal. -/
theorem components_foldl_joinPath {names : List Name} (h : ∀ name ∈ names, ValidName name)
    (root : Path) : components (names.foldl joinPath root) = components root ++ names := by
  induction names generalizing root with
  | nil => simp
  | cons name names ih =>
      rw [List.forall_mem_cons] at h
      rw [List.foldl_cons, ih h.2, components_joinPath h.1, List.append_assoc,
        List.singleton_append]

/-- Below a root the mark is at the start where the root has it. -/
theorem isPrefix_foldl_joinPath (root : Path) (names : List Name) :
    stagingMark <+: names.foldl joinPath root ↔ stagingMark <+: root := by
  induction names generalizing root with
  | nil => rfl
  | cons name names ih =>
      rw [List.foldl_cons, ih, joinPath, isPrefix_split slash_notMem_stagingMark,
        isPrefix_trimSlash]

/-- A path below a marked root is marked. -/
theorem TreePath.markedFirst {file : TreePath} (hroot : stagingMark <+: file.root)
    (hne : file.names ≠ []) : MarkedFirst file.path := by
  obtain ⟨dirs, name, hnames⟩ := List.eq_nil_or_concat file.names |>.resolve_left hne
  rw [TreePath.path, hnames, List.concat_eq_append, List.foldl_append]
  exact markedFirst_split ((isPrefix_trimSlash _).mpr ((isPrefix_foldl_joinPath _ _).mpr hroot))

/-- The traversal meets the file. -/
def ReachesFile (xdev : Bool) (roots : Forest) (file : TreePath) : Prop :=
  ∃ entry ∈ entries xdev .roots roots, entry.path = file.path ∧ entry.info = .f

/-- Two spellings of one path, which differ in runs of slashes. -/
def SameSpelling (first second : Path) : Prop :=
  components first = components second ∧
    (first.head? = some '/' ↔ second.head? = some '/')

/-- The staging file of a file that the traversal meets is never queued, under its own name or
under another spelling of it below the same root. -/
def RecognisesStaging (file : TreePath) : Prop :=
  ∀ staged, stagingPath file.path = .ok staged → ∀ opts volumes roots,
    ReachesFile opts.oneFileSystem roots file →
      ∀ fe ∈ (traverse opts volumes roots).queue, fe.path ≠ staged ∧
        ∀ other : TreePath, other.root = file.root → fe.path = other.path →
          ¬ SameSpelling fe.path staged

/-! ### What is never queued -/

/-- One turn queues no path with the mark at its start. -/
theorem traverseEntry_unmarked {opts : TraversalOptions} {volumes : Volumes} (entry : FtsEnt)
    (s : TraversalState) (h : ∀ fe ∈ s.queue, ¬ MarkedFirst fe.path) :
    ∀ fe ∈ (traverseEntry opts volumes entry s).1.queue, ¬ MarkedFirst fe.path := by
  intro fe hfe
  obtain ⟨seen, hqueue, hturn | hturn⟩ := traverseEntry_cases opts volumes entry s
  · rw [hturn, hqueue] at hfe
    exact h fe hfe
  · rw [hturn, queueFile_queue, hqueue, List.mem_append] at hfe
    rcases hfe with hfe | hfe
    · exact h fe hfe
    · split at hfe
      · rename_i hkept
        obtain rfl := List.mem_singleton.mp hfe
        exact hkept.2.2
      · simp at hfe

/-- So no such path is queued. -/
theorem unmarked_of_queued {opts : TraversalOptions} {volumes : Volumes} {roots : Forest}
    {fe : FileEntry} (h : fe ∈ (traverse opts volumes roots).queue) : ¬ MarkedFirst fe.path := by
  have hstart : ∀ fe ∈ TraversalState.start.queue, ¬ MarkedFirst fe.path := by
    simp [TraversalState.start]
  exact read_keeps (fun entry s => traverseEntry_unmarked entry s) .roots roots hstart fe h

/-! ### A marked directory -/

/-- Where `dirname` spells a path with the mark at its start, it spells what comes before the last
component of the path. -/
theorem components_of_marked {path dir base : Path} (hdir : dirnameR path = some dir)
    (hbase : basenameR path = some base) (hmark : stagingMark <+: dir) :
    stagingMark <+: path ∧ base ≠ [] ∧ '/' ∉ base ∧
      components path = components dir ++ [base] := by
  have hstripped : stripSlashes path ≠ [] := by
    intro hnil
    have hroot : dir = ['.'] ∨ dir = ['/'] := by
      unfold dirnameR at hdir
      simp only [hnil, if_true] at hdir
      split at hdir
      · exact .inl (Option.some.inj hdir).symm
      · exact .inr (Option.some.inj hdir).symm
    rcases hroot with rfl | rfl <;> exact absurd hmark (by decide)
  have hlast : (stripSlashes path).getLast? ≠ some '/' := by
    intro hslash
    have hend := List.rdropWhile_last_not (fun c => decide (c = '/')) path hstripped
    rw [List.getLast?_eq_some_getLast hstripped, Option.some.injEq] at hslash
    simp [stripSlashes] at hslash hend
    exact hend hslash
  obtain ⟨hdir', hbase'⟩ := dirnameR_basenameR_stripSlashes hstripped
  rw [← hdir'] at hdir
  rw [← hbase'] at hbase
  rw [← isPrefix_stripSlashes, ← components_stripSlashes path]
  rcases slashless_or_split (stripSlashes path) with hslash | ⟨front, name, hsplit, hslash⟩
  · obtain rfl := Option.some.inj ((dirnameR_slashless hstripped hslash).symm.trans hdir)
    exact absurd hmark (by decide)
  · have hname : name ≠ [] := by
      rintro rfl
      simp [hsplit] at hlast
    rw [hsplit] at hdir hbase ⊢
    obtain rfl := basenameR_split hname hslash hbase
    rw [dirnameR_split front hname hslash] at hdir
    split at hdir
    · obtain rfl := Option.some.inj hdir
      exact absurd hmark (by decide)
    · split at hdir
      · obtain rfl := Option.some.inj hdir
        rw [isPrefix_split slash_notMem_stagingMark, ← isPrefix_stripSlashes,
          components_split front hname hslash, components_stripSlashes]
        exact ⟨hmark, hname, hslash, rfl⟩
      · simp at hdir

/-- A file in a marked directory: its staging file is recognised. -/
theorem recognisesStaging_of_marked {file : TreePath}
    (hmarked : ∀ staged, stagingPath file.path = .ok staged →
      ∃ dir, dirnameR file.path = some dir ∧ stagingMark <+: dir) : RecognisesStaging file := by
  intro staged hstaged opts volumes roots _ fe hfe
  obtain ⟨dir, hdir, hmark⟩ := hmarked staged hstaged
  obtain ⟨dir', base, hdir', hbase, rfl, _⟩ := stagingPath_eq_ok.mp hstaged
  obtain rfl := Option.some.inj (hdir.symm.trans hdir')
  obtain ⟨hpath, hne, hslash, hcomponents⟩ := components_of_marked hdir hbase hmark
  have hunmarked := unmarked_of_queued hfe
  refine ⟨fun heq => hunmarked (heq ▸ markedFirst_split hmark), fun other hroot heq hsame => ?_⟩
  have hrootMark : stagingMark <+: other.root := by
    rw [hroot]
    exact (isPrefix_foldl_joinPath file.root file.names).mp hpath
  by_cases hnames : other.names = []
  · -- the root itself has fewer components than what is below it
    have hother : components fe.path = components file.root := by
      rw [heq, TreePath.path, hnames, List.foldl_nil, hroot]
    have hmarkSlash : '/' ∉ stagingMark ++ base := by simpa [stagingMark] using hslash
    have hstagedComponents := hsame.1
    rw [hother, components_split dir (by simp [stagingMark]) hmarkSlash] at hstagedComponents
    have hfile := components_foldl_joinPath file.valid file.root
    rw [show file.names.foldl joinPath file.root = file.path from rfl, hcomponents,
      hstagedComponents] at hfile
    have hlengths := congrArg List.length hfile
    simp only [List.length_append, List.length_singleton] at hlengths
    have hnone : file.names = [] := List.length_eq_zero_iff.mp (by omega)
    rw [hnone, List.append_nil] at hfile
    have hbases := congrArg List.length
      (List.singleton_injective (List.append_cancel_left hfile))
    simp only [stagingMark, List.length_append, List.length_cons, List.length_nil] at hbases
    omega
  · exact hunmarked (heq ▸ TreePath.markedFirst hrootMark hnames)

/-! ### An unmarked directory -/

theorem length_componentsFrom_le (current : Name) (path : Path) :
    (componentsFrom current path).length ≤ current.length + path.length := by
  have hone : ∀ current : Name,
      (if current = [] then [] else [current] : List Name).length ≤ current.length := by
    intro current
    cases current <;> simp
  induction path generalizing current with
  | nil => exact hone current
  | cons c path ih =>
      rw [componentsFrom]
      split
      · have hcurrent := hone current
        have hrest := ih []
        simp only [List.length_append, List.length_nil, List.length_cons] at hrest ⊢
        omega
      · have hrest := ih (current ++ [c])
        simp only [List.length_append, List.length_cons, List.length_nil] at hrest ⊢
        omega

/-- What `dirname` makes of a name after a slash, but for runs of slashes. -/
theorem dirnameR_spelling {front name dir : Path} (hne : name ≠ []) (hslash : '/' ∉ name)
    (hdir : dirnameR (front ++ '/' :: name) = some dir) :
    components dir = components front ∧ (stagingMark <+: front → stagingMark <+: dir) ∧
      ∀ rest, (dir ++ '/' :: rest).head? = (front ++ '/' :: rest).head? := by
  rw [dirnameR_split front hne hslash] at hdir
  rw [← components_stripSlashes front, ← isPrefix_stripSlashes front]
  split at hdir
  · rename_i hroot
    obtain rfl := Option.some.inj hdir
    rw [hroot]
    exact ⟨by decide, fun h => absurd h (by decide),
      fun rest => (head?_of_stripSlashes_nil hroot).symm⟩
  · rename_i hdirNe
    split at hdir
    · obtain rfl := Option.some.inj hdir
      have hfront : front ≠ [] := by
        rintro rfl
        exact hdirNe rfl
      refine ⟨rfl, id, fun rest => ?_⟩
      rw [List.head?_append_of_ne_nil _ hdirNe, List.head?_append_of_ne_nil _ hfront,
        head?_stripSlashes hdirNe]
    · simp at hdir

/-- Directories one in the other, with files in the last. -/
def inDirs : List Path → Forest → Forest
  | [], files => files
  | name :: dirs, files => .dir name (byteOn 0) (inDirs dirs files) 0 .nil

/-- Where the files in the last directory stand. -/
def placeOf : List Path → Place
  | [] => .roots
  | root :: dirs => .inside (dirs.foldl joinPath root) (dirs.length + 1) 0

/-- Two files. -/
def bothFiles (first second : Path) : Forest :=
  .leaf first .f 0 (byteOn 0) (.leaf second .f 0 (byteOn 0) .nil)

/-- Hard links everywhere. -/
def linkAnywhere : TraversalOptions where
  replaceMode := .link
  oneFileSystem := false
  maxDepth := 65535

theorem entries_inDirs (dirs : List Path) (dir : Path) (level : Nat) (files : Forest) :
    entries false (.inside (dirs.foldl joinPath dir) (level + dirs.length) 0) files ⊆
      entries false (.inside dir level 0) (inDirs dirs files) := by
  induction dirs generalizing dir level with
  | nil => exact List.Subset.refl _
  | cons name dirs ih =>
      intro entry hentry
      rw [List.length_cons, Nat.add_comm dirs.length, ← Nat.add_assoc] at hentry
      have hbelow := ih (joinPath dir name) (level + 1) hentry
      simp only [inDirs, entries, Place.crosses, Bool.false_and, Bool.false_eq_true, if_false,
        List.mem_cons, List.mem_append]
      exact .inr (.inl (.inl hbelow))

/-- The traversal meets what is in the last directory. -/
theorem entries_placeOf (dirs : List Path) (files : Forest) :
    entries false (placeOf dirs) files ⊆ entries false .roots (inDirs dirs files) := by
  cases dirs with
  | nil => exact List.Subset.refl _
  | cons root dirs =>
      intro entry hentry
      rw [placeOf, Nat.add_comm] at hentry
      have hbelow := entries_inDirs dirs root 1 files hentry
      simp only [inDirs, entries, Place.crosses, Bool.false_and, Bool.false_eq_true, if_false,
        List.mem_cons, List.mem_append]
      exact .inr (.inl (.inl hbelow))

/-- Both files are met, and the second is queued unless its path is marked. -/
theorem bothFiles_queued (volumes : Volumes) (dirs : List Path) (first second : Path)
    (hdepth : (placeOf dirs).level ≤ 65536) (hmark : ¬ MarkedFirst ((placeOf dirs).path second)) :
    (∃ entry ∈ entries false .roots (inDirs dirs (bothFiles first second)),
      entry.path = (placeOf dirs).path first ∧ entry.info = .f) ∧
    ∃ fe ∈ (traverse linkAnywhere volumes (inDirs dirs (bothFiles first second))).queue,
      fe.path = (placeOf dirs).path second := by
  constructor
  · exact ⟨(placeOf dirs).entry first .f 0 (byteOn 0),
      entries_placeOf dirs _ (by simp [bothFiles, entries]), rfl, rfl⟩
  · have hmode : linkAnywhere.replaceMode ≠ .clone := by decide
    rw [traverse_queue (fun h => absurd h hmode) fun h => absurd h hmode]
    have hadmitted : Admitted linkAnywhere volumes
        ((placeOf dirs).entry second .f 0 (byteOn 0)) :=
      ⟨rfl, rfl, Nat.one_ne_zero, hdepth, fun h => absurd h hmode, hmark⟩
    refine ⟨fileEntryOf ((placeOf dirs).entry second .f 0 (byteOn 0)), ?_, rfl⟩
    exact List.mem_map_of_mem (List.mem_filter.mpr
      ⟨entries_placeOf dirs _ (by simp [bothFiles, entries]), decide_eq_true hadmitted⟩)

theorem validName_staging {name : Name} (h : ValidName name) : ValidName (stagingMark ++ name) := by
  refine ⟨by simp [stagingMark], ?_, by simp [stagingMark, dot], by simp [stagingMark, dotDot]⟩
  simpa [stagingMark] using h.2.1

/-- The staging file of a file in a directory, as the traversal spells it. -/
theorem staging_joinPath {front : Path} {name : Name} (hname : ValidName name) {staged : Path}
    (hstaged : stagingPath (joinPath front name) = .ok staged) :
    SameSpelling (joinPath front (stagingMark ++ name)) staged ∧
      (components front).length < pathMax ∧
      (MarkedFirst (joinPath front (stagingMark ++ name)) →
        ∃ dir, dirnameR (joinPath front name) = some dir ∧ stagingMark <+: dir) := by
  obtain ⟨dir, base, hdir, hbase, rfl, hlength⟩ := stagingPath_eq_ok.mp hstaged
  have hmarkedName := validName_staging hname
  obtain rfl := basenameR_split hname.1 hname.2.1 hbase
  obtain ⟨hcomponents, hprefix, hhead⟩ := dirnameR_spelling hname.1 hname.2.1 hdir
  rw [components_trimSlash] at hcomponents
  have hstaged' : components (dir ++ '/' :: (stagingMark ++ base)) =
      components front ++ [stagingMark ++ base] := by
    rw [components_split _ hmarkedName.1 hmarkedName.2.1, hcomponents]
  refine ⟨⟨?_, ?_⟩, ?_, fun hmarked => ⟨dir, hdir, hprefix ?_⟩⟩
  · rw [components_joinPath hmarkedName, hstaged']
  · rw [hhead]
    rfl
  · have hlengths := length_componentsFrom_le [] (dir ++ '/' :: (stagingMark ++ base))
    rw [← components, hstaged', List.length_append, List.length_nil, Nat.zero_add] at hlengths
    exact lt_of_le_of_lt (Nat.le_of_add_right_le hlengths) hlength
  · exact (isPrefix_split slash_notMem_stagingMark _ _).mp hmarked.2

/-- A staging file that is recognised stands in a marked directory. -/
theorem marked_of_recognisesStaging {file : TreePath} (h : RecognisesStaging file) {staged : Path}
    (hstaged : stagingPath file.path = .ok staged) :
    ∃ dir, dirnameR file.path = some dir ∧ stagingMark <+: dir := by
  by_contra hmark
  rcases List.eq_nil_or_concat file.names with hnames | ⟨dirs, name, hnames⟩
  · -- the staging file is another root
    have hroot : file.path = file.root := by rw [TreePath.path, hnames, List.foldl_nil]
    have hunmarked : ¬ MarkedFirst staged := fun hmarked => by
      obtain ⟨dir, base, hdir, _, rfl, _⟩ := stagingPath_eq_ok.mp hstaged
      exact hmark ⟨dir, hdir, (isPrefix_split slash_notMem_stagingMark _ _).mp hmarked.2⟩
    obtain ⟨hmet, fe, hfe, hfePath⟩ := bothFiles_queued (twoKinds fun _ => true) [] file.root
      staged (by decide) hunmarked
    exact (h staged hstaged linkAnywhere _ _ (hroot ▸ hmet) fe hfe).1 hfePath
  · -- it is in the directory of the file
    rw [List.concat_eq_append] at hnames
    have hvalid : ValidName name := file.valid name (by simp [hnames])
    have hdirs : ∀ other ∈ dirs, ValidName other := fun other hother =>
      file.valid other (by simp [hnames, hother])
    have hfilePath : file.path = joinPath (dirs.foldl joinPath file.root) name := by
      rw [TreePath.path, hnames, List.foldl_append]
      rfl
    rw [hfilePath] at hmark hstaged
    obtain ⟨hsame, hlength, hmarked⟩ := staging_joinPath hvalid hstaged
    have hdepth : dirs.length + 1 ≤ 65536 := by
      rw [components_foldl_joinPath hdirs, List.length_append, pathMax] at hlength
      omega
    obtain ⟨hmet, fe, hfe, hfePath⟩ := bothFiles_queued (twoKinds fun _ => true)
      (file.root :: dirs) name (stagingMark ++ name) hdepth (mt hmarked hmark)
    let other : TreePath := ⟨file.root, dirs ++ [stagingMark ++ name], file.root_ne,
      List.forall_mem_append.mpr ⟨hdirs, by simpa using validName_staging hvalid⟩⟩
    have hother : fe.path = other.path := by
      rw [hfePath, TreePath.path, List.foldl_append]
      rfl
    have hspelling : SameSpelling fe.path staged := by
      rw [hfePath]
      exact hsame
    rw [← hfilePath] at hstaged
    refine (h staged hstaged linkAnywhere _ _ ?_ fe hfe).2 other rfl hother hspelling
    rw [ReachesFile, hfilePath]
    exact hmet

/-- The scan recognises the staging file of a file exactly where the directory of the file is
spelled with the mark at its start. -/
theorem staging_recognised_iff (file : TreePath) :
    RecognisesStaging file ↔ ∀ staged, stagingPath file.path = .ok staged →
      ∃ dir, dirnameR file.path = some dir ∧ stagingMark <+: dir :=
  ⟨fun h _ => marked_of_recognisesStaging h, recognisesStaging_of_marked⟩

/-- A file below the working directory. -/
def plainFile : TreePath where
  root := ['.']
  names := [['f']]
  root_ne := by decide
  valid := by decide

/-- The staging file of `./f` is `./.~.f`, and the scan of `.` queues it. -/
theorem staging_queued : ¬ RecognisesStaging plainFile := by
  intro h
  have hstaged : stagingPath plainFile.path = .ok ['.', '/', '.', '~', '.', 'f'] := by decide
  refine (h _ hstaged linkAnywhere (twoKinds fun _ => true)
    (inDirs [['.']] (bothFiles ['f'] ['.', '~', '.', 'f'])) ?_
    (fileEntryOf ⟨['.', '/', '.', '~', '.', 'f'], 1, .f, 0, byteOn 0⟩) ?_).1 rfl
  · exact ⟨⟨['.', '/', 'f'], 1, .f, 0, byteOn 0⟩, by decide, by decide, rfl⟩
  · decide

end Dedup
