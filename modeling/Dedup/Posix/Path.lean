/-
Module: Dedup.Posix.Path
Purpose: POSIX path names over a fixed tree of directories and the symbolic links to them.  A path
  is split at its slashes and walked component by component; a directory is its canonical list of
  names from the root.  What is located with fewer links is located with more.
Trusted boundary: human-reviewed spec of path resolution, `dirname_r` and `basename_r`
Main exports: Path, Name, Dir, Entry, components, DirTree, Namespace, Namespace.walk,
  Namespace.locateFrom, Namespace.locate, Namespace.locateFrom_joinDirs, Namespace.locate_of_fewer,
  canonicalPath, dirnameR, basenameR
-/
import Mathlib

namespace Dedup.Posix

/-- A C path, without its terminating NUL. -/
abbrev Path := List Char

/-- A component of a path. -/
abbrev Name := List Char

/-- A directory, named by the components of its canonical path. -/
abbrev Dir := List Name

/-- A place for a name in a directory. -/
@[ext]
structure Entry where
  dir : Dir
  name : Name
deriving DecidableEq, Repr

/-- `.`, a directory itself. -/
def dot : Name := ['.']

/-- `..`, the parent of a directory. -/
def dotDot : Name := ['.', '.']

/-- What can name an entry of a directory. -/
def ValidName (name : Name) : Prop :=
  name ≠ [] ∧ '/' ∉ name ∧ name ≠ dot ∧ name ≠ dotDot

instance (name : Name) : Decidable (ValidName name) :=
  inferInstanceAs (Decidable (_ ∧ _ ∧ _ ∧ _))

/-! ### Components -/

/-- The components of a path, with the characters of the one that is being read. -/
def componentsFrom (current : Name) : Path → List Name
  | [] => if current = [] then [] else [current]
  | c :: path =>
      if c = '/' then (if current = [] then [] else [current]) ++ componentsFrom [] path
      else componentsFrom (current ++ [c]) path

/-- The components of a path; runs of slashes separate like one. -/
def components (path : Path) : List Name :=
  componentsFrom [] path

theorem componentsFrom_append_slash (current : Name) (first second : Path) :
    componentsFrom current (first ++ '/' :: second) =
      componentsFrom current first ++ components second := by
  induction first generalizing current with
  | nil => simp [componentsFrom, components]
  | cons c first ih =>
      by_cases hc : c = '/'
      · simp [componentsFrom, hc, ih]
      · simp [componentsFrom, hc, ih]

/-- A slash separates. -/
theorem components_append_slash (first second : Path) :
    components (first ++ '/' :: second) = components first ++ components second :=
  componentsFrom_append_slash [] first second

theorem componentsFrom_of_no_slash (current : Name) {name : Name} (h : '/' ∉ name) :
    componentsFrom current name = if current ++ name = [] then [] else [current ++ name] := by
  induction name generalizing current with
  | nil => simp [componentsFrom]
  | cons c name ih =>
      have hc : c ≠ '/' := fun heq => h (heq ▸ List.mem_cons_self)
      rw [componentsFrom, if_neg hc, ih _ (List.not_mem_of_not_mem_cons h)]
      simp

/-- A name is its own component. -/
theorem components_name {name : Name} (h : '/' ∉ name) (hne : name ≠ []) :
    components name = [name] := by
  rw [components, componentsFrom_of_no_slash [] h]
  simp [hne]

theorem mem_componentsFrom {current name : Name} {path : Path} (hcurrent : '/' ∉ current)
    (h : name ∈ componentsFrom current path) : name ≠ [] ∧ '/' ∉ name := by
  induction path generalizing current with
  | nil =>
      by_cases hempty : current = []
      · simp [componentsFrom, hempty] at h
      · obtain rfl : name = current := by simpa [componentsFrom, hempty] using h
        exact ⟨hempty, hcurrent⟩
  | cons c path ih =>
      by_cases hc : c = '/'
      · rw [componentsFrom, if_pos hc, List.mem_append] at h
        rcases h with h | h
        · by_cases hempty : current = []
          · simp [hempty] at h
          · obtain rfl : name = current := by simpa [hempty] using h
            exact ⟨hempty, hcurrent⟩
        · exact ih (by simp) h
      · rw [componentsFrom, if_neg hc] at h
        refine ih ?_ h
        simp [hcurrent, Ne.symm hc]

/-- A component is a name without a slash. -/
theorem mem_components {name : Name} {path : Path} (h : name ∈ components path) :
    name ≠ [] ∧ '/' ∉ name :=
  mem_componentsFrom (by simp) h

/-- Names with a slash after each of them. -/
def joinDirs (names : List Name) : Path :=
  names.flatMap fun name => name ++ ['/']

theorem joinDirs_cons (name : Name) (names : List Name) :
    joinDirs (name :: names) = name ++ '/' :: joinDirs names := by
  simp [joinDirs]

theorem joinDirs_append (first second : List Name) :
    joinDirs (first ++ second) = joinDirs first ++ joinDirs second := by
  simp [joinDirs]

/-- Joined names are read back. -/
theorem components_joinDirs_append {names : List Name}
    (h : ∀ name ∈ names, '/' ∉ name ∧ name ≠ []) (rest : Path) :
    components (joinDirs names ++ rest) = names ++ components rest := by
  induction names with
  | nil => rfl
  | cons name names ih =>
      rcases h name List.mem_cons_self with ⟨hslash, hne⟩
      rw [joinDirs_cons, List.append_assoc, List.cons_append, components_append_slash,
        components_name hslash hne, ih fun other hother => h other (List.mem_cons_of_mem _ hother)]
      rfl

/-! ### Directories -/

/-- A fixed tree of directories: which canonical lists of names are directories, the volume of each
directory, and the working directory. -/
structure DirTree where
  isDir : Dir → Bool
  device : Dir → Nat
  cwd : Dir
  root_isDir : isDir [] = true
  parent_isDir : ∀ dir name, isDir (dir ++ [name]) = true → isDir dir = true
  validName : ∀ dir name, isDir (dir ++ [name]) = true → ValidName name
  cwd_isDir : isDir cwd = true

/-- A directory stands at an entry. -/
def DirTree.holds (tree : DirTree) (entry : Entry) : Bool :=
  tree.isDir (entry.dir ++ [entry.name])

/-- What paths are read in: a tree of directories, and where the symbolic links to directories
lead. -/
structure Namespace extends DirTree where
  dirLink : Entry → Option Dir
  link_not_dir : ∀ dir name, isDir (dir ++ [name]) = true → dirLink ⟨dir, name⟩ = none
  link_isDir : ∀ entry dir, dirLink entry = some dir → isDir dir = true

/-- A tree with the links that lead to one of its directories. -/
def DirTree.withLinks (tree : DirTree) (links : Entry → Option Dir) : Namespace where
  toDirTree := tree
  dirLink entry := if tree.holds entry then none else (links entry).filter tree.isDir
  link_not_dir _ _ h := if_pos h
  link_isDir entry dir h := by
    split at h
    · simp at h
    · exact (Option.filter_eq_some_iff.mp h).2

/-- The links that lead nowhere make no difference. -/
theorem DirTree.withLinks_congr {tree : DirTree} {links links' : Entry → Option Dir}
    (h : ∀ entry, (tree.withLinks links).dirLink entry = (tree.withLinks links').dirLink entry) :
    tree.withLinks links = tree.withLinks links' := by
  have hlinks := funext h
  unfold withLinks at hlinks ⊢
  congr

namespace Namespace

variable (ns : Namespace)

/-- One component, from a directory. -/
def step (dir : Dir) (name : Name) : Option Dir :=
  if name = dot then some dir
  else if name = dotDot then some dir.dropLast
  else
    match ns.dirLink ⟨dir, name⟩ with
    | some target => some target
    | none => if ns.isDir (dir ++ [name]) then some (dir ++ [name]) else none

/-- Several components, from a directory. -/
def walk : Dir → List Name → Option Dir
  | dir, [] => some dir
  | dir, name :: names => (ns.step dir name).bind fun next => walk next names

/-- Where the last component of a path stands; `none` where a directory on the way is missing or
the path names a directory by its form. -/
def locateFrom (dir : Dir) (path : Path) : Option Entry :=
  let start := if path.head? = some '/' then [] else dir
  match (components path).getLast? with
  | none => none
  | some last =>
      if last = dot || last = dotDot || path.getLast? = some '/' then none
      else (ns.walk start (components path).dropLast).map fun parent => ⟨parent, last⟩

/-- The entry that a path of the process names. -/
def locate (path : Path) : Option Entry :=
  ns.locateFrom ns.cwd path

/-- The directory that a path of the process names. -/
def locateDir (path : Path) : Option Dir :=
  if path = [] then none
  else ns.walk (if path.head? = some '/' then [] else ns.cwd) (components path)

/-- An entry that is a directory, or a link to one. -/
def occupied (entry : Entry) : Bool :=
  ns.holds entry || (ns.dirLink entry).isSome

variable {ns}

theorem walk_append (dir : Dir) (first second : List Name) :
    ns.walk dir (first ++ second) = (ns.walk dir first).bind fun next => ns.walk next second := by
  induction first generalizing dir with
  | nil => rfl
  | cons name first ih =>
      simp only [List.cons_append, walk, Option.bind_assoc]
      congr 1
      funext next
      exact ih next

/-- A step stays among the directories. -/
theorem isDir_of_step {dir next : Dir} {name : Name} (hdir : ns.isDir dir = true)
    (h : ns.step dir name = some next) : ns.isDir next = true := by
  unfold step at h
  split at h
  · obtain rfl := Option.some.inj h
    exact hdir
  · split at h
    · obtain rfl := Option.some.inj h
      rcases List.eq_nil_or_concat dir with rfl | ⟨parent, last, rfl⟩
      · exact ns.root_isDir
      · rw [List.concat_eq_append] at hdir ⊢
        simpa using ns.parent_isDir parent last hdir
    · split at h
      · rename_i target hlink
        obtain rfl := Option.some.inj h
        exact ns.link_isDir _ _ hlink
      · split at h
        · obtain rfl := Option.some.inj h
          assumption
        · simp at h

theorem isDir_of_walk {dir next : Dir} {names : List Name} (hdir : ns.isDir dir = true)
    (h : ns.walk dir names = some next) : ns.isDir next = true := by
  induction names generalizing dir with
  | nil =>
      obtain rfl := Option.some.inj h
      exact hdir
  | cons name names ih =>
      rcases Option.bind_eq_some_iff.mp h with ⟨middle, hstep, hrest⟩
      exact ih (isDir_of_step hdir hstep) hrest

/-- An ancestor of a directory is one. -/
theorem isDir_of_append {dir : Dir} {names : List Name} (h : ns.isDir (dir ++ names) = true) :
    ns.isDir dir = true := by
  induction names using List.reverseRecOn with
  | nil => simpa using h
  | append_singleton names name ih =>
      rw [← List.append_assoc] at h
      exact ih (ns.parent_isDir _ _ h)

/-- The components of a directory name entries. -/
theorem validName_of_isDir {dir : Dir} (h : ns.isDir dir = true) :
    ∀ name ∈ dir, ValidName name := by
  intro name hname
  rcases List.append_of_mem hname with ⟨before, after, rfl⟩
  rw [List.append_cons] at h
  exact ns.validName _ _ (isDir_of_append h)

/-- Down a directory by its own names. -/
theorem walk_down {dir : Dir} {names : List Name} (h : ns.isDir (dir ++ names) = true) :
    ns.walk dir names = some (dir ++ names) := by
  induction names generalizing dir with
  | nil => simp [walk]
  | cons name names ih =>
      rw [List.append_cons] at h
      have hnext := isDir_of_append h
      rcases ns.validName _ _ hnext with ⟨_, _, hdot, hdotDot⟩
      rw [walk, step, if_neg hdot, if_neg hdotDot, ns.link_not_dir _ _ hnext]
      simp only [hnext, if_true, Option.bind_some]
      rw [ih h, List.append_assoc]
      rfl

/-- Up from a directory, once for each of its last names. -/
theorem walk_up (dir : Dir) (names : List Name) :
    ns.walk (dir ++ names) (List.replicate names.length dotDot) = some dir := by
  induction names using List.reverseRecOn with
  | nil => simp [walk]
  | append_singleton names name ih =>
      have hne : dotDot ≠ dot := by decide
      rw [List.length_append, List.length_singleton, List.replicate_succ, walk, step, if_neg hne,
        if_pos rfl, ← List.append_assoc, List.dropLast_concat]
      exact ih

/-- An entry that is found is a name in a directory. -/
theorem valid_of_locate {path : Path} {entry : Entry} (h : ns.locate path = some entry) :
    ns.isDir entry.dir = true ∧ ValidName entry.name := by
  rw [locate, locateFrom] at h
  split at h
  · simp at h
  · rename_i last hlast
    split at h
    · simp at h
    · rename_i hform
      simp only [Bool.or_eq_true, decide_eq_true_eq, not_or] at hform
      rcases Option.map_eq_some_iff.mp h with ⟨parent, hwalk, rfl⟩
      obtain ⟨hne, hslash⟩ := mem_components (List.mem_of_getLast? hlast)
      refine ⟨isDir_of_walk ?_ hwalk, hne, hslash, hform.1.1, hform.1.2⟩
      split
      · exact ns.root_isDir
      · exact ns.cwd_isDir

/-- The directory that a path to an entry names is one step from the directory of the entry. -/
theorem locateDir_eq_step {path : Path} {entry : Entry} (h : ns.locate path = some entry) :
    ns.locateDir path = ns.step entry.dir entry.name := by
  rw [locate, locateFrom] at h
  split at h
  · simp at h
  · rename_i last hlast
    split at h
    · simp at h
    · rcases Option.map_eq_some_iff.mp h with ⟨parent, hwalk, rfl⟩
      have hne : path ≠ [] := by
        rintro rfl
        simp [components, componentsFrom] at hlast
      rw [locateDir, if_neg hne, ← List.dropLast_append_getLast? last hlast, walk_append, hwalk,
        Option.bind_some, walk]
      exact Option.bind_fun_some _

/-- A path to an entry names a directory exactly where the entry is occupied. -/
theorem occupied_iff_locateDir {path : Path} {entry : Entry} (h : ns.locate path = some entry) :
    ns.occupied entry = true ↔ ∃ dir, ns.locateDir path = some dir := by
  rcases valid_of_locate h with ⟨_, _, _, hdot, hdotDot⟩
  rw [locateDir_eq_step h, step, if_neg hdot, if_neg hdotDot]
  unfold occupied
  cases hlink : ns.dirLink entry with
  | some target => simp
  | none => cases hisDir : ns.isDir (entry.dir ++ [entry.name]) <;> simp [DirTree.holds, hisDir]

/-- A relative path of names and a last name. -/
theorem locateFrom_joinDirs {names : List Name} (h : ∀ name ∈ names, '/' ∉ name ∧ name ≠ [])
    {last : Name} (hlast : ValidName last) (dir : Dir) :
    ns.locateFrom dir (joinDirs names ++ last) =
      (ns.walk dir names).map fun parent => ⟨parent, last⟩ := by
  rcases hlast with ⟨hne, hslash, hdot, hdotDot⟩
  have hcomponents : components (joinDirs names ++ last) = names ++ [last] := by
    rw [components_joinDirs_append h, components_name hslash hne]
  have hhead : (joinDirs names ++ last).head? ≠ some '/' := by
    intro hslash'
    cases names with
    | nil => exact hslash (List.mem_of_head? hslash')
    | cons first names =>
        rcases h first List.mem_cons_self with ⟨hfirst, hfirstNe⟩
        rw [joinDirs_cons, List.append_assoc, List.head?_append_of_ne_nil _ hfirstNe] at hslash'
        exact hfirst (List.mem_of_head? hslash')
  have hend : (joinDirs names ++ last).getLast? ≠ some '/' := by
    rw [List.getLast?_append_of_ne_nil _ hne]
    exact fun hslash' => hslash (List.mem_of_getLast? hslash')
  rw [locateFrom, hcomponents, List.getLast?_concat, List.dropLast_concat]
  simp only [hdot, hdotDot, hend, hhead, decide_false, Bool.or_self, Bool.false_eq_true, if_false]

/-- The same tree with fewer links. -/
structure Fewer (first second : Namespace) : Prop where
  tree : first.toDirTree = second.toDirTree
  links : ∀ entry dir, first.dirLink entry = some dir → second.dirLink entry = some dir

section

variable {first second : Namespace}

/-- A step that fewer links allow, more links allow. -/
theorem step_of_fewer (h : Fewer first second) {dir next : Dir} {name : Name}
    (hstep : first.step dir name = some next) : second.step dir name = some next := by
  have hisDir : first.isDir = second.isDir := congrArg DirTree.isDir h.tree
  unfold step at hstep ⊢
  split
  · rename_i hdot
    rwa [if_pos hdot] at hstep
  · rename_i hdot
    rw [if_neg hdot] at hstep
    split
    · rename_i hdotDot
      rwa [if_pos hdotDot] at hstep
    · rename_i hdotDot
      rw [if_neg hdotDot] at hstep
      split at hstep
      · rename_i target hlink
        rw [h.links _ _ hlink]
        exact hstep
      · split at hstep
        · rename_i hnext
          rw [hisDir] at hnext
          rw [second.link_not_dir _ _ hnext]
          simpa [hnext] using hstep
        · simp at hstep

theorem walk_of_fewer (h : Fewer first second) {dir next : Dir} {names : List Name}
    (hwalk : first.walk dir names = some next) : second.walk dir names = some next := by
  induction names generalizing dir with
  | nil => exact hwalk
  | cons name names ih =>
      obtain ⟨middle, hstep, hrest⟩ := Option.bind_eq_some_iff.mp hwalk
      rw [walk, step_of_fewer h hstep]
      exact ih hrest

/-- What is located with fewer links is located with more. -/
theorem locate_of_fewer (h : Fewer first second) {path : Path} {entry : Entry}
    (hlocate : first.locate path = some entry) : second.locate path = some entry := by
  have hcwd : first.cwd = second.cwd := congrArg DirTree.cwd h.tree
  unfold locate locateFrom at hlocate ⊢
  rw [hcwd] at hlocate
  cases hlast : (components path).getLast? with
  | none => simp [hlast] at hlocate
  | some last =>
      simp only [hlast] at hlocate ⊢
      split at hlocate
      · simp at hlocate
      · rename_i hform
        rw [if_neg hform]
        obtain ⟨parent, hwalk, rfl⟩ := Option.map_eq_some_iff.mp hlocate
        rw [walk_of_fewer h hwalk]
        rfl

end

end Namespace

/-- A root directory and nothing below it. -/
def DirTree.rootOnly : DirTree where
  isDir dir := dir = []
  device _ := 0
  cwd := []
  root_isDir := rfl
  parent_isDir := by simp
  validName := by simp
  cwd_isDir := rfl

/-! ### Canonical paths -/

/-- The path that `realpath` spells for an entry. -/
def canonicalPath (entry : Entry) : Path :=
  '/' :: joinDirs entry.dir ++ entry.name

/-! ### `dirname` and `basename` -/

/-- `PATH_MAX`. -/
def pathMax : Nat := 1024

/-- A path without its trailing slashes. -/
def stripSlashes (path : Path) : Path :=
  path.rdropWhile (· = '/')

/-- `dirname_r`: `none` where the result does not fit into `PATH_MAX` characters. -/
def dirnameR (path : Path) : Option Path :=
  let stripped := stripSlashes path
  if path = [] then some dot
  else if stripped = [] then some ['/']
  else
    let parent := stripped.rdropWhile (· ≠ '/')
    if parent = [] then some dot
    else if stripSlashes parent = [] then some ['/']
    else if (stripSlashes parent).length < pathMax then some (stripSlashes parent) else none

/-- `basename_r`: `none` where the result does not fit into `PATH_MAX` characters. -/
def basenameR (path : Path) : Option Path :=
  let stripped := stripSlashes path
  if path = [] then some dot
  else if stripped = [] then some ['/']
  else
    let base := stripped.rtakeWhile (· ≠ '/')
    if base.length < pathMax then some base else none

end Dedup.Posix
