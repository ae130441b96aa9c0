/-
Module: Dedup.RelativePath
Purpose: What `path_relative_to` computes.  On canonical paths the character loops drop the common
  directories, go up once for each directory that is left, and come down to the other file; a
  symbolic link with that text leads there from the first file's directory.
Imports: Dedup.Replace
Main exports: stripCommon, relativePath_canonicalPath, locateFrom_relativePath
-/
import Dedup.Replace

namespace Dedup

open Posix

/-- Two directories without the names they begin with both. -/
def stripCommon : List Name → List Name → List Name × List Name
  | first :: names, first' :: names' =>
      if first = first' then stripCommon names names' else (first :: names, first' :: names')
  | names, names' => (names, names')

/-- What is stripped is common. -/
theorem stripCommon_spec (names names' : List Name) :
    ∃ common, names = common ++ (stripCommon names names').1 ∧
      names' = common ++ (stripCommon names names').2 := by
  induction names generalizing names' with
  | nil => exact ⟨[], by simp [stripCommon]⟩
  | cons first names ih =>
      cases names' with
      | nil => exact ⟨[], by simp [stripCommon]⟩
      | cons first' names' =>
          by_cases heq : first = first'
          · rcases ih names' with ⟨common, hnames, hnames'⟩
            refine ⟨first :: common, ?_⟩
            simp only [stripCommon, heq, if_true, List.cons_append, List.cons.injEq, true_and]
            exact ⟨hnames, hnames'⟩
          · exact ⟨[], by simp [stripCommon, heq]⟩

/-- A name in a path: no slash in it. -/
def Slashless (names : List Name) : Prop :=
  ∀ name ∈ names, '/' ∉ name

theorem ne_slash_of_slashless {name : Name} (h : '/' ∉ name) :
    ∀ c ∈ name, decide (c ≠ '/') = true := by
  intro c hc
  have hne : c ≠ '/' := fun heq => h (heq ▸ hc)
  simpa using hne

theorem splitSlash_joinDirs {first : Name} (h : '/' ∉ first) (names : List Name) (rest : Path) :
    splitSlash (joinDirs (first :: names) ++ rest) = some (first, joinDirs names ++ rest) := by
  have hchars := ne_slash_of_slashless h
  rw [joinDirs_cons, splitSlash]
  simp only [List.append_assoc, List.cons_append]
  rw [List.dropWhile_append_of_pos hchars, List.takeWhile_append_of_pos hchars]
  simp

theorem splitSlash_name {name : Name} (h : '/' ∉ name) : splitSlash name = none := by
  rw [splitSlash, List.dropWhile_eq_nil_iff.mpr (ne_slash_of_slashless h)]

/-- The loop over the characters drops the common directories. -/
theorem consumeCommon_joinDirs {names names' : List Name} (hnames : Slashless names)
    (hnames' : Slashless names') {name name' : Name} (hname : '/' ∉ name) (hname' : '/' ∉ name') :
    consumeCommon (joinDirs names ++ name) (joinDirs names' ++ name') =
      (joinDirs (stripCommon names names').1 ++ name,
        joinDirs (stripCommon names names').2 ++ name') := by
  induction names generalizing names' with
  | nil =>
      rw [consumeCommon]
      simp [joinDirs, splitSlash_name hname, stripCommon]
  | cons first names ih =>
      have hfirst := hnames first List.mem_cons_self
      have hrest : Slashless names := fun other h => hnames other (List.mem_cons_of_mem _ h)
      rw [consumeCommon, splitSlash_joinDirs hfirst]
      cases names' with
      | nil => simp [joinDirs, splitSlash_name hname', stripCommon]
      | cons first' names' =>
          have hfirst' := hnames' first' List.mem_cons_self
          have hrest' : Slashless names' := fun other h => hnames' other (List.mem_cons_of_mem _ h)
          rw [splitSlash_joinDirs hfirst']
          by_cases heq : first = first'
          · simp [stripCommon, heq, ih hrest hrest']
          · simp [stripCommon, heq]

theorem count_slash_joinDirs {names : List Name} (hnames : Slashless names) {name : Name}
    (hname : '/' ∉ name) : (joinDirs names ++ name).count '/' = names.length := by
  induction names with
  | nil => simpa [joinDirs] using List.count_eq_zero.mpr hname
  | cons first names ih =>
      have hfirst := hnames first List.mem_cons_self
      have hrest : Slashless names := fun other h => hnames other (List.mem_cons_of_mem _ h)
      rw [joinDirs_cons, List.append_assoc, List.count_append, List.count_eq_zero.mpr hfirst,
        List.cons_append, List.count_cons_self, ih hrest, List.length_cons, zero_add]

/-- The loop counts the first character and every slash after it. -/
theorem countDepth_cons (c : Char) (rest : Path) :
    countDepth (c :: rest) = rest.count '/' + 1 := by
  rw [countDepth, Nat.add_right_cancel_iff]
  generalize hlength : rest.length = n
  induction n using Nat.strongRecOn generalizing rest with
  | ind n ih =>
      have hsplit : rest.takeWhile (· ≠ '/') ++ rest.dropWhile (· ≠ '/') = rest :=
        List.takeWhile_append_dropWhile
      have hbefore : (rest.takeWhile (· ≠ '/')).count '/' = 0 :=
        List.count_eq_zero.mpr fun hmem => by simpa using List.mem_takeWhile_imp hmem
      rw [← congrArg (List.count '/') hsplit, List.count_append, hbefore, zero_add]
      cases hdrop : rest.dropWhile (· ≠ '/') with
      | nil => simp [countDepth]
      | cons slash after =>
          obtain rfl : slash = '/' := by
            have hhead := List.head?_dropWhile_not (fun c => decide (c ≠ '/')) rest
            rw [hdrop] at hhead
            simpa using hhead
          have hle : (rest.dropWhile (· ≠ '/')).length ≤ rest.length :=
            List.length_dropWhile_le _ _
          rw [hdrop, List.length_cons] at hle
          rw [countDepth, ih after.length (by omega) after rfl, List.count_cons_self]

/-- On what is left of a canonical path the loop goes up once for each directory. -/
theorem countDepth_joinDirs {names : List Name} (hnames : ∀ name ∈ names, ValidName name)
    {name : Name} (hname : '/' ∉ name) :
    countDepth (joinDirs names ++ name) - 1 = names.length := by
  have hcount := count_slash_joinDirs (fun other h => (hnames other h).2.1) hname
  cases names with
  | nil =>
      cases name with
      | nil => simp [joinDirs, countDepth]
      | cons c rest =>
          rw [joinDirs, List.flatMap_nil, List.nil_append, countDepth_cons, Nat.add_sub_cancel]
          exact List.count_eq_zero.mpr (List.not_mem_of_not_mem_cons hname)
  | cons first names =>
      rcases hnames first List.mem_cons_self with ⟨hne, hslash, _⟩
      obtain ⟨c, rest, rfl⟩ := List.exists_cons_of_ne_nil hne
      have hc : '/' ≠ c := fun heq => hslash (heq ▸ List.mem_cons_self)
      rw [joinDirs_cons, List.append_assoc, List.cons_append,
        List.count_cons_of_ne hc.symm] at hcount
      rw [joinDirs_cons, List.append_assoc, List.cons_append, countDepth_cons, hcount,
        Nat.add_sub_cancel]

/-- The text that `path_relative_to` builds from canonical paths. -/
theorem relativePath_canonicalPath {source target : Entry}
    (hsource : ∀ name ∈ source.dir, ValidName name) (htarget : Slashless target.dir)
    (hname : '/' ∉ source.name) (hname' : '/' ∉ target.name) :
    relativePath (canonicalPath source) (canonicalPath target) =
      joinDirs (List.replicate (stripCommon source.dir target.dir).1.length dotDot ++
        (stripCommon source.dir target.dir).2) ++ target.name := by
  rcases stripCommon_spec source.dir target.dir with ⟨common, hdir, _⟩
  have hleft : ∀ name ∈ (stripCommon source.dir target.dir).1, ValidName name := by
    intro name h
    rw [hdir] at hsource
    exact hsource name (List.mem_append_right _ h)
  have hroot : ∀ entry : Entry,
      consumeRoot (canonicalPath entry) = joinDirs entry.dir ++ entry.name :=
    fun _ => rfl
  have hup : ∀ n,
      (List.replicate n ['.', '.', '/']).flatten = joinDirs (List.replicate n dotDot) := by
    intro n
    simp [joinDirs, List.flatMap_replicate, dotDot]
  rw [relativePath, hroot, hroot,
    consumeCommon_joinDirs (fun name h => (hsource name h).2.1) htarget hname hname']
  simp only [countDepth_joinDirs hleft hname, hup, joinDirs_append, List.append_assoc]

/-- A symbolic link at one file, with the relative path to another, leads to that one. -/
theorem locateFrom_relativePath {ns : Namespace} {source target : Entry}
    (hsource : ns.isDir source.dir = true) (htarget : ns.isDir target.dir = true)
    (hname : '/' ∉ source.name) (hname' : ValidName target.name) :
    ns.locateFrom source.dir (relativePath (canonicalPath source) (canonicalPath target)) =
      some target := by
  have hvalid := fun name h => Namespace.validName_of_isDir hsource name h
  have hvalid' := fun name h => Namespace.validName_of_isDir htarget name h
  rcases stripCommon_spec source.dir target.dir with ⟨common, hdir, hdir'⟩
  rw [relativePath_canonicalPath hvalid (fun name h => (hvalid' name h).2.1) hname hname'.2.1]
  generalize (stripCommon source.dir target.dir).1 = up at hdir ⊢
  generalize (stripCommon source.dir target.dir).2 = down at hdir' ⊢
  rw [Namespace.locateFrom_joinDirs ?_ hname', Namespace.walk_append, hdir, Namespace.walk_up,
    Option.bind_some, Namespace.walk_down (hdir' ▸ htarget), ← hdir']
  · rfl
  · intro name h
    rcases List.mem_append.mp h with h | h
    · rw [List.eq_of_mem_replicate h]
      decide
    · have hmem : name ∈ target.dir := hdir' ▸ List.mem_append_right _ h
      exact ⟨(hvalid' name hmem).2.1, (hvalid' name hmem).1⟩

theorem stripCommon_self (names : List Name) : stripCommon names names = ([], []) := by
  induction names with
  | nil => rfl
  | cons first names ih => simpa [stripCommon] using ih

/-- From a file to itself the path is its bare name, which leads elsewhere from elsewhere. -/
theorem locateFrom_relativePath_self {ns : Namespace} {target : Entry}
    (htarget : ns.isDir target.dir = true) (hname : ValidName target.name) (dir : Dir) :
    ns.locateFrom dir (relativePath (canonicalPath target) (canonicalPath target)) =
      some ⟨dir, target.name⟩ := by
  have hvalid := fun name h => Namespace.validName_of_isDir htarget name h
  rw [relativePath_canonicalPath hvalid (fun name h => (hvalid name h).2.1) hname.2.1 hname.2.1,
    stripCommon_self, Namespace.locateFrom_joinDirs (by simp) hname]
  rfl

end Dedup
