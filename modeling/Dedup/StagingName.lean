/-
Module: Dedup.StagingName
Purpose: Where the name that `tmp_name` builds stands: in the directory of the file it stands in
  for, under that file's name with `.~.` before it.
Imports: Dedup.Replace
Main exports: stagingMark, dirnameR_split, basenameR_split, stagingPath_eq_ok, locate_staging,
  dirnameR_basenameR_of_locate, locate_stagingPath, locateDir_of_staging
-/
import Dedup.Replace

namespace Dedup

open Posix

/-- The mark before the name of a staging file. -/
def stagingMark : Name := ['.', '~', '.']

/-! ### Slashes at the end of a path -/

theorem components_concat_slash (path : Path) : components (path ++ ['/']) = components path := by
  rw [components_append_slash]
  simp [components, componentsFrom]

theorem stripSlashes_concat_slash (path : Path) :
    stripSlashes (path ++ ['/']) = stripSlashes path :=
  List.rdropWhile_concat_pos _ _ _ (by simp)

/-- Trailing slashes add no component. -/
theorem components_stripSlashes (path : Path) :
    components (stripSlashes path) = components path := by
  induction path using List.reverseRecOn with
  | nil => rfl
  | append_singleton path c ih =>
      by_cases hc : c = '/'
      · rw [hc, stripSlashes_concat_slash, ih, components_concat_slash]
      · have hkeep : stripSlashes (path ++ [c]) = path ++ [c] :=
          List.rdropWhile_concat_neg _ _ _ (by simpa using hc)
        rw [hkeep]

theorem stripSlashes_of_last {path : Path} (h : path.getLast? ≠ some '/') :
    stripSlashes path = path := by
  rw [stripSlashes, List.rdropWhile_eq_self_iff]
  intro hne hlast
  rw [List.getLast?_eq_some_getLast hne] at h
  exact h (by simpa using hlast)

theorem head?_stripSlashes {path : Path} (h : stripSlashes path ≠ []) :
    (stripSlashes path).head? = path.head? := by
  obtain ⟨rest, hrest⟩ := List.rdropWhile_prefix (fun c => decide (c = '/')) path
  conv_rhs => rw [← hrest]
  exact (List.head?_append_of_ne_nil _ h).symm

/-! ### `dirname` and `basename` -/

/-- A path is one name, or ends in one after a slash. -/
theorem slashless_or_split (path : Path) :
    '/' ∉ path ∨ ∃ front name, path = front ++ '/' :: name ∧ '/' ∉ name := by
  induction path with
  | nil => exact .inl (by simp)
  | cons c path ih =>
      rcases ih with hslash | ⟨front, name, rfl, hname⟩
      · by_cases hc : c = '/'
        · exact .inr ⟨[], path, by rw [hc, List.nil_append], hslash⟩
        · exact .inl (by simp [hslash, Ne.symm hc])
      · exact .inr ⟨c :: front, name, rfl, hname⟩

theorem rdropWhile_split (front : Path) {name : Path} (h : '/' ∉ name) :
    (front ++ '/' :: name).rdropWhile (· ≠ '/') = front ++ ['/'] := by
  induction name using List.reverseRecOn with
  | nil => exact List.rdropWhile_concat_neg _ _ _ (by simp)
  | append_singleton name c ih =>
      simp only [List.mem_append, List.mem_singleton, not_or] at h
      have hdrop := List.rdropWhile_concat_pos (fun c : Char => decide (c ≠ '/'))
        (front ++ '/' :: name) c (by simpa using Ne.symm h.2)
      rw [← List.cons_append, ← List.append_assoc, hdrop, ih h.1]

theorem rtakeWhile_split (front : Path) {name : Path} (h : '/' ∉ name) :
    (front ++ '/' :: name).rtakeWhile (· ≠ '/') = name := by
  have hsplit : (front ++ '/' :: name).rdropWhile (· ≠ '/') ++
      (front ++ '/' :: name).rtakeWhile (· ≠ '/') = front ++ '/' :: name :=
    List.rdropWhile_append_rtakeWhile
  rw [rdropWhile_split front h, List.append_assoc] at hsplit
  simpa using List.append_cancel_left hsplit

theorem rdropWhile_slashless {path : Path} (h : '/' ∉ path) :
    path.rdropWhile (· ≠ '/') = [] := by
  rw [List.rdropWhile_eq_nil_iff]
  intro c hc
  exact decide_eq_true fun heq => h (heq ▸ hc)

theorem rtakeWhile_slashless {path : Path} (h : '/' ∉ path) :
    path.rtakeWhile (· ≠ '/') = path := by
  have hsplit : path.rdropWhile (· ≠ '/') ++ path.rtakeWhile (· ≠ '/') = path :=
    List.rdropWhile_append_rtakeWhile
  rwa [rdropWhile_slashless h, List.nil_append] at hsplit

/-- A path that starts with nothing but slashes is absolute. -/
theorem head?_of_stripSlashes_nil {front name : Path} (h : stripSlashes front = []) :
    (front ++ '/' :: name).head? = some '/' := by
  cases front with
  | nil => rfl
  | cons c front =>
      have hc := List.rdropWhile_eq_nil_iff.mp h c List.mem_cons_self
      simpa using hc

theorem getLast?_split (front : Path) {name : Path} (hne : name ≠ []) (h : '/' ∉ name) :
    (front ++ '/' :: name).getLast? ≠ some '/' := by
  rw [List.getLast?_append_of_ne_nil _ (List.cons_ne_nil _ _), List.getLast?_cons_of_ne_nil hne]
  exact fun hlast => h (List.mem_of_getLast? hlast)

theorem components_split (front : Path) {name : Path} (hne : name ≠ []) (h : '/' ∉ name) :
    components (front ++ '/' :: name) = components front ++ [name] := by
  rw [components_append_slash, components_name h hne]

/-- `dirname` of a bare name. -/
theorem dirnameR_slashless {path : Path} (hne : path ≠ []) (h : '/' ∉ path) :
    dirnameR path = some dot := by
  have hstrip : stripSlashes path = path :=
    stripSlashes_of_last fun hlast => h (List.mem_of_getLast? hlast)
  simp only [dirnameR, hstrip, rdropWhile_slashless h, if_neg hne, if_true]

/-- `dirname` of a name after a slash. -/
theorem dirnameR_split (front : Path) {name : Path} (hne : name ≠ []) (h : '/' ∉ name) :
    dirnameR (front ++ '/' :: name) =
      if stripSlashes front = [] then some ['/']
      else if (stripSlashes front).length < pathMax then some (stripSlashes front) else none := by
  have hstrip := stripSlashes_of_last (getLast?_split front hne h)
  simp only [dirnameR, hstrip, rdropWhile_split front h, stripSlashes_concat_slash,
    List.append_eq_nil_iff, List.cons_ne_nil, and_false, if_false]

/-- `basename` of a path that does not end in a slash is what follows the last one. -/
theorem basenameR_of_last {path base : Path} (hne : path ≠ [])
    (hlast : path.getLast? ≠ some '/') (h : basenameR path = some base) :
    base = path.rtakeWhile (· ≠ '/') := by
  simp only [basenameR, stripSlashes_of_last hlast, if_neg hne] at h
  split at h
  · exact (Option.some.inj h).symm
  · simp at h

theorem basenameR_split {front name base : Path} (hne : name ≠ []) (h : '/' ∉ name)
    (hbase : basenameR (front ++ '/' :: name) = some base) : base = name := by
  rw [basenameR_of_last (by simp) (getLast?_split front hne h) hbase, rtakeWhile_split front h]

/-- What the two make of a path without its trailing slashes, they make of the path. -/
theorem dirnameR_basenameR_stripSlashes {path : Path} (h : stripSlashes path ≠ []) :
    dirnameR (stripSlashes path) = dirnameR path ∧
      basenameR (stripSlashes path) = basenameR path := by
  have hagain : stripSlashes (stripSlashes path) = stripSlashes path :=
    List.rdropWhile_idempotent _ _
  have hpath : path ≠ [] := by
    rintro rfl
    exact h rfl
  simp only [dirnameR, basenameR, hagain, if_neg h, if_neg hpath, and_self]

theorem dirnameR_ne_nil {path dir : Path} (h : dirnameR path = some dir) : dir ≠ [] := by
  unfold dirnameR at h
  dsimp only at h
  split_ifs at h with _ _ _ hne
  all_goals obtain rfl := Option.some.inj h
  · decide
  · decide
  · decide
  · decide
  · exact hne

/-- A base name is the root, or has no slash. -/
theorem basenameR_slashless {path base : Path} (h : basenameR path = some base) :
    base = ['/'] ∨ '/' ∉ base := by
  unfold basenameR at h
  dsimp only at h
  split_ifs at h
  all_goals obtain rfl := Option.some.inj h
  · exact .inr (by decide)
  · exact .inl rfl
  · refine .inr fun hmem => ?_
    have hne := List.mem_rtakeWhile_imp hmem
    simp at hne

/-! ### The staging name -/

theorem stagingPath_eq_ok {dst path : Path} :
    stagingPath dst = .ok path ↔ ∃ dir base, dirnameR dst = some dir ∧ basenameR dst = some base ∧
      path = dir ++ '/' :: (stagingMark ++ base) ∧ path.length < pathMax := by
  unfold stagingPath
  cases dirnameR dst with
  | none => simp
  | some dir =>
      cases basenameR dst with
      | none => simp
      | some base =>
          simp only [Option.some.injEq, exists_and_left, exists_eq_left']
          split
          · rename_i hlength
            rw [Except.ok.injEq]
            constructor
            · rintro rfl
              exact ⟨by simp [stagingMark], hlength⟩
            · rintro ⟨rfl, _⟩
              simp [stagingMark]
          · rename_i hlength
            simp only [reduceCtorEq, false_iff, not_and]
            rintro rfl
            simpa [stagingMark] using hlength

/-- A staging name stands in the directory that `dirname` spells. -/
theorem locate_staging {ns : Namespace} {dir base : Path} (hdir : dir ≠ []) (hbase : '/' ∉ base) :
    ns.locate (dir ++ '/' :: (stagingMark ++ base)) =
      (ns.locateDir dir).map fun parent => ⟨parent, stagingMark ++ base⟩ := by
  have hslash : '/' ∉ stagingMark ++ base := by simpa [stagingMark] using hbase
  have hlong : 3 ≤ (stagingMark ++ base).length := by simp [stagingMark]
  have hne : stagingMark ++ base ≠ [] := by simp [stagingMark]
  have hdot : stagingMark ++ base ≠ dot := fun heq => by simp [heq, dot] at hlong
  have hdotDot : stagingMark ++ base ≠ dotDot := fun heq => by simp [heq, dotDot] at hlong
  have hcomponents := components_split dir hne hslash
  have hhead : (dir ++ '/' :: (stagingMark ++ base)).head? = dir.head? :=
    List.head?_append_of_ne_nil _ hdir
  have hlast := getLast?_split dir hne hslash
  rw [Namespace.locate, Namespace.locateFrom, hcomponents, hhead, List.getLast?_concat,
    List.dropLast_concat, Namespace.locateDir, if_neg hdir]
  simp only [hdot, hdotDot, hlast, decide_false, Bool.or_self, Bool.false_eq_true, if_false]

/-- A path that ends in a slash names no entry. -/
theorem locate_of_slash {ns : Namespace} {path : Path} (h : path.getLast? = some '/') :
    ns.locate path = none := by
  rw [Namespace.locate, Namespace.locateFrom]
  split
  · rfl
  · simp [h]

/-- A path that names an entry ends in a name, in the directory of what comes before it. -/
theorem locate_split {ns : Namespace} {front name : Path} {entry : Entry} (hne : name ≠ [])
    (hslash : '/' ∉ name) (h : ns.locate (front ++ '/' :: name) = some entry) :
    entry.name = name ∧ ns.walk (if (front ++ '/' :: name).head? = some '/' then [] else ns.cwd)
      (components front) = some entry.dir := by
  rw [Namespace.locate, Namespace.locateFrom, components_split front hne hslash,
    List.getLast?_concat, List.dropLast_concat] at h
  dsimp only at h
  split at h
  · simp at h
  · obtain ⟨parent, hwalk, rfl⟩ := Option.map_eq_some_iff.mp h
    exact ⟨rfl, hwalk⟩

/-- For a path that names an entry, `dirname` spells its directory and `basename` its name. -/
theorem dirnameR_basenameR_of_locate {ns : Namespace} {path : Path} {entry : Entry}
    (h : ns.locate path = some entry) :
    (∀ dir, dirnameR path = some dir → ns.locateDir dir = some entry.dir) ∧
      ∀ base, basenameR path = some base → base = entry.name := by
  have hlast : path.getLast? ≠ some '/' := fun hlast => by simp [locate_of_slash hlast] at h
  have hne : path ≠ [] := by
    rintro rfl
    simp [Namespace.locate, Namespace.locateFrom, components, componentsFrom] at h
  rcases slashless_or_split path with hslash | ⟨front, name, rfl, hslash⟩
  · -- a bare name, in the working directory
    have hhead : path.head? ≠ some '/' := fun hhead => hslash (List.mem_of_head? hhead)
    rw [Namespace.locate, Namespace.locateFrom, components_name hslash hne] at h
    simp only [List.getLast?_singleton, List.dropLast_singleton, hhead, if_false] at h
    split at h
    · simp at h
    · obtain ⟨parent, hwalk, rfl⟩ := Option.map_eq_some_iff.mp h
      refine ⟨fun dir hdir => ?_, fun base hbase => ?_⟩
      · obtain rfl := Option.some.inj ((dirnameR_slashless hne hslash).symm.trans hdir)
        exact hwalk
      · rw [basenameR_of_last hne hlast hbase, rtakeWhile_slashless hslash]
  · have hname : name ≠ [] := by
      rintro rfl
      simp at hlast
    obtain ⟨hentry, hwalk⟩ := locate_split hname hslash h
    refine ⟨fun dir hdir => ?_, fun base hbase => (basenameR_split hname hslash hbase).trans
      hentry.symm⟩
    rw [dirnameR_split front hname hslash] at hdir
    rw [← components_stripSlashes] at hwalk
    split at hdir
    · -- nothing but slashes
      rename_i hroot
      obtain rfl := Option.some.inj hdir
      rw [hroot, head?_of_stripSlashes_nil hroot, if_pos rfl] at hwalk
      exact hwalk
    · rename_i hdirNe
      split at hdir
      · obtain rfl := Option.some.inj hdir
        have hfront : front ≠ [] := by
          rintro rfl
          exact hdirNe rfl
        rw [Namespace.locateDir, if_neg hdirNe, head?_stripSlashes hdirNe,
          ← List.head?_append_of_ne_nil _ hfront]
        exact hwalk
      · simp at hdir

/-- The staging file of a file stands next to it. -/
theorem locate_stagingPath {ns : Namespace} {dst path : Path} {entry : Entry}
    (hdst : ns.locate dst = some entry) (hpath : stagingPath dst = .ok path) :
    ns.locate path = some ⟨entry.dir, stagingMark ++ entry.name⟩ := by
  obtain ⟨dir, base, hdir, hbase, rfl, _⟩ := stagingPath_eq_ok.mp hpath
  rcases dirnameR_basenameR_of_locate hdst with ⟨hparent, hname⟩
  obtain rfl := hname base hbase
  rw [locate_staging (dirnameR_ne_nil hdir) (Namespace.valid_of_locate hdst).2.2.1,
    hparent dir hdir]
  rfl

/-- Where a staging name stands, `dirname` spells its directory. -/
theorem locateDir_of_staging {ns : Namespace} {dst path : Path} {entry : Entry}
    (hpath : stagingPath dst = .ok path) (hlocate : ns.locate path = some entry) :
    ∃ dir, dirnameR dst = some dir ∧ ns.locateDir dir = some entry.dir := by
  obtain ⟨dir, base, hdir, hbase, rfl, _⟩ := stagingPath_eq_ok.mp hpath
  rcases basenameR_slashless hbase with rfl | hslash
  · -- a name that ends in a slash names no entry
    have hend : (dir ++ '/' :: (stagingMark ++ ['/'])).getLast? = some '/' := by
      rw [List.getLast?_append_of_ne_nil _ (List.cons_ne_nil _ _)]
      rfl
    simp [locate_of_slash hend] at hlocate
  · rw [locate_staging (dirnameR_ne_nil hdir) hslash] at hlocate
    obtain ⟨parent, hparent, rfl⟩ := Option.map_eq_some_iff.mp hlocate
    exact ⟨dir, hdir, hparent⟩

end Dedup
