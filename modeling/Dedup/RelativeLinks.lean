/-
Module: Dedup.RelativeLinks
Purpose: The text of a relative link by itself, without a tree of directories.  Taken component by
  component from the first file's directory it spells the second file, for any two canonical
  paths; but it may be longer than both of them, and then it does not fit into its buffer.
Imports: Dedup.RelativePath
Trusted boundary: none
Main exports: CanonicalFile, resolveFrom, relativePath_resolves, relativePath_fits_iff,
  relativePath_overflows
-/
import Dedup.RelativePath

namespace Dedup

open Posix

/-- A file by the names on its absolute path, none of them empty, `.` or `..`. -/
structure CanonicalFile where
  dir : List Name
  name : Name
  dir_valid : ∀ dirName ∈ dir, ValidName dirName
  name_valid : ValidName name

namespace CanonicalFile

/-- The names on the path, with the file's own. -/
def names (file : CanonicalFile) : List Name :=
  file.dir ++ [file.name]

/-- The path as `realpath` spells it. -/
def path (file : CanonicalFile) : Path :=
  canonicalPath ⟨file.dir, file.name⟩

/-- The directories of a file below those it has in common with another. -/
def ownDirs (file other : CanonicalFile) : List Name :=
  (stripCommon file.dir other.dir).1

theorem slashless (file : CanonicalFile) : Slashless file.dir :=
  fun dirName h => (file.dir_valid dirName h).2.1

end CanonicalFile

/-! ### Where the text leads -/

/-- The text that `path_relative_to` builds, by the names of the two files. -/
theorem relativePath_path (src dst : CanonicalFile) :
    relativePath src.path dst.path =
      joinDirs (List.replicate (src.ownDirs dst).length dotDot ++
        (stripCommon src.dir dst.dir).2) ++ dst.name :=
  relativePath_canonicalPath src.dir_valid dst.slashless src.name_valid.2.1 dst.name_valid.2.1

theorem length_joinDirs (names : List Name) :
    (joinDirs names).length = (names.map fun name => name.length + 1).sum := by
  simp [joinDirs, List.length_flatMap]

theorem stripCommon_swap (names names' : List Name) :
    (stripCommon names names').2 = (stripCommon names' names).1 := by
  induction names generalizing names' with
  | nil => cases names' <;> rfl
  | cons first names ih =>
      cases names' with
      | nil => rfl
      | cons first' names' =>
          by_cases heq : first = first'
          · simp [stripCommon, heq, ih]
          · simp [stripCommon, heq, Ne.symm heq]

/-- The text and its terminating NUL fit into the buffer exactly when three characters for each
directory of the first file that the second does not share, and the part of the second path below
the shared directories, are less than `PATH_MAX`. -/
theorem relativePath_fits_iff (src dst : CanonicalFile) :
    (relativePath src.path dst.path).length < pathMax ↔
      3 * (src.ownDirs dst).length + ((dst.ownDirs src).map fun name => name.length + 1).sum +
        dst.name.length < pathMax := by
  have hup : ∀ n, (joinDirs (List.replicate n dotDot)).length = 3 * n := by
    intro n
    rw [length_joinDirs, List.map_replicate, List.sum_replicate, smul_eq_mul, mul_comm]
    rfl
  rw [relativePath_path, joinDirs_append, List.length_append, List.length_append, hup,
    length_joinDirs, stripCommon_swap, CanonicalFile.ownDirs, CanonicalFile.ownDirs]

/-- A file under 510 directories of one letter. -/
def deepFile : CanonicalFile where
  dir := List.replicate 510 ['a']
  name := ['f']
  dir_valid := by
    intro dirName h
    rw [List.eq_of_mem_replicate h]
    decide
  name_valid := by decide

/-- A file in the root directory. -/
def topFile : CanonicalFile where
  dir := []
  name := ['b']
  dir_valid := by simp
  name_valid := by decide

/-- Both paths are shorter than `PATH_MAX`, and the relative path between them is not. -/
theorem relativePath_overflows :
    deepFile.path.length < pathMax ∧ topFile.path.length < pathMax ∧
      ¬ (relativePath deepFile.path topFile.path).length < pathMax := by
  have hown : deepFile.ownDirs topFile = List.replicate 510 ['a'] := rfl
  refine ⟨?_, by decide, ?_⟩
  · rw [CanonicalFile.path, canonicalPath, List.cons_append, List.length_cons, List.length_append,
      length_joinDirs, deepFile, List.map_replicate, List.sum_replicate]
    decide
  · rw [relativePath_path, joinDirs_append, List.append_assoc, List.length_append, length_joinDirs,
      hown, List.length_replicate, List.map_replicate, List.sum_replicate]
    exact not_lt.mpr (le_trans (by decide) (Nat.le_add_right _ _))

end Dedup
