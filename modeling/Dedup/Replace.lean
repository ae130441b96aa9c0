/-
Module: Dedup.Replace
Purpose: `clone.c`: the three replacements as sequences of system calls with every exit they have,
  and the calls `deduplicate` makes into a file system.
Imports: Dedup.Posix.Kernel, Dedup.Deduplicate
Trusted boundary: allocations succeed; a relative path that does not fit into its buffer is
  refused by `symlink`
Main exports: findZeroFile, tmpName, replaceWithClone, replaceWithLink, pathRelativeTo,
  replaceWithSymlink, fsCalls
-/
import Dedup.Posix.Kernel
import Dedup.Deduplicate

namespace Dedup

open Posix Posix.Kernel Std.Do

section

variable (k : Kernel)

/-! ### Clones -/

/-- `find_zero_file`. -/
def findZeroFile (path : Path) : Sys Int := do
  if !(← k.access path .write).isOk then
    return 1
  match ← k.stat path with
  | .error _ => return 2
  | .ok size => return if size = 0 then 3 else 0

/-- The name of the staging file that stands in for a file: `.~.` before its last component. -/
def stagingPath (path : Path) : Except Errno Path :=
  match dirnameR path, basenameR path with
  | some dir, some base =>
      let out := dir ++ ['/', '.', '~', '.'] ++ base
      if out.length < pathMax then .ok out else .error .enametoolong
  | _, _ => .error .enametoolong

/-- `tmp_name`; an error is the `errno` that is set where the null pointer is returned. -/
def tmpName (path : Path) : Sys (Except Errno Path) := do
  match stagingPath path with
  | .error errno => return .error errno
  | .ok out =>
      if (← k.access out .exist).isOk then
        return .error .eexist
      return .ok out

/-- `dir_mtime`. -/
def dirMtime (path : Path) : Sys (Except Errno (Dir × Nat)) := do
  match dirnameR path with
  | none => return .error .enametoolong
  | some parent =>
      match ← k.openDir parent with
      | .error errno => return .error errno
      | .ok fd =>
          match ← k.fstat fd with
          | .error errno => return .error errno
          | .ok mtime => return .ok (fd, mtime)

/-- `restore_dir_mtime`; a failure is only a warning. -/
def restoreDirMtime (fd : Dir) (mtime : Nat) : Sys Unit := do
  let _ ← k.futimens fd mtime

/-- `COPYFILE_DATA` of `copyfile.h`. -/
def copyfileData : BitVec 32 := 1 <<< 3

/-- The status of `copyfile` under `COPYFILE_CHECK`: the bits, or -1. -/
def checkStatus : Except Errno (BitVec 32) → BitVec 32
  | .ok bits => bits
  | .error _ => -1

/-- `unlink(path)`, whatever comes of it, on the way out with a result. -/
def abandon (path : Path) (result : Int) : Sys Int := do
  let _ ← k.unlink path
  return result

/-- The body of `replace_with_clone` once the staging file is named. -/
def cloneThrough (src dst path : Path) : Sys Int := do
  if !(← k.clonefile src path).isOk then
    return ← abandon k path (-1)
  if (← findZeroFile k path) ≠ 0 then
    return ← abandon k path Errno.enoent.code
  let check := checkStatus (← k.copyfileCheck dst path)
  if check &&& copyfileData ≠ 0 then
    return ← abandon k path check.toInt
  if !(← k.copyfileMetadata dst path).isOk then
    return ← abandon k path (-1)
  if (← findZeroFile k path) ≠ 0 then
    return ← abandon k path Errno.enoent.code
  if !(← k.rename path dst).isOk then
    return ← abandon k path (-1)
  return 0

/-- The part of `replace_with_clone` between the two halves of the preserved modification time. -/
def cloneOver (src dst : Path) : Sys Int := do
  match ← tmpName k dst with
  | .error errno => return errno.code
  | .ok path => cloneThrough k src dst path

/-- `replace_with_clone`. -/
def replaceWithClone (src dst : Path) (preserveParentMtime : Bool) : Sys Int := do
  if preserveParentMtime then
    match ← dirMtime k dst with
    | .error errno => return errno.code
    | .ok (fd, mtime) =>
        let result ← cloneOver k src dst
        restoreDirMtime k fd mtime
        return result
  else
    cloneOver k src dst

/-! ### Hard links -/

/-- The status of a call that returns 0 or -1. -/
def status : Except Errno Unit → Int
  | .ok _ => 0
  | .error _ => -1

/-- `replace_with_link`. -/
def replaceWithLink (src dst : Path) : Sys Int := do
  if !(← k.unlink dst).isOk then
    return 1
  return status (← k.link src dst)

/-! ### Symbolic links -/

/-- `strchr(path, '/')`: the characters before the first slash and those after it. -/
def splitSlash (path : Path) : Option (Path × Path) :=
  match path.dropWhile (· ≠ '/') with
  | [] => none
  | _ :: rest => some (path.takeWhile (· ≠ '/'), rest)

theorem length_of_splitSlash {path first rest : Path} (h : splitSlash path = some (first, rest)) :
    rest.length < path.length := by
  have hlen : (path.dropWhile (· ≠ '/')).length ≤ path.length := List.length_dropWhile_le _ _
  unfold splitSlash at h
  split at h
  · simp at h
  · rename_i hdrop
    obtain ⟨rfl, rfl⟩ := Prod.mk.inj (Option.some.inj h)
    rw [hdrop, List.length_cons] at hlen
    omega

/-- The loop of `path_relative_to` that consumes the common directories. -/
def consumeCommon (realSrc realDst : Path) : Path × Path :=
  match _h : splitSlash realSrc, splitSlash realDst with
  | some (srcDir, srcRest), some (dstDir, dstRest) =>
      if srcDir = dstDir then consumeCommon srcRest dstRest else (realSrc, realDst)
  | _, _ => (realSrc, realDst)
termination_by realSrc.length
decreasing_by exact length_of_splitSlash _h

/-- A path without its root slash. -/
def consumeRoot : Path → Path
  | '/' :: path => path
  | path => path

/-- The loop of `path_relative_to` that counts a step past the first character, and one past each
slash that `strchr` finds after it. -/
def countDepth : Path → Nat
  | [] => 0
  | _ :: rest => countDepth (rest.dropWhile (· ≠ '/')) + 1
termination_by path => path.length
decreasing_by exact Nat.lt_succ_of_le (List.length_dropWhile_le _ _)

/-- The string that `path_relative_to` builds from two canonical paths: up once for each directory
that is left of the first, and on to the second. -/
def relativePath (realSrc realDst : Path) : Path :=
  let (realSrc, realDst) := consumeCommon (consumeRoot realSrc) (consumeRoot realDst)
  -- after `depth--`; from an empty string the loop that writes is not entered either
  (List.replicate (countDepth realSrc - 1) ['.', '.', '/']).flatten ++ realDst

/-- `path_relative_to`: a relative path to `dst` from `src`, or the null pointer. -/
def pathRelativeTo (src dst : Path) : Sys (Option Path) := do
  match ← k.realpath src with
  | .error _ => return none
  | .ok realSrc =>
      match ← k.realpath dst with
      | .error _ => return none
      | .ok realDst => return some (relativePath realSrc realDst)

/-- `replace_with_symlink`. -/
def replaceWithSymlink (src dst : Path) : Sys Int := do
  let path ← pathRelativeTo k dst src
  if !(← k.unlink dst).isOk then
    return 1
  return status (← k.symlink path dst)

/-! ### The calls of `deduplicate` -/

/-- `get_clone_id` and `private_size`: an attribute, or 0 after an error. -/
def getAttribute (value : FileSystem → Nat → Nat) (path : Path) : Sys Nat := do
  match ← k.getattrlist value path with
  | .ok value => return value
  | .error _ => return 0

/-- The world in which `deduplicate` runs on files. -/
def fsCalls : Calls FileSystem where
  getCloneId path := getAttribute k (fun fs ino => (fs.inode ino).cloneId) path
  privateSize path := getAttribute k k.privateSize path
  replaceWithClone src dst preserve := replaceWithClone k src dst preserve
  replaceWithLink src dst := replaceWithLink k src dst
  replaceWithSymlink src dst := replaceWithSymlink k src dst

/-- A record of a file of one byte in the root directory. -/
def listedFile (name : Char) (cloneId : Nat) : FileMetadata where
  device := 0
  inode := 0
  nlink := 1
  flags := 0
  cloneId := cloneId
  size := 1
  path := ['/', name]
  sha256 := 0
  first := 1
  last := 1

/-- The start of a run. -/
def startContext (fs : FileSystem) : Context FileSystem where
  saved := 0
  alreadySaved := 0
  reports := []
  world := fs

/-! ### The functions that only read -/

variable {k} (keep : FileSystem → Prop)

theorem findZeroFile_triple (path : Path) (tick : ∀ fs, keep fs → keep fs.tick)
    (fail : ∀ fs, keep fs → keep fs.fail) :
    ⦃fun fs => ⌜keep fs⌝⦄ findZeroFile k path ⦃⇓ _ fs => ⌜keep fs⌝⦄ := by
  apply Triple.bind _ _ (readCall_triple keep tick fail)
  intro access
  split
  · exact Triple.pure _ .rfl
  · apply Triple.bind _ _ (readCall_triple keep tick fail)
    intro size
    cases size <;> exact Triple.pure _ .rfl

theorem dirMtime_triple (path : Path) (tick : ∀ fs, keep fs → keep fs.tick)
    (fail : ∀ fs, keep fs → keep fs.fail) :
    ⦃fun fs => ⌜keep fs⌝⦄ dirMtime k path ⦃⇓ _ fs => ⌜keep fs⌝⦄ := by
  unfold dirMtime
  cases dirnameR path with
  | none => exact Triple.pure _ .rfl
  | some parent =>
      apply Triple.bind _ _ (readCall_triple keep tick fail)
      intro opened
      cases opened with
      | error _ => exact Triple.pure _ .rfl
      | ok fd =>
          apply Triple.bind _ _ (readCall_triple keep tick fail)
          intro mtime
          cases mtime <;> exact Triple.pure _ .rfl

theorem getAttribute_triple (value : FileSystem → Nat → Nat) (path : Path)
    (tick : ∀ fs, keep fs → keep fs.tick) (fail : ∀ fs, keep fs → keep fs.fail) :
    ⦃fun fs => ⌜keep fs⌝⦄ getAttribute k value path ⦃⇓ _ fs => ⌜keep fs⌝⦄ := by
  apply Triple.bind _ _ (readCall_triple keep tick fail)
  intro result
  cases result <;> exact Triple.pure _ .rfl

/-! ### What the link replacements do -/

/-- The files after an `unlink` of what stands at an entry. -/
def unlinked (fs : FileSystem) (entry : Entry) : FileSystem :=
  (fs.tick.removeNode entry).touch entry.dir

@[simp] theorem unlinked_nodes_self (fs : FileSystem) (entry : Entry) :
    (unlinked fs entry).nodes entry = none :=
  Function.update_self _ _ _

/-- What is free after the `unlink` is the entry that was unlinked. -/
theorem entry_of_findFree {k : Kernel} {fs : FileSystem} {dst : Path} {entry target : Entry}
    (h : k.findRemovable dst fs = .ok entry) (hfree : k.findFree dst (unlinked fs entry) = .ok target) : target = entry := by
  have htarget := Namespace.locate_of_fewer
    (ns_fewer (FileSystem.fewerLinks_removeNode fs entry)) (findFree_eq_ok.mp hfree).1
  exact Option.some.inj (htarget.symm.trans (findRemovable_eq_ok.mp h).1)

/-- What both replacements end with. -/
def unlinkThen (k : Kernel) (dst : Path) (second : Sys (Except Errno Unit)) : Sys Int := do
  if !(← k.unlink dst).isOk then
    return 1
  return status (← second)

theorem replaceWithLink_eq (src dst : Path) :
    replaceWithLink k src dst = unlinkThen k dst (k.link src dst) := rfl

theorem replaceWithSymlink_eq (src dst : Path) :
    replaceWithSymlink k src dst =
      pathRelativeTo k dst src >>= fun path => unlinkThen k dst (k.symlink path dst) := rfl

variable {fs : FileSystem} {src dst : Path}

/-- The `unlink` fails, or the call after it does, or neither. -/
theorem unlinkThen_cases {α : Type} (fs : FileSystem) (dst : Path) (call : Call)
    (find : FileSystem → Except Errno α) (effect : α → FileSystem → FileSystem) :
    (∃ errno, k.outcome (.unlink dst) (k.findRemovable dst) fs = .error errno ∧
      unlinkThen k dst (k.writeCall call find effect) fs = (1, fs.tick.fail)) ∨
    (∃ entry errno, k.outcome (.unlink dst) (k.findRemovable dst) fs = .ok entry ∧
      k.outcome call find (unlinked fs entry) = .error errno ∧
      unlinkThen k dst (k.writeCall call find effect) fs = (-1, (unlinked fs entry).tick.fail)) ∨
    (∃ entry found, k.outcome (.unlink dst) (k.findRemovable dst) fs = .ok entry ∧
      k.outcome call find (unlinked fs entry) = .ok found ∧
      unlinkThen k dst (k.writeCall call find effect) fs =
        (0, effect found (unlinked fs entry).tick)) := by
  cases hunlink : k.outcome (.unlink dst) (k.findRemovable dst) fs with
  | error errno =>
      refine .inl ⟨errno, rfl, ?_⟩
      rw [unlinkThen, bind_apply, unlink, writeCall_of_error hunlink]
      rfl
  | ok entry =>
      have hrun : unlinkThen k dst (k.writeCall call find effect) fs =
          (status (k.writeCall call find effect (unlinked fs entry)).1,
            (k.writeCall call find effect (unlinked fs entry)).2) := by
        rw [unlinkThen, bind_apply, unlink, writeCall_of_ok hunlink]
        rfl
      cases hsecond : k.outcome call find (unlinked fs entry) with
      | error errno =>
          refine .inr (.inl ⟨entry, errno, rfl, hsecond, ?_⟩)
          rw [hrun, writeCall_of_error hsecond]
          rfl
      | ok found =>
          refine .inr (.inr ⟨entry, found, rfl, hsecond, ?_⟩)
          rw [hrun, writeCall_of_ok hsecond]
          rfl

/-- `path_relative_to` fails at its first `realpath`, or at its second, or at none. -/
theorem pathRelativeTo_cases (fs : FileSystem) (src dst : Path) :
    (∃ errno, k.outcome (.realpath src) (k.findReal src) fs = .error errno ∧
      pathRelativeTo k src dst fs = (none, fs.tick.fail)) ∨
    (∃ realSrc errno, k.outcome (.realpath src) (k.findReal src) fs = .ok realSrc ∧
      k.outcome (.realpath dst) (k.findReal dst) fs.tick = .error errno ∧
      pathRelativeTo k src dst fs = (none, fs.tick.tick.fail)) ∨
    (∃ realSrc realDst, k.outcome (.realpath src) (k.findReal src) fs = .ok realSrc ∧
      k.outcome (.realpath dst) (k.findReal dst) fs.tick = .ok realDst ∧
      pathRelativeTo k src dst fs = (some (relativePath realSrc realDst), fs.tick.tick)) := by
  cases hsrc : k.outcome (.realpath src) (k.findReal src) fs with
  | error errno =>
      refine .inl ⟨errno, rfl, ?_⟩
      rw [pathRelativeTo, bind_apply, realpath, readCall_of_error hsrc]
      rfl
  | ok realSrc =>
      cases hdst : k.outcome (.realpath dst) (k.findReal dst) fs.tick with
      | error errno =>
          refine .inr (.inl ⟨realSrc, errno, rfl, rfl, ?_⟩)
          rw [pathRelativeTo, bind_apply, realpath, readCall_of_ok hsrc]
          simp only
          rw [bind_apply, realpath, readCall_of_error hdst]
          rfl
      | ok realDst =>
          refine .inr (.inr ⟨realSrc, realDst, rfl, rfl, ?_⟩)
          rw [pathRelativeTo, bind_apply, realpath, readCall_of_ok hsrc]
          simp only
          rw [bind_apply, realpath, readCall_of_ok hdst]
          rfl

end

end Dedup
