/-
Module: Dedup.ContentSoundness
Purpose: When a match of the visited tree is a match of contents.  The tree compares digests of
  the first `size mod 2 ^ 32` bytes, so below `2 ^ 32` bytes it compares contents, and from there
  on two files that differ only behind that prefix are taken for duplicates.
Imports: Dedup.VisitedRefinement
Trusted boundary: SHA-256 is collision-free and never all-zero on the strings it is given
Main exports: SoundOnContent, visitedTreeInsert_sound_iff,
  visitedTreeInsert_unsound_largeFiles
-/
import Dedup.VisitedRefinement

namespace Dedup

/-- Every call that hashing a file makes succeeds. -/
def ScanEnv.hashable (env : ScanEnv) (path : Path) : Bool :=
  env.openOk path && env.mmapOk path && env.updateOk path && env.finalOk path

/-- A hashable file that is not hashed yet obtains the digest of its hashed bytes. -/
theorem obtain_of_hashable {env : ScanEnv} {fm : FileMetadata}
    (hhashable : env.hashable fm.path) (hsha : fm.sha256 = emptySha256)
    (hzero : env.sha256 (hashedBytes env fm) ≠ emptySha256) :
    obtainSha256 env fm = some (env.sha256 (hashedBytes env fm)) := by
  simp only [ScanEnv.hashable, Bool.and_eq_true] at hhashable
  simp [obtainSha256, populateSha256IfEmpty, shaIsEmpty, hsha, hhashable, hzero]

/-- Below `2 ^ 32` bytes the whole content is hashed. -/
theorem hashedBytes_of_lt {env : ScanEnv} {fm : FileMetadata}
    (hsize : fm.size = (env.contents fm.path).length) (hlt : fm.size < 2 ^ 32) :
    hashedBytes env fm = env.contents fm.path := by
  rw [hashedBytes, ccLong, Nat.mod_eq_of_lt hlt, hsize, List.take_length]

/-- A first match is an earlier file with the leaf key and the digest, and every file before it
lacks one of them. -/
theorem firstMatch_eq_some {env : ScanEnv} {before : List FileMetadata}
    {fm old : FileMetadata} (h : firstMatch env before fm = some old) :
    ∃ digest earlier, obtainSha256 env fm = some digest ∧ earlier ∈ before ∧
      earlier.leafKey = fm.leafKey ∧ obtainSha256 env earlier = some digest ∧
      old = earlier.withSha digest := by
  rcases Option.bind_eq_some_iff.mp h with ⟨digest, hfm, hfind⟩
  rcases Option.map_eq_some_iff.mp hfind with ⟨earlier, hfind, hold⟩
  have hpred := List.find?_some hfind
  simp only [decide_eq_true_eq] at hpred
  exact ⟨digest, earlier, hfm, List.mem_of_find?_eq_some hfind, hpred.1, hpred.2, hold.symm⟩

/-- Whenever a call in the sequence returns an earlier file, the two contents are equal. -/
def SoundOnContent (env : ScanEnv) (fms : List FileMetadata) : Prop :=
  ∀ before fm after, fms = before ++ fm :: after → ∀ old,
    (visitedTreeInsert env (insertAll env newVisitedTree before) fm).2.2 = some old →
      env.contents old.path = env.contents fm.path

/-- No two files of one device and one size from `2 ^ 32` on, with the same first and last byte,
agree on their first `size mod 2 ^ 32` bytes and differ elsewhere. -/
def NoTruncatedTwins (env : ScanEnv) (fms : List FileMetadata) : Prop :=
  ∀ fm ∈ fms, ∀ fm' ∈ fms, 2 ^ 32 ≤ fm.size → fm.leafKey = fm'.leafKey →
    (env.contents fm.path).take (fm.size % 2 ^ 32) =
      (env.contents fm'.path).take (fm.size % 2 ^ 32) →
    env.contents fm.path = env.contents fm'.path

/-- The hypotheses of the soundness theorem: records of readable files, and a hash without
collisions or all-zero digests on the strings it is given. -/
structure HashesFaithfully (env : ScanEnv) (fms : List FileMetadata) : Prop where
  scanned : ∀ fm ∈ fms, Scanned env fm
  hashable : ∀ fm ∈ fms, env.hashable fm.path
  collisionFree : Set.InjOn env.sha256 {bytes | ∃ fm ∈ fms, bytes = hashedBytes env fm}
  neverZero : ∀ fm ∈ fms, env.sha256 (hashedBytes env fm) ≠ emptySha256

section Soundness

variable {env : ScanEnv} {fms : List FileMetadata}

theorem HashesFaithfully.obtain_eq (h : HashesFaithfully env fms) {fm : FileMetadata}
    (hmem : fm ∈ fms) : obtainSha256 env fm = some (env.sha256 (hashedBytes env fm)) :=
  obtain_of_hashable (h.hashable fm hmem) (h.scanned fm hmem).unhashed (h.neverZero fm hmem)

/-- Two files with one leaf key and one digest have one content, unless they are truncated
twins. -/
theorem HashesFaithfully.contents_eq (h : HashesFaithfully env fms)
    (htwins : NoTruncatedTwins env fms) {fm fm' : FileMetadata} (hmem : fm ∈ fms)
    (hmem' : fm' ∈ fms) (hleaf : fm.leafKey = fm'.leafKey)
    (hobtain : obtainSha256 env fm = obtainSha256 env fm') :
    env.contents fm.path = env.contents fm'.path := by
  have hbytes : hashedBytes env fm = hashedBytes env fm' := by
    rw [h.obtain_eq hmem, h.obtain_eq hmem', Option.some.injEq] at hobtain
    exact h.collisionFree ⟨fm, hmem, rfl⟩ ⟨fm', hmem', rfl⟩ hobtain
  have hsize : fm.size = fm'.size := congrArg LeafKey.size hleaf
  by_cases hlt : fm.size < 2 ^ 32
  · rwa [hashedBytes_of_lt (h.scanned fm hmem).size_eq hlt,
      hashedBytes_of_lt (h.scanned fm' hmem').size_eq (hsize ▸ hlt)] at hbytes
  · refine htwins fm hmem fm' hmem' (Nat.le_of_not_lt hlt) hleaf ?_
    simpa [hashedBytes, ccLong, ← hsize] using hbytes

/-- In a sound sequence every file has the content of the first file with its leaf key and
digest: either it is that file, or its own call returned that file. -/
theorem SoundOnContent.contents_eq_first (hsound : SoundOnContent env fms)
    {first fm : FileMetadata} {digest : Digest}
    (hfirst : (fms.find? fun earlier =>
      earlier.leafKey = fm.leafKey ∧ obtainSha256 env earlier = some digest) = some first)
    (hmem : fm ∈ fms) (hobtain : obtainSha256 env fm = some digest) :
    env.contents first.path = env.contents fm.path := by
  rcases List.append_of_mem hmem with ⟨before, after, hsplit⟩
  rw [hsplit, List.find?_append] at hfirst
  cases hbefore : before.find? fun earlier =>
      earlier.leafKey = fm.leafKey ∧ obtainSha256 env earlier = some digest with
  | none =>
      rw [hbefore, List.find?_cons_of_pos (by simp [hobtain])] at hfirst
      simp_all
  | some earlier =>
      have hcall := visitedTreeInsert_eq_firstMatch env before fm
      simp only [firstMatch, hobtain, Option.bind_some, hbefore, Option.map_some] at hcall
      have heq := hsound before fm after hsplit _ hcall
      simp_all

/-- Matches are matches of contents exactly in the sequences without truncated twins.  In
particular every sequence of files below `2 ^ 32` bytes is safe. -/
theorem visitedTreeInsert_sound_iff (h : HashesFaithfully env fms) :
    SoundOnContent env fms ↔ NoTruncatedTwins env fms := by
  constructor
  · intro hsound fm hmem fm' hmem' _ hleaf hprefix
    have hsize : fm.size = fm'.size := congrArg LeafKey.size hleaf
    have hobtain : obtainSha256 env fm' = obtainSha256 env fm := by
      rw [h.obtain_eq hmem, h.obtain_eq hmem', hashedBytes, hashedBytes, ccLong, ccLong,
        ← hsize, hprefix]
    have hfm := h.obtain_eq hmem
    -- both files have the content of the first file of their class
    cases hfirst : fms.find? fun earlier => earlier.leafKey = fm.leafKey ∧
        obtainSha256 env earlier = some (env.sha256 (hashedBytes env fm)) with
    | none =>
        have hnone := List.find?_eq_none.mp hfirst fm hmem
        simp [hfm] at hnone
    | some first =>
        rw [← hsound.contents_eq_first hfirst hmem hfm]
        exact hsound.contents_eq_first (hleaf ▸ hfirst) hmem' (hobtain.trans hfm)
  · intro htwins before fm after hsplit old hcall
    rw [visitedTreeInsert_eq_firstMatch] at hcall
    rcases firstMatch_eq_some hcall with ⟨digest, earlier, hfm, hearlier, hleaf, hobtain, rfl⟩
    have hmem : fm ∈ fms := by simp [hsplit]
    have hmem' : earlier ∈ fms := by simp [hsplit, hearlier]
    rw [FileMetadata.withSha_path]
    exact h.contents_eq htwins hmem' hmem hleaf (hobtain.trans hfm.symm)

end Soundness

/-! ### Two files of `2 ^ 32 + 1` bytes

They start with `a`, end with `b` and differ in every byte between.  One byte of each reaches the
hash. -/

/-- `a`, then `n` times `byte`, then `b`. -/
def framed (n : Nat) (byte : UInt8) : List UInt8 :=
  97 :: (List.replicate n byte ++ [98])

/-- How many bytes of the large files lie between the first and the last. -/
def gapLength : Nat := 2 ^ 32 - 1

/-- The tree with the two large files; the hash is SHA-256 on the string `a`. -/
def largeEnv : ScanEnv where
  contents path := framed gapLength (if path = ['a'] then 0 else 1)
  fopenOk _ := true
  firstFgetcOk _ := true
  fseekOk _ := true
  lastFgetcOk _ := true
  cloneId _ := some 0
  openOk _ := true
  mmapOk _ := true
  updateOk _ := true
  finalOk _ := true
  sha256 _ := 0xca978112ca1bbdcafac231b39a23dc4da786eff8147c4e72b9807785afee48bb

/-- The record of one of the large files. -/
def largeFile (path : Path) : FileMetadata where
  device := 1
  inode := 1
  nlink := 1
  flags := 0
  cloneId := 0
  size := gapLength + 2
  path := path
  sha256 := emptySha256
  first := 97
  last := 98

theorem length_framed (n : Nat) (byte : UInt8) : (framed n byte).length = n + 2 := by
  simp [framed]

theorem getLast?_framed (n : Nat) (byte : UInt8) : (framed n byte).getLast? = some 98 := by
  rw [framed, ← List.cons_append]
  exact List.getLast?_concat

theorem framed_ne {n : Nat} (h : 0 < n) : framed n 0 ≠ framed n 1 := by
  rcases Nat.exists_eq_succ_of_ne_zero h.ne' with ⟨m, rfl⟩
  simp [framed, List.replicate_succ]

theorem ccLong_gapLength : ccLong (gapLength + 2) = 1 := by
  norm_num [ccLong, gapLength]

theorem hashedBytes_largeFile (path : Path) : hashedBytes largeEnv (largeFile path) = [97] := by
  simp only [hashedBytes, largeFile, ccLong_gapLength, largeEnv, framed, List.take_succ_cons,
    List.take_zero]

theorem scanned_largeFile (path : Path) : Scanned largeEnv (largeFile path) where
  size_eq := by simp only [largeEnv, largeFile, length_framed]
  size_pos := by simp [largeFile]
  size_lt := by norm_num [largeFile, gapLength]
  first_eq := by simp [largeEnv, largeFile, framed, charOfByte]
  last_eq := by simp [largeEnv, largeFile, getLast?_framed, charOfByte]
  unhashed := rfl

/-- The hash of the large files meets the assumptions: it is given one string only. -/
theorem hashesFaithfully_largeFiles :
    HashesFaithfully largeEnv [largeFile ['a'], largeFile ['b']] where
  scanned := by simp [scanned_largeFile]
  hashable := by simp [ScanEnv.hashable, largeEnv]
  collisionFree := by
    rintro _ ⟨fm, hmem, rfl⟩ _ ⟨fm', hmem', rfl⟩ _
    simp only [List.mem_cons, List.not_mem_nil, or_false] at hmem hmem'
    rcases hmem with rfl | rfl <;> rcases hmem' with rfl | rfl <;>
      simp only [hashedBytes_largeFile]
  neverZero := by simp [largeEnv, emptySha256]

theorem obtain_largeFile (path : Path) :
    obtainSha256 largeEnv (largeFile path) = some (largeEnv.sha256 [97]) := by
  rw [← hashedBytes_largeFile path]
  exact obtain_of_hashable (by simp [ScanEnv.hashable, largeEnv]) rfl
    (by simp [largeEnv, emptySha256])

/-- The theorem at the two large files. -/
theorem visitedTreeInsert_sound_iff_largeFiles :
    SoundOnContent largeEnv [largeFile ['a'], largeFile ['b']] ↔
      NoTruncatedTwins largeEnv [largeFile ['a'], largeFile ['b']] :=
  visitedTreeInsert_sound_iff hashesFaithfully_largeFiles

/-- The second large file is taken for a duplicate of the first. -/
theorem visitedTreeInsert_unsound_largeFiles :
    HashesFaithfully largeEnv [largeFile ['a'], largeFile ['b']] ∧
      ¬ SoundOnContent largeEnv [largeFile ['a'], largeFile ['b']] := by
  refine ⟨hashesFaithfully_largeFiles, fun hsound => ?_⟩
  have hcall : (visitedTreeInsert largeEnv (insertAll largeEnv newVisitedTree [largeFile ['a']])
      (largeFile ['b'])).2.2 = some ((largeFile ['a']).withSha (largeEnv.sha256 [97])) := by
    have hleaf : (largeFile ['a']).leafKey = (largeFile ['b']).leafKey := rfl
    rw [visitedTreeInsert_eq_firstMatch, firstMatch, obtain_largeFile, Option.bind_some,
      List.find?_cons_of_pos (by simp [hleaf, obtain_largeFile]), Option.map_some]
  have hequal := hsound [largeFile ['a']] (largeFile ['b']) [] rfl _ hcall
  exact framed_ne (by norm_num [gapLength]) hequal

end Dedup
