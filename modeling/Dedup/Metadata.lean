/-
Module: Dedup.Metadata
Purpose: The records of the scan (`queue.h`, `map.h`) and how `metadata_from_entry` fills them.
  A path is its characters; a SHA-256 digest is the big-endian number its 32 bytes spell, so
  that `memcmp` of two digests is the order of the numbers.
Imports: Dedup.Posix.FileSystem
Trusted boundary: human-reviewed spec of stdio, `getattrlist`, `mmap` and CommonCrypto
Main exports: Digest, FileEntry, FileMetadata, ScanEnv, metadataFromEntry, Scanned
-/
import Dedup.Posix.FileSystem

namespace Dedup

export Posix (Path ufImmutable sfImmutable)

/-- A SHA-256 digest. -/
abbrev Digest := BitVec 256

/-- `EMPTY_SHA256`, the digest of a record that was not hashed yet. -/
def emptySha256 : Digest := 0

/-- `UF_COMPRESSED` of `sys/stat.h`. -/
def ufCompressed : Nat := 0x20

/-- `FileEntry`: what `fts_read` reports of one regular file. -/
structure FileEntry where
  path : Path
  device : Int
  inode : Nat
  nlink : Nat
  flags : Nat
  size : Nat
deriving DecidableEq, Repr, Inhabited

/-- `FileMetadata`: the record the two trees keep of one file. -/
structure FileMetadata where
  device : Int
  inode : Nat
  nlink : Nat
  flags : Nat
  cloneId : Nat
  size : Nat
  path : Path
  sha256 : Digest
  first : Int
  last : Int
deriving DecidableEq, Repr, Inhabited

namespace FileMetadata

/-- `fm->flags & UF_IMMUTABLE || fm->flags & SF_IMMUTABLE`. -/
def immutable (fm : FileMetadata) : Bool :=
  fm.flags &&& ufImmutable ≠ 0 || fm.flags &&& sfImmutable ≠ 0

/-- `fm->flags & UF_COMPRESSED`. -/
def compressed (fm : FileMetadata) : Bool :=
  fm.flags &&& ufCompressed ≠ 0

/-- The record with its digest written. -/
def withSha (fm : FileMetadata) (digest : Digest) : FileMetadata :=
  { fm with sha256 := digest }

@[simp] theorem withSha_sha256 (fm : FileMetadata) (digest : Digest) :
    (fm.withSha digest).sha256 = digest := rfl

@[simp] theorem withSha_path (fm : FileMetadata) (digest : Digest) :
    (fm.withSha digest).path = fm.path := rfl

@[simp] theorem withSha_cloneId (fm : FileMetadata) (digest : Digest) :
    (fm.withSha digest).cloneId = fm.cloneId := rfl

@[simp] theorem withSha_withSha (fm : FileMetadata) (digest other : Digest) :
    (fm.withSha digest).withSha other = fm.withSha other := rfl

end FileMetadata

/-- What the scan reads from a tree that does not change while it runs: the bytes of every file,
and which of the calls on a path succeed. `cloneId` is `none` where `getattrlist` fails. -/
structure ScanEnv where
  contents : Path → List UInt8
  fopenOk : Path → Bool
  firstFgetcOk : Path → Bool
  fseekOk : Path → Bool
  lastFgetcOk : Path → Bool
  cloneId : Path → Option Nat
  openOk : Path → Bool
  mmapOk : Path → Bool
  updateOk : Path → Bool
  finalOk : Path → Bool
  sha256 : List UInt8 → Digest

namespace ScanEnv

/-- The first `fgetc`: the first byte, unless the read fails or the file is empty. -/
def fgetcFirst (env : ScanEnv) (path : Path) : Option UInt8 :=
  if env.firstFgetcOk path then (env.contents path).head? else none

/-- The `fgetc` after `fseek(f, -1, SEEK_END)`: the last byte. -/
def fgetcLast (env : ScanEnv) (path : Path) : Option UInt8 :=
  if env.lastFgetcOk path then (env.contents path).getLast? else none

/-- `get_clone_id`: the attribute, or 0 after an error. -/
def getCloneId (env : ScanEnv) (path : Path) : Nat :=
  (env.cloneId path).getD 0

end ScanEnv

/-- A byte stored in a C `char`, which is signed. -/
def charOfByte (byte : UInt8) : Int :=
  byte.toBitVec.toInt

/-- `metadata_from_entry`: `none` where the C function returns `NULL`. The digest starts empty. -/
def metadataFromEntry (env : ScanEnv) (fe : FileEntry) : Option FileMetadata := do
  guard (env.fopenOk fe.path)
  let first ← env.fgetcFirst fe.path
  -- on an empty file the read above has already failed, so seeking back one byte is in range
  guard (env.fseekOk fe.path)
  let last ← env.fgetcLast fe.path
  some
    { device := fe.device
      inode := fe.inode
      nlink := fe.nlink
      flags := fe.flags
      cloneId := env.getCloneId fe.path
      size := fe.size
      path := fe.path
      sha256 := emptySha256
      first := charOfByte first
      last := charOfByte last }

/-- A record of `fe` was read from a file that is not empty, and nothing in it is hashed. -/
theorem metadataFromEntry_eq_some {env : ScanEnv} {fe : FileEntry} {fm : FileMetadata}
    (h : metadataFromEntry env fe = some fm) :
    ∃ first last, (env.contents fe.path).head? = some first ∧
      (env.contents fe.path).getLast? = some last ∧
      fm = { device := fe.device, inode := fe.inode, nlink := fe.nlink, flags := fe.flags,
             cloneId := env.getCloneId fe.path, size := fe.size, path := fe.path,
             sha256 := emptySha256, first := charOfByte first, last := charOfByte last } := by
  simp only [metadataFromEntry, ScanEnv.fgetcFirst, ScanEnv.fgetcLast, Option.bind_eq_bind,
    Option.bind_eq_some_iff, Option.guard_eq_some'] at h
  rcases h with ⟨_, _, first, hfirst, _, _, last, hlast, hfm⟩
  split at hfirst
  · split at hlast
    · exact ⟨first, last, hfirst, hlast, (Option.some.inj hfm).symm⟩
    · simp at hlast
  · simp at hfirst

/-- A record that was read from the present content of its file and is not hashed yet. -/
structure Scanned (env : ScanEnv) (fm : FileMetadata) : Prop where
  size_eq : fm.size = (env.contents fm.path).length
  size_pos : 0 < fm.size
  size_lt : fm.size < 2 ^ 64
  first_eq : (env.contents fm.path).head?.map charOfByte = some fm.first
  last_eq : (env.contents fm.path).getLast?.map charOfByte = some fm.last
  unhashed : fm.sha256 = emptySha256

end Dedup
