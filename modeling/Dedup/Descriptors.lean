/-
Module: Dedup.Descriptors
Purpose: The descriptors and mappings that the two functions of the scan that open files acquire
  and release.  `metadata_from_entry` and `populate_sha256_if_empty` are told once more with the
  process's table beside their result; an exit between an acquisition and its release leaves what
  it acquired in the table, and a table that is full refuses every later file.
Imports: Dedup.Lib.StateTriple, Dedup.VisitedTree
Trusted boundary: `fopen` and `open` take one descriptor, `fclose` and `close` give it back, and
  both are refused where the table is full; `munmap`, `fclose` and `close` do not fail
Main exports: Resources, metadataFromEntry, populateSha256IfEmpty, ScanCall, ScanCall.Leaks,
  ScanBalanced, scan_balanced_iff, unreadable_file_leaks
-/
import Dedup.Lib.StateTriple
import Dedup.VisitedTree

namespace Dedup.Descriptors

/-- The open descriptors of the process and its live mappings. -/
structure Resources where
  descriptors : Nat
  mappings : Nat
deriving DecidableEq, Repr

section

variable (limit : Nat)

/-- `fopen` or `open`: refused where the call fails, or where `limit` descriptors are open. -/
def openFile (ok : Bool) : StateM Resources Bool := fun r =>
  if ok && r.descriptors < limit then (true, { r with descriptors := r.descriptors + 1 })
  else (false, r)

/-- `fclose` or `close`. -/
def closeFile : StateM Resources Unit :=
  modify fun r => { r with descriptors := r.descriptors - 1 }

/-- `mmap`. -/
def mapFile (ok : Bool) : StateM Resources Bool := fun r =>
  if ok then (true, { r with mappings := r.mappings + 1 }) else (false, r)

/-- `munmap`. -/
def unmapFile : StateM Resources Unit :=
  modify fun r => { r with mappings := r.mappings - 1 }

/-- `metadata_from_entry`, with the descriptors it leaves open. -/
def metadataFromEntry (env : ScanEnv) (fe : FileEntry) :
    StateM Resources (Option FileMetadata) := do
  if !(← openFile limit (env.fopenOk fe.path)) then
    return none
  match env.fgetcFirst fe.path with
  | none => return none
  | some first =>
      if !env.fseekOk fe.path then
        return none
      match env.fgetcLast fe.path with
      | none => return none
      | some last =>
          closeFile
          return some
            { device := fe.device
              inode := fe.inode
              nlink := fe.nlink
              flags := fe.flags
              cloneId := env.getCloneId fe.path
              size := fe.size
              path := fe.path
              sha256 := emptySha256
              first := charOfByte first
              last := charOfByte last }

/-- `populate_sha256_if_empty`, with the descriptors and the mappings it leaves. -/
def populateSha256IfEmpty (env : ScanEnv) (fm : FileMetadata) :
    StateM Resources (Nat × FileMetadata) := do
  if !shaIsEmpty fm.sha256 then
    return (0, fm)
  if !(← openFile limit (env.openOk fm.path)) then
    return (2, fm)
  if !(← mapFile (env.mmapOk fm.path)) then
    return (2, fm)
  if !env.updateOk fm.path then
    return (3, fm)
  unmapFile
  closeFile
  return (if env.finalOk fm.path then 0 else 1, fm.withSha (env.sha256 (hashedBytes env fm)))

/-! ### Calls of a scan -/

/-- A call of one of the two functions, with what it reads and which of its steps fail. -/
inductive ScanCall where
  | metadataFromEntry (env : ScanEnv) (fe : FileEntry)
  | populateSha256IfEmpty (env : ScanEnv) (fm : FileMetadata)

/-- What such a call returns. -/
inductive ScanResult where
  | metadata (fm : Option FileMetadata)
  | populated (status : Nat) (fm : FileMetadata)
deriving DecidableEq, Repr

namespace ScanCall

/-- A call in a process. -/
def run : ScanCall → StateM Resources ScanResult
  | .metadataFromEntry env fe => do
      return .metadata (← Descriptors.metadataFromEntry limit env fe)
  | .populateSha256IfEmpty env fm => do
      let (status, fm) ← Descriptors.populateSha256IfEmpty limit env fm
      return .populated status fm

/-- What a call returns in a process that has a descriptor to spare. -/
def result : ScanCall → ScanResult
  | .metadataFromEntry env fe => .metadata (Dedup.metadataFromEntry env fe)
  | .populateSha256IfEmpty env fm =>
      .populated (Dedup.populateSha256IfEmpty env fm).1 (Dedup.populateSha256IfEmpty env fm).2

/-- The file is opened, and a later step fails before it is closed. -/
def Leaks : ScanCall → Prop
  | .metadataFromEntry env fe => env.fopenOk fe.path = true ∧
      (env.fgetcFirst fe.path = none ∨ env.fseekOk fe.path = false ∨
        env.fgetcLast fe.path = none)
  | .populateSha256IfEmpty env fm => fm.sha256 = emptySha256 ∧ env.openOk fm.path = true ∧
      (env.mmapOk fm.path = false ∨ env.updateOk fm.path = false)

end ScanCall

instance : DecidablePred ScanCall.Leaks
  | .metadataFromEntry env fe => inferInstanceAs (Decidable (env.fopenOk fe.path = true ∧
      (env.fgetcFirst fe.path = none ∨ env.fseekOk fe.path = false ∨
        env.fgetcLast fe.path = none)))
  | .populateSha256IfEmpty env fm => inferInstanceAs (Decidable (fm.sha256 = emptySha256 ∧
      env.openOk fm.path = true ∧ (env.mmapOk fm.path = false ∨ env.updateOk fm.path = false)))

/-- The table after a sequence of calls. -/
def afterCalls (calls : List ScanCall) (r : Resources) : Resources :=
  calls.foldl (fun r call => (call.run limit r).2) r

/-- A scan leaves the table as it was after each of its calls, and if that table had room then
every call returns what it returns in a process with a descriptor to spare. -/
structure ScanBalanced (calls : List ScanCall) (r : Resources) : Prop where
  unchanged : ∀ done, done <+: calls → afterCalls limit done r = r
  served : r.descriptors < limit → ∀ done call rest, calls = done ++ call :: rest →
    (call.run limit (afterCalls limit done r)).1 = call.result

/-! ### One call -/

variable {limit} {r : Resources}

/-- Where the table is full, no file is opened, and the table stays. -/
theorem openFile_full (h : limit ≤ r.descriptors) (ok : Bool) :
    openFile limit ok r = (false, r) := by
  simp [openFile, Nat.not_lt.mpr h]

theorem openFile_refused : openFile limit false r = (false, r) := rfl

theorem openFile_free (h : r.descriptors < limit) :
    openFile limit true r = (true, { r with descriptors := r.descriptors + 1 }) := by
  simp [openFile, h]

/-- One more open descriptor. -/
def Resources.leakFile (r : Resources) : Resources :=
  { r with descriptors := r.descriptors + 1 }

/-- `metadata_from_entry` with room in the table: at each exit, what it returns and what it leaves
open. -/
theorem metadataFromEntry_free (h : r.descriptors < limit) (env : ScanEnv) (fe : FileEntry) :
    ((ScanCall.metadataFromEntry env fe).Leaks ∧ Dedup.metadataFromEntry env fe = none ∧
      metadataFromEntry limit env fe r = (none, r.leakFile)) ∨
    (¬(ScanCall.metadataFromEntry env fe).Leaks ∧
      metadataFromEntry limit env fe r = (Dedup.metadataFromEntry env fe, r)) := by
  simp only [ScanCall.Leaks]
  cases hopen : env.fopenOk fe.path with
  | false =>
      right
      refine ⟨by simp, ?_⟩
      simp only [metadataFromEntry, bind_apply, hopen, openFile_refused]
      simp [Dedup.metadataFromEntry, hopen]
      rfl
  | true =>
      cases hfirst : env.fgetcFirst fe.path with
      | none =>
          left
          simp only [metadataFromEntry, bind_apply, hopen, openFile_free h, hfirst]
          simp [Dedup.metadataFromEntry, hopen, hfirst]
          rfl
      | some first =>
          cases hseek : env.fseekOk fe.path with
          | false =>
              left
              simp only [metadataFromEntry, bind_apply, hopen, openFile_free h, hfirst, hseek]
              simp [Dedup.metadataFromEntry, hopen, hfirst, hseek]
              rfl
          | true =>
              cases hlast : env.fgetcLast fe.path with
              | none =>
                  left
                  simp only [metadataFromEntry, bind_apply, hopen, openFile_free h, hfirst, hseek,
                    hlast]
                  simp [Dedup.metadataFromEntry, hopen, hfirst, hseek, hlast]
                  rfl
              | some last =>
                  right
                  simp only [metadataFromEntry, bind_apply, hopen, openFile_free h, hfirst, hseek,
                    hlast]
                  simp [Dedup.metadataFromEntry, hopen, hfirst, hseek, hlast]
                  rfl

/-- `populate_sha256_if_empty` with room in the table. -/
theorem populateSha256IfEmpty_free (h : r.descriptors < limit) (env : ScanEnv)
    (fm : FileMetadata) :
    ((ScanCall.populateSha256IfEmpty env fm).Leaks ∧
      (populateSha256IfEmpty limit env fm r).1 = Dedup.populateSha256IfEmpty env fm ∧
      (populateSha256IfEmpty limit env fm r).2.descriptors = r.leakFile.descriptors) ∨
    (¬(ScanCall.populateSha256IfEmpty env fm).Leaks ∧
      populateSha256IfEmpty limit env fm r = (Dedup.populateSha256IfEmpty env fm, r)) := by
  simp only [ScanCall.Leaks]
  by_cases hsha : fm.sha256 = emptySha256
  · have hempty : shaIsEmpty fm.sha256 = true := decide_eq_true hsha
    simp only [hsha, true_and]
    simp only [populateSha256IfEmpty, Dedup.populateSha256IfEmpty, hempty, Bool.not_true,
      Bool.false_eq_true, if_false]
    cases hopen : env.openOk fm.path with
    | false =>
        right
        refine ⟨by simp, ?_⟩
        simp only [bind_apply, openFile_refused]
        rfl
    | true =>
        simp only [bind_apply, openFile_free h, Bool.not_true, Bool.false_eq_true, if_false,
          true_and]
        cases hmap : env.mmapOk fm.path with
        | false =>
            left
            exact ⟨.inl rfl, rfl, rfl⟩
        | true =>
            cases hupdate : env.updateOk fm.path with
            | false =>
                left
                exact ⟨.inr rfl, rfl, rfl⟩
            | true =>
                right
                exact ⟨by simp, rfl⟩
  · right
    have hpopulated : shaIsEmpty fm.sha256 = false := decide_eq_false hsha
    refine ⟨fun hleaks => hsha hleaks.1, ?_⟩
    simp only [populateSha256IfEmpty, Dedup.populateSha256IfEmpty, hpopulated, Bool.not_false,
      if_true]
    rfl

/-- A call with room in the table returns what it should, and leaves a descriptor open where it
leaks, and the table as it was where it does not. -/
theorem run_free (h : r.descriptors < limit) (call : ScanCall) :
    (call.run limit r).1 = call.result ∧
      ((call.Leaks ∧ (call.run limit r).2.descriptors = r.descriptors + 1) ∨
        (¬call.Leaks ∧ (call.run limit r).2 = r)) := by
  cases call with
  | metadataFromEntry env fe =>
      simp only [ScanCall.run, ScanCall.result, bind_apply]
      rcases metadataFromEntry_free h env fe with ⟨hleaks, hnone, hrun⟩ | ⟨hclean, hrun⟩
      · rw [hrun, hnone]
        exact ⟨rfl, .inl ⟨hleaks, rfl⟩⟩
      · rw [hrun]
        exact ⟨rfl, .inr ⟨hclean, rfl⟩⟩
  | populateSha256IfEmpty env fm =>
      simp only [ScanCall.run, ScanCall.result, bind_apply]
      rcases populateSha256IfEmpty_free h env fm with ⟨hleaks, hresult, hafter⟩ | ⟨hclean, hrun⟩
      · rw [← hresult]
        exact ⟨rfl, .inl ⟨hleaks, hafter⟩⟩
      · rw [hrun]
        exact ⟨rfl, .inr ⟨hclean, rfl⟩⟩

/-- A call with a full table opens nothing and leaves the table as it was. -/
theorem run_full (h : limit ≤ r.descriptors) (call : ScanCall) : (call.run limit r).2 = r := by
  cases call with
  | metadataFromEntry env fe =>
      simp only [ScanCall.run, bind_apply, metadataFromEntry, openFile_full h]
      rfl
  | populateSha256IfEmpty env fm =>
      simp only [ScanCall.run, bind_apply, populateSha256IfEmpty]
      split
      · rfl
      · simp only [bind_apply, openFile_full h]
        rfl

/-! ### Whole scans -/

theorem afterCalls_append_singleton (calls : List ScanCall) (call : ScanCall) (r : Resources) :
    afterCalls limit (calls ++ [call]) r = (call.run limit (afterCalls limit calls r)).2 := by
  simp [afterCalls, List.foldl_append]

/-- Calls of which none leaks leave the table as it was. -/
theorem afterCalls_of_clean {calls : List ScanCall}
    (clean : r.descriptors < limit → ∀ call ∈ calls, ¬call.Leaks) :
    afterCalls limit calls r = r := by
  induction calls using List.reverseRecOn with
  | nil => rfl
  | append_singleton calls call ih =>
      rw [afterCalls_append_singleton,
        ih fun hfree other hother => clean hfree other (List.mem_append_left _ hother)]
      rcases Nat.lt_or_ge r.descriptors limit with hfree | hfull
      · rcases (run_free hfree call).2 with ⟨hleaks, _⟩ | ⟨_, hsame⟩
        · exact absurd hleaks (clean hfree call (by simp))
        · exact hsame
      · exact run_full hfull call

end

/-- A scan leaves the table as it was, and is served throughout, exactly when the table is full from
the start or no call of the scan fails between opening a file and closing it. -/
theorem scan_balanced_iff (limit : Nat) (calls : List ScanCall) (r : Resources) :
    ScanBalanced limit calls r ↔ (r.descriptors < limit → ∀ call ∈ calls, ¬call.Leaks) := by
  constructor
  · intro balanced hfree call hcall hleaks
    obtain ⟨done, rest, rfl⟩ := List.append_of_mem hcall
    have hbefore := balanced.unchanged done (List.prefix_append _ _)
    have hafter := balanced.unchanged (done ++ [call]) ⟨rest, by simp⟩
    rw [afterCalls_append_singleton, hbefore] at hafter
    rcases (run_free hfree call).2 with ⟨_, hmore⟩ | ⟨hclean, _⟩
    · rw [hafter] at hmore
      omega
    · exact hclean hleaks
  · intro clean
    have hsame : ∀ done, done <+: calls → afterCalls limit done r = r := fun done hdone =>
      afterCalls_of_clean fun hfree call hcall => clean hfree call (hdone.subset hcall)
    refine ⟨hsame, fun hfree done call rest hcalls => ?_⟩
    rw [hsame done ⟨call :: rest, hcalls.symm⟩]
    exact (run_free hfree call).1

/-- One file that opens, and whose first `fgetc` then fails. -/
def unreadableCall : ScanCall :=
  .metadataFromEntry
    { contents := fun _ => [97], fopenOk := fun _ => true, firstFgetcOk := fun _ => false,
      fseekOk := fun _ => true, lastFgetcOk := fun _ => true, cloneId := fun _ => none,
      openOk := fun _ => true, mmapOk := fun _ => true, updateOk := fun _ => true,
      finalOk := fun _ => true, sha256 := fun _ => 1 }
    { path := ['a'], device := 1, inode := 2, nlink := 1, flags := 0, size := 1 }

/-- A single unreadable file leaves its descriptor open behind the three standard streams. -/
theorem unreadable_file_leaks : ¬ScanBalanced 256 [unreadableCall] ⟨3, 0⟩ := by
  intro balanced
  have hafter := balanced.unchanged [unreadableCall] (List.prefix_refl _)
  exact absurd hafter (by decide)

end Dedup.Descriptors
