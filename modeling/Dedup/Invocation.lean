/-
Module: Dedup.Invocation
Purpose: The whole of `main`, from its arguments to its exit status: the option loop, the check of
  the operands, the threads that can be created, the traversal, the scan and `deduplicate`.
  Whatever the command line, the machine and the scheduler are, a process that exits with 1 has
  changed no file, and one that exits with 0 has changed entries of queued files with one link only,
  in the mode of the last `-l` or `-s`, and none under `-n`.
Imports: Dedup.CommandLine, Dedup.Posix.SameFiles, Dedup.WholeRun
Trusted boundary: human-reviewed spec of `getopt_long`, `access`, `fts_open` and `pthread_create`
Main exports: Host, checkOperands, startThreads, options, traversal, config, Scans, Ends, MayChange,
  main_footprint
-/
import Dedup.CommandLine
import Dedup.Posix.SameFiles
import Dedup.WholeRun

namespace Dedup.Invocation

open Posix Posix.Kernel Std.Do
open CriticalSections (Interleaved)
open WholeRun
open WorkQueue (Traversed SerialStep serialInit)
open LockedScan (Config Process Returned Guarded Point)

/-! ### Between the options and the traversal -/

/-- What the process finds where it is started: the processors, the terminal, whether `fts_open`
gets its memory, which threads `pthread_create` refuses, and the files. -/
structure Host where
  cpuCount : Int
  isatty : Bool
  ftsOpens : Bool
  createFails : Nat → Bool
  /-- what there is below the paths that `fts_open` is given -/
  forest : List Path → Forest
  volumes : Volumes
  env : ScanEnv

/-- `DEFAULT_PATHS`, where no operand is left. -/
def paths (operands : List Path) : List Path :=
  if operands.isEmpty then [['.']] else operands

/-- The loop over the operands, with the first one that `access` cannot find. -/
def checkOperands (k : Kernel) : List Path → Sys (Option Path)
  | [] => pure none
  | path :: rest => do
      match ← k.access path .exist with
      | .error _ => pure (some path)
      | .ok () => checkOperands k rest

/-- `thread_count` after the loop of `pthread_create`, which the first failure ends. -/
def startThreads (createFails : Nat → Bool) (threadCount : UInt8) : Nat :=
  ((List.range threadCount.toNat).takeWhile fun i => !createFails i).length

/-- The settings that `deduplicate` reads. -/
def options (s : Settings) : Options where
  replaceMode := s.replaceMode
  force := s.force
  dryRun := s.dryRun
  preserveParentMtime := s.preserveParentMtime
  verbosity := s.verbosity.toNat

/-- The settings that the traversal reads. -/
def traversal (s : Settings) : TraversalOptions where
  replaceMode := s.replaceMode
  oneFileSystem := s.oneFileSystem
  maxDepth := s.maxDepth

/-- The settings that the scan reads; no bar is shown where `stdout` is no terminal. -/
def config (host : Host) (s : Settings) : Config where
  env := host.env
  verbosity := s.verbosity.toNat
  shown := s.progress && host.isatty

/-- What the traversal finds below the operands. -/
def roots (host : Host) (operands : List Path) : Forest :=
  host.forest (paths operands)

/-- The duplicate tree that a scan with so many threads leaves. -/
inductive Scans (cfg : Config) (entries : List (Traversed FileEntry)) : Nat → DuplicateTree → Prop
  | threaded {n : Nat} (started : 0 < n) (labels : List (Option (Fin n)))
      (s : Interleaved (Option (Fin n)) Guarded (Point n)) (run : Process cfg entries labels s)
      (returned : Returned s) : Scans cfg entries n (s.shared .duplicates)
  | serial (labels : List (WorkQueue.Label 1)) (s : WorkQueue.State FileEntry 1)
      (run : Run SerialStep (serialInit entries cfg.progress) labels s)
      (stuck : ∀ label s', ¬ SerialStep s label s') :
      Scans cfg entries 0 (visitAll cfg.env s.visited).duplicates

theorem Scans.leaves {cfg : Config} {entries : List (Traversed FileEntry)} {n : Nat}
    {tree : DuplicateTree} (h : Scans cfg entries n tree) : Leaves cfg entries tree := by
  cases h with
  | threaded _ labels s run returned => exact .threaded labels s run returned
  | serial labels s run stuck => exact .serial labels s run stuck

/-- How `main` ends: its status, with the files and the totals it leaves. -/
inductive Ends (k : Kernel) (host : Host) (opts : List Opt) (operands : List Path)
    (fs : FileSystem) : Int → Context FileSystem → Prop
  | refused {status : Int}
      (parsed : (optionLoop opts (.start host.cpuCount)).2 = .error status) :
      Ends k host opts operands fs status (startContext fs)
  | missing {settings : Settings} {path : Path} {after : FileSystem}
      (parsed : (optionLoop opts (.start host.cpuCount)).2 = .ok settings)
      (checked : checkOperands k operands fs = (some path, after)) :
      Ends k host opts operands fs 1 (startContext after)
  | unopened {settings : Settings} {after : FileSystem}
      (parsed : (optionLoop opts (.start host.cpuCount)).2 = .ok settings)
      (checked : checkOperands k operands fs = (none, after)) (memory : host.ftsOpens = false) :
      Ends k host opts operands fs 1 (startContext after)
  | done {settings : Settings} {after : FileSystem} {tree : DuplicateTree}
      (parsed : (optionLoop opts (.start host.cpuCount)).2 = .ok settings)
      (checked : checkOperands k operands fs = (none, after)) (memory : host.ftsOpens = true)
      (scans : Scans (config host settings)
        (traversed (traversal settings) host.volumes (roots host operands))
        (startThreads host.createFails settings.threadCount) tree) :
      Ends k host opts operands fs 0
        (deduplicateTree k (options settings) tree (startContext after))

/-! ### The stages before the scan -/

variable {k : Kernel} {host : Host} {opts : List Opt} {operands : List Path} {fs : FileSystem}

/-- `access` changes nothing but the clock and the count of failures. -/
theorem checkOperands_files (k : Kernel) (operands : List Path) (fs : FileSystem) :
    SameFiles fs (checkOperands k operands fs).2 := by
  have hkeeps : ⦃fun fs' => ⌜SameFiles fs fs'⌝⦄ checkOperands k operands
      ⦃⇓ _ fs' => ⌜SameFiles fs fs'⌝⦄ := by
    induction operands with
    | nil => exact Triple.pure _ .rfl
    | cons path rest ih =>
        apply Triple.bind _ _ (triple_consequence (access_files path .exist fs) (fun _ h => h)
          fun _ _ h => h.1)
        intro found
        cases found with
        | error _ => exact Triple.pure _ .rfl
        | ok _ => exact ih
  exact triple_iff.mp hkeeps fs (SameFiles.refl fs)

theorem sameFiles_of_checked {found : Option Path} {after : FileSystem}
    (checked : checkOperands k operands fs = (found, after)) : SameFiles fs after := by
  have hsame := checkOperands_files k operands fs
  rw [checked] at hsame
  exact hsame

/-- The settings of a process whose options were all accepted. -/
theorem eq_told {settings : Settings}
    (parsed : (optionLoop opts (.start host.cpuCount)).2 = .ok settings) :
    settings = told opts (.start host.cpuCount) :=
  ((optionLoop_eq_ok_iff opts _ settings).mp parsed).2.symm

/-! ### What every process does -/

/-- The settings that the options tell on this machine. -/
def toldBy (host : Host) (opts : List Opt) : Settings :=
  told opts (.start host.cpuCount)

/-- An entry that the process may change: it exits with 0 and was not given `-n`, and the entry is
that of a queued file with one link and without an immutable flag, or in clone mode that of its
staging name. -/
def MayChange (k : Kernel) (before : FileSystem) (host : Host) (opts : List Opt)
    (operands : List Path) (status : Int) (entry : Entry) : Prop :=
  status = 0 ∧ given 'n' opts = false ∧
    ∃ fe ∈ (traverse (traversal (toldBy host opts)) host.volumes (roots host operands)).queue,
      fe.nlink ≤ 1 ∧ fe.flags &&& ufImmutable = 0 ∧ fe.flags &&& sfImmutable = 0 ∧
        MayTouch k before (lastGiven Opt.replaceMode opts .clone) fe.path entry

/-- Whatever the command line, the machine, the calls that fail and the scheduler: a file that was
there keeps its bytes and metadata, a file that is made has the bytes of one that was there, and
only entries change that `MayChange` tells. -/
theorem main_footprint (k : Kernel) (host : Host) (opts : List Opt) (operands : List Path)
    (fs : FileSystem) (status : Int) (ctx : Context FileSystem)
    (ends : Ends k host opts operands fs status ctx) :
    (status = 0 ∨ status = 1) ∧
      Within fs (MayChange k fs host opts operands status) ctx.world := by
  cases ends with
  | refused parsed =>
      have hstatus : status = 1 := by
        rcases optionLoop_cases opts (.start host.cpuCount) with ⟨-, hend⟩ | ⟨-, hend⟩
        · cases hend.symm.trans parsed
        · exact (Except.error.inj (hend.symm.trans parsed)).symm
      exact ⟨Or.inr hstatus, Within.refl _ _⟩
  | missing parsed checked =>
      exact ⟨Or.inr rfl, (Within.refl _ _).ofFiles (sameFiles_of_checked checked)⟩
  | unopened parsed checked memory =>
      exact ⟨Or.inr rfl, (Within.refl _ _).ofFiles (sameFiles_of_checked checked)⟩
  | @done settings after tree parsed checked memory scans =>
      obtain rfl := eq_told parsed
      have hwithin := within_of_leaves (k := k) (options (told opts (.start host.cpuCount)))
        (startContext after) scans.leaves
      refine ⟨Or.inl rfl, (hwithin.ofFiles (sameFiles_of_checked checked)).mono ?_⟩
      rintro entry ⟨hdry, fe, hfe, hlinks, hmutable, hmutable', htouch⟩
      have hwet : given 'n' opts = false := (Bool.false_or _).symm.trans hdry
      -- no option sets `force`
      have hsingle : fe.nlink ≤ 1 := hlinks.resolve_left Bool.false_ne_true
      exact ⟨rfl, hwet, fe, hfe, hsingle, hmutable, hmutable',
        (mayTouch_ofFiles (sameFiles_of_checked checked) _ _ _).mp htouch⟩

/-- A machine with one processor, and two files below every path. -/
def twoFilesHost : Host where
  cpuCount := 1
  isatty := false
  ftsOpens := true
  createFails _ := false
  forest _ := twoRoots
  volumes := twoKinds fun _ => true
  env := twoFilesConfig.env

/-- The run of `dedup -x` in a directory with two files. -/
theorem main_footprint_twoFiles :
    ∃ ctx, Ends stuckKernel twoFilesHost [⟨'x', none⟩] [] WholeRun.twoFiles 0 ctx ∧
      Within WholeRun.twoFiles
        (MayChange stuckKernel WholeRun.twoFiles twoFilesHost [⟨'x', none⟩] [] 0) ctx.world := by
  obtain ⟨labels, s, run, returned⟩ := exists_process
  have scans : Scans twoFilesConfig
      (traversed cloneOneFileSystem (twoKinds fun _ => true) twoRoots) 1 (s.shared .duplicates) :=
    .threaded Nat.one_pos labels s run returned
  have parsed : (optionLoop [⟨'x', none⟩] (.start twoFilesHost.cpuCount)).2 =
      .ok { Settings.start 1 with oneFileSystem := true } := rfl
  have ends : Ends stuckKernel twoFilesHost [⟨'x', none⟩] [] WholeRun.twoFiles 0 _ :=
    .done parsed rfl rfl scans
  exact ⟨_, ends, (main_footprint _ _ _ _ _ _ _ ends).2⟩

end Dedup.Invocation
