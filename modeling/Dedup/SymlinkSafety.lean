/-
Module: Dedup.SymlinkSafety
Purpose: Symbolic-link mode on a list that may name a file several times.  Where every call
  succeeds and the loop spares the names it should, every listed path goes on to lead to a file
  with its bytes; and the origin's own path survives exactly when no element that is replaced
  names the origin.
Imports: Dedup.RelativePath
Main exports: ListedFiles, OriginSpared, ReplacedOnce, KeepsContent, Linked,
  symlinkMode_keeps_files, symlinkMode_loses_origin
-/
import Dedup.RelativePath

namespace Dedup

open Posix Posix.Kernel Std.Do

/-! ### One replacement -/

/-- The files after a symbolic link took the place of what stood at an entry. -/
def linked (fs : FileSystem) (entry : Entry) (text : Path) : FileSystem :=
  ((unlinked fs.tick.tick entry).tick.addSymlink entry text).touch entry.dir

section

variable {k : Kernel}

/-- Nothing changes for the links to directories where the link takes the place of none. -/
theorem ns_linked {fs : FileSystem} {entry : Entry} (h : linkedDir (fs.nodes entry) = none)
    (text : Path) : k.ns (linked fs entry text) = k.ns fs := by
  have hgone : linkedDir ((unlinked fs.tick.tick entry).nodes entry) = none :=
    linkedDir_of_free (unlinked_nodes_self _ _)
  exact ns_congr ((FileSystem.dirLinks_addSymlink hgone text).trans
    (FileSystem.dirLinks_removeNode h))

/-- The end of `replace_with_symlink` fails at one of its calls, or puts the link. -/
theorem unlinkThen_symlink_cases (fs : FileSystem) (path : Option Path) (dst : Path) :
    fs.failures < (unlinkThen k dst (k.symlink path dst) fs).2.failures ∨
    ∃ text entry, path = some text ∧ k.findRemovable dst fs = .ok entry ∧
      (unlinkThen k dst (k.symlink path dst) fs).2 =
        ((unlinked fs entry).tick.addSymlink entry text).touch entry.dir := by
  rcases unlinkThen_cases (k := k) fs dst (.symlink path dst) (k.findSymlink path dst)
      (fun found fs => (fs.addSymlink found.2 found.1).touch found.2.dir) with ⟨errno, _, hrun⟩ |
    ⟨entry, errno, _, _, hrun⟩ | ⟨entry, ⟨text, other⟩, hunlink, hsymlink, hrun⟩
  · left
    rw [symlink, hrun]
    exact Nat.lt_succ_self _
  · left
    rw [symlink, hrun]
    exact Nat.lt_succ_self _
  · rw [symlink, hrun]
    rcases outcome_eq_ok.mp hunlink with ⟨_, hremovable⟩
    rcases outcome_eq_ok.mp hsymlink with ⟨_, hfound⟩
    rcases findSymlink_eq_ok.mp hfound with ⟨rfl, _, _, hfree⟩
    have hentry : other = entry := entry_of_findFree hremovable hfree
    exact .inr ⟨text, entry, rfl, hremovable, by rw [hentry]⟩

/-- `replace_with_symlink` fails at one of its calls, or links the two real paths. -/
theorem replaceWithSymlink_cases (fs : FileSystem) (src dst : Path) :
    fs.failures < (replaceWithSymlink k src dst fs).2.failures ∨
    ∃ realDst realSrc entry, k.findReal dst fs = .ok realDst ∧ k.findReal src fs = .ok realSrc ∧
      k.findRemovable dst fs = .ok entry ∧
      (replaceWithSymlink k src dst fs).2 = linked fs entry (relativePath realDst realSrc) := by
  rw [replaceWithSymlink_eq, bind_apply]
  rcases pathRelativeTo_cases (k := k) fs dst src with ⟨errno, _, hpath⟩ |
    ⟨realDst, errno, _, _, hpath⟩ | ⟨realDst, realSrc, hdst, hsrc, hpath⟩
  · rw [hpath]
    rcases unlinkThen_symlink_cases (k := k) fs.tick.fail none dst with hfailed | ⟨_, _, hnull, _⟩
    · exact .inl ((Nat.lt_succ_self _).trans hfailed)
    · simp at hnull
  · rw [hpath]
    rcases unlinkThen_symlink_cases (k := k) fs.tick.tick.fail none dst with
      hfailed | ⟨_, _, hnull, _⟩
    · exact .inl ((Nat.lt_succ_self _).trans hfailed)
    · simp at hnull
  · rw [hpath]
    rcases unlinkThen_symlink_cases (k := k) fs.tick.tick (some (relativePath realDst realSrc)) dst
      with hfailed | ⟨text, entry, htext, hremovable, hrun⟩
    · exact .inl hfailed
    · obtain rfl := Option.some.inj htext
      exact .inr ⟨realDst, realSrc, entry, (outcome_eq_ok.mp hdst).2, (outcome_eq_ok.mp hsrc).2,
        hremovable, hrun⟩

/-! ### The turns of the loop -/

/-- One turn of the loop in symbolic-link mode, as far as the files are concerned. -/
def symlinkTurn (k : Kernel) (opts : Options) (origin : Member) (fs : FileSystem) (m : Member) :
    FileSystem :=
  if treatment opts origin m = .replace ∧ opts.dryRun = false then
    (replaceWithSymlink k origin.fm.path m.fm.path fs).2
  else fs

variable {opts : Options} {origin : Member}

/-- A turn in a mode without clones calls the replacement, and nothing else that matters to the
files. -/
theorem replaceMember_world (hmode : opts.replaceMode ≠ .clone) (originCloneId : Nat)
    (ctx : Context FileSystem) (m : Member) :
    (replaceMember (fsCalls k) opts origin originCloneId ctx m).world =
      if treatment opts origin m = .replace ∧ opts.dryRun = false then
        (callReplacement (fsCalls k) opts origin.fm.path m.fm.path ctx.world).2
      else ctx.world := by
  unfold replaceMember
  cases treatment opts origin m with
  | replace =>
      cases hdry : opts.dryRun with
      | true => simp
      | false =>
          simp only [performReplacement, accountReplaced, hmode]
          simp only [Bool.false_eq_true, if_false, and_self, if_true]
          split <;> rfl
  | _ => simp

theorem replaceMember_symlink (hmode : opts.replaceMode = .symlink) (originCloneId : Nat)
    (ctx : Context FileSystem) (m : Member) :
    (replaceMember (fsCalls k) opts origin originCloneId ctx m).world =
      symlinkTurn k opts origin ctx.world m := by
  rw [replaceMember_world (by simp [hmode])]
  simp only [callReplacement, hmode, fsCalls, symlinkTurn]

/-- Turns that take no failure back do not do so together. -/
theorem failures_le_turns {turn : FileSystem → Member → FileSystem}
    (hle : ∀ fs m, fs.failures ≤ (turn fs m).failures) (fs : FileSystem) (ms : List Member) :
    fs.failures ≤ (ms.foldl turn fs).failures := by
  induction ms generalizing fs with
  | nil => exact le_refl _
  | cons m ms ih => exact (hle fs m).trans (ih _)

/-- Where no call of the turns fails, none of the first turn does. -/
theorem failures_of_turns {turn : FileSystem → Member → FileSystem}
    (hle : ∀ fs m, fs.failures ≤ (turn fs m).failures) {fs : FileSystem} {m : Member}
    {ms : List Member} (h : ((m :: ms).foldl turn fs).failures = fs.failures) :
    (turn fs m).failures = fs.failures := by
  have hfirst := hle fs m
  have hrest := failures_le_turns hle (turn fs m) ms
  rw [List.foldl_cons] at h
  omega

/-- No turn takes a failure back. -/
theorem failures_le_symlinkTurn (k : Kernel) (opts : Options) (origin : Member) (fs : FileSystem)
    (m : Member) :
    fs.failures ≤ (symlinkTurn k opts origin fs m).failures := by
  unfold symlinkTurn
  split
  · rcases replaceWithSymlink_cases (k := k) fs origin.fm.path m.fm.path with
      hfailed | ⟨_, _, _, _, _, _, hrun⟩
    · exact hfailed.le
    · rw [hrun]
      exact le_refl _
  · exact le_refl _

/-! ### The names along a run -/

/-- The origin's entry and the entries that were linked to it: every other entry is as it was, all
files have their bytes, and directories are found where they were. -/
structure Linked (k : Kernel) (before : FileSystem) (home : Entry) (done : List Entry)
    (fs : FileSystem) : Prop where
  ns : k.ns fs = k.ns before
  content : ∀ ino, (fs.inode ino).content = (before.inode ino).content
  links : ∀ entry ∈ done, ∃ text, fs.nodes entry = some (.symlink text) ∧
    (k.ns before).locateFrom entry.dir text = some home
  others : ∀ entry ∉ done, fs.nodes entry = before.nodes entry

variable {before fs : FileSystem} {home entry : Entry} {done : List Entry} {ino homeIno : Nat}

/-- A link in its place leads where it should, and nothing else is changed. -/
theorem Linked.cons (h : Linked k before home done fs) {text : Path}
    (htext : (k.ns before).locateFrom entry.dir text = some home)
    (hnode : linkedDir (fs.nodes entry) = none) :
    Linked k before home (entry :: done) (linked fs entry text) where
  ns := (ns_linked hnode text).trans h.ns
  content other := (FileSystem.dropLink_content _ _ _).trans (h.content other)
  links other hother := by
    rcases eq_or_ne other entry with rfl | hne
    · exact ⟨text, Function.update_self _ _ _, htext⟩
    · obtain ⟨link, hnode, hlocate⟩ := h.links other (List.mem_of_ne_of_mem hne hother)
      refine ⟨link, ?_, hlocate⟩
      simpa [linked, unlinked, FileSystem.addSymlink, FileSystem.touch, FileSystem.tick,
        FileSystem.removeNode, Function.update_of_ne hne] using hnode
  others other hother := by
    have hne : other ≠ entry := fun heq => hother (heq ▸ List.mem_cons_self)
    have hnode := h.others other fun hmem => hother (List.mem_cons_of_mem _ hmem)
    simpa [linked, unlinked, FileSystem.addSymlink, FileSystem.touch, FileSystem.tick,
      FileSystem.removeNode, Function.update_of_ne hne] using hnode

/-- The entry of a file becomes no link to a directory. -/
theorem Linked.no_dirLink (h : Linked k before home done fs)
    (hentry : before.nodes entry = some (.file ino)) : linkedDir (fs.nodes entry) = none := by
  by_cases hdone : entry ∈ done
  · rcases h.links entry hdone with ⟨text, hnode, _⟩
    rw [hnode]
    rfl
  · exact linkedDir_of_file ((h.others entry hdone).trans hentry)

/-- Where an entry leads along a run: to the origin if it was linked, to its own file if not. -/
theorem Linked.follow (h : Linked k before home done fs) (hhome : home ∉ done)
    (hfile : before.nodes home = some (.file homeIno)) {file : Nat}
    (hentry : before.nodes entry = some (.file file)) :
    follow (k.ns fs) fs.nodes maxSymlinks entry =
      some (if entry ∈ done then (home, homeIno) else (entry, file)) := by
  rw [h.ns]
  split
  · rename_i hdone
    rcases h.links entry hdone with ⟨text, hnode, hlocate⟩
    exact (follow_of_symlink hnode hlocate 32).trans
      (follow_of_file ((h.others home hhome).trans hfile) 31)
  · rename_i hdone
    exact follow_of_file ((h.others entry hdone).trans hentry) 32

/-- The real path of a listed file along a run. -/
theorem Linked.findReal (h : Linked k before home done fs) (hhome : home ∉ done)
    (hfile : before.nodes home = some (.file homeIno)) {path : Path}
    (hlocate : (k.ns before).locate path = some entry)
    (hentry : before.nodes entry = some (.file ino)) :
    k.findReal path fs = .ok (canonicalPath (if entry ∈ done then home else entry)) := by
  have hfollow := h.follow hhome hfile hentry
  have hresolve : k.resolve path fs =
      some (if entry ∈ done then (home, homeIno) else (entry, ino)) := by
    rw [resolve, h.ns, hlocate, Option.bind_some, ← h.ns, hfollow]
  split
  · rename_i hdone
    rw [if_pos hdone] at hresolve
    exact findReal_of_resolve hresolve
  · rename_i hdone
    rw [if_neg hdone] at hresolve
    exact findReal_of_resolve hresolve

/-- A replacement that succeeds writes the path from what its target names to the origin. -/
theorem Linked.replaced (h : Linked k before home done fs) (hhome : home ∉ done)
    (hfile : before.nodes home = some (.file homeIno)) {src dst : Path}
    (hsrc : (k.ns before).locate src = some home) (hdst : (k.ns before).locate dst = some entry)
    (hentry : before.nodes entry = some (.file ino))
    (hsuccess : (replaceWithSymlink k src dst fs).2.failures = fs.failures) :
    (replaceWithSymlink k src dst fs).2 = linked fs entry
      (relativePath (canonicalPath (if entry ∈ done then home else entry))
        (canonicalPath home)) := by
  rcases replaceWithSymlink_cases (k := k) fs src dst with
    hfailed | ⟨realDst, realSrc, found, hrealDst, hrealSrc, hremovable, hrun⟩
  · exact absurd hsuccess hfailed.ne'
  · have hlocate := (findRemovable_eq_ok.mp hremovable).1
    rw [h.ns] at hlocate
    have hfound : found = entry := Option.some.inj (hlocate.symm.trans hdst)
    have hsource := h.findReal hhome hfile hsrc hfile
    have htarget := h.findReal hhome hfile hdst hentry
    rw [if_neg hhome] at hsource
    obtain rfl := Except.ok.inj (hrealSrc.symm.trans hsource)
    obtain rfl := Except.ok.inj (hrealDst.symm.trans htarget)
    rw [hrun, hfound]

/-- A replacement that succeeds links the entry to the origin, if that was not done before, or if
the entry stands in the directory of the origin. -/
theorem Linked.replace (h : Linked k before home done fs) (hhome : home ∉ done)
    (hfile : before.nodes home = some (.file homeIno)) {src dst : Path}
    (hsrc : (k.ns before).locate src = some home) (hdst : (k.ns before).locate dst = some entry)
    (hentry : before.nodes entry = some (.file ino))
    (hagain : entry ∈ done → entry.dir = home.dir)
    (hsuccess : (replaceWithSymlink k src dst fs).2.failures = fs.failures) :
    Linked k before home (entry :: done) (replaceWithSymlink k src dst fs).2 := by
  rw [h.replaced hhome hfile hsrc hdst hentry hsuccess]
  rcases Namespace.valid_of_locate hdst with ⟨hentryDir, hentryName⟩
  rcases Namespace.valid_of_locate hsrc with ⟨hhomeDir, hhomeName⟩
  apply h.cons _ (h.no_dirLink hentry)
  split
  · rename_i hdone
    rw [hagain hdone]
    exact locateFrom_relativePath hhomeDir hhomeDir hhomeName.2.1 hhomeName
  · exact locateFrom_relativePath hentryDir hhomeDir hentryName.2.1 hhomeName

/-- A second replacement of an entry writes the bare name of the origin, which leads astray
outside of the origin's directory. -/
theorem Linked.replace_again (h : Linked k before home done fs) (hhome : home ∉ done)
    (hfile : before.nodes home = some (.file homeIno)) {src dst : Path}
    (hsrc : (k.ns before).locate src = some home) (hdst : (k.ns before).locate dst = some entry)
    (hentry : before.nodes entry = some (.file ino)) (hdone : entry ∈ done)
    (hsuccess : (replaceWithSymlink k src dst fs).2.failures = fs.failures) :
    ∃ text, (replaceWithSymlink k src dst fs).2.nodes entry = some (.symlink text) ∧
      (k.ns before).locateFrom entry.dir text = some ⟨entry.dir, home.name⟩ := by
  rw [h.replaced hhome hfile hsrc hdst hentry hsuccess, if_pos hdone]
  rcases Namespace.valid_of_locate hsrc with ⟨hdir, hname⟩
  exact ⟨_, Function.update_self _ _ _, locateFrom_relativePath_self hdir hname entry.dir⟩

/-! ### Whole runs -/

/-- The paths of the list are names of regular files, of equal content. -/
structure ListedFiles (k : Kernel) (before : FileSystem) (list : List FileMetadata) : Prop where
  file : ∀ fm ∈ list, ∃ entry ino, (k.ns before).locate fm.path = some entry ∧
    before.nodes entry = some (.file ino)
  equal : ∀ fm ∈ list, ∀ fm' ∈ list, ∀ ino ino', k.Names before fm.path ino →
    k.Names before fm'.path ino' → (before.inode ino).content = (before.inode ino').content

/-- An element is replaced in a run that is not dry. -/
def Replaced (opts : Options) (origin m : Member) : Prop :=
  treatment opts origin m = .replace ∧ opts.dryRun = false

/-- An element that is replaced names the origin. -/
def ReplacesOrigin (k : Kernel) (before : FileSystem) (opts : Options) (origin m : Member) :
    Prop :=
  Replaced opts origin m ∧
    (k.ns before).locate m.fm.path = (k.ns before).locate origin.fm.path

/-- Two elements that are replaced name one entry outside of the origin's directory. -/
def ReplacesTwice (k : Kernel) (before : FileSystem) (opts : Options) (origin m m' : Member) :
    Prop :=
  Replaced opts origin m ∧ Replaced opts origin m' ∧
    ∃ entry home, (k.ns before).locate m.fm.path = some entry ∧
      (k.ns before).locate m'.fm.path = some entry ∧
        (k.ns before).locate origin.fm.path = some home ∧ entry.dir ≠ home.dir

/-- No element that is replaced names the origin. -/
def OriginSpared (k : Kernel) (before : FileSystem) (opts : Options) (list : List FileMetadata) :
    Prop :=
  ∀ origin reason, selectOrigin (members list) = .origin origin reason →
    ∀ m ∈ members list, ¬ ReplacesOrigin k before opts origin m

/-- No entry outside of the origin's directory is replaced twice. -/
def ReplacedOnce (k : Kernel) (before : FileSystem) (opts : Options) (list : List FileMetadata) :
    Prop :=
  ∀ origin reason, selectOrigin (members list) = .origin origin reason →
    ∀ m ∈ members list, ∀ m' ∈ members list, m.index ≠ m'.index →
      ¬ ReplacesTwice k before opts origin m m'

/-- Every listed path leads to a regular file with the bytes it had. -/
def KeepsContent (k : Kernel) (before after : FileSystem) (list : List FileMetadata) : Prop :=
  ∀ fm ∈ list, ∀ ino, k.Names before fm.path ino →
    ∃ ino', k.Names after fm.path ino' ∧ (after.inode ino').content = (before.inode ino).content

/-- The turns of a run without failures: `inv` is kept for the entries that were replaced, where
each of them is `good`, and `again` if it was replaced before. -/
theorem turns_done {ns : Namespace} {turn : FileSystem → Member → FileSystem}
    (inv : List Entry → FileSystem → Prop) (good again : Entry → Prop)
    (hle : ∀ fs m, fs.failures ≤ (turn fs m).failures)
    (hskip : ∀ fs m, ¬ Replaced opts origin m → turn fs m = fs)
    (hstep : ∀ done fs m entry, inv done fs → Replaced opts origin m →
      ns.locate m.fm.path = some entry → good entry → (entry ∈ done → again entry) →
      (turn fs m).failures = fs.failures → inv (entry :: done) (turn fs m))
    {ms : List Member} (hstart : inv [] fs)
    (hnames : ∀ m ∈ ms, Replaced opts origin m →
      ∃ entry, ns.locate m.fm.path = some entry ∧ good entry)
    (honce : ms.Pairwise fun m m' => Replaced opts origin m → Replaced opts origin m' →
      ∀ entry, ns.locate m.fm.path = some entry → ns.locate m'.fm.path = some entry →
        again entry)
    (hsuccess : (ms.foldl turn fs).failures = fs.failures) :
    ∃ done, (∀ entry, entry ∈ done ↔
      ∃ m ∈ ms, Replaced opts origin m ∧ ns.locate m.fm.path = some entry) ∧
        inv done (ms.foldl turn fs) := by
  induction ms using List.reverseRecOn with
  | nil => exact ⟨[], by simp, hstart⟩
  | append_singleton ms m ih =>
      simp only [List.foldl_append, List.foldl_cons, List.foldl_nil] at hsuccess ⊢
      have hrest := failures_le_turns hle fs ms
      have hlast := hle (ms.foldl turn fs) m
      rcases List.pairwise_append.mp honce with ⟨honce, _, hlater⟩
      obtain ⟨done, hdone, hinv⟩ := ih
        (fun m' hm' => hnames m' (List.mem_append_left _ hm')) honce (by omega)
      by_cases hreplaced : Replaced opts origin m
      · obtain ⟨entry, hlocate, hgood⟩ := hnames m (by simp) hreplaced
        refine ⟨entry :: done, fun other => ?_, hstep done _ m entry hinv hreplaced hlocate hgood
          (fun hmem => ?_) (by omega)⟩
        · rw [List.mem_cons, hdone]
          constructor
          · rintro (rfl | ⟨m', hm', hboth⟩)
            · exact ⟨m, by simp, hreplaced, hlocate⟩
            · exact ⟨m', List.mem_append_left _ hm', hboth⟩
          · rintro ⟨m', hm', hreplaced', hlocate'⟩
            rcases List.mem_append.mp hm' with hm' | hm'
            · exact .inr ⟨m', hm', hreplaced', hlocate'⟩
            · obtain rfl : m' = m := by simpa using hm'
              exact .inl (Option.some.inj (hlocate'.symm.trans hlocate))
        · obtain ⟨m', hm', hreplaced', hlocate'⟩ := (hdone entry).mp hmem
          exact hlater m' hm' m (by simp) hreplaced' hreplaced entry hlocate' hlocate
      · rw [hskip _ m hreplaced]
        refine ⟨done, fun other => ?_, hinv⟩
        rw [hdone]
        constructor
        · rintro ⟨m', hm', hboth⟩
          exact ⟨m', List.mem_append_left _ hm', hboth⟩
        · rintro ⟨m', hm', hreplaced', hlocate'⟩
          rcases List.mem_append.mp hm' with hm' | hm'
          · exact ⟨m', hm', hreplaced', hlocate'⟩
          · obtain rfl : m' = m := by simpa using hm'
            exact absurd hreplaced' hreplaced

/-- A symbolic link that leads to itself. -/
def Looped (k : Kernel) (fs : FileSystem) (home : Entry) : Prop :=
  (k.ns fs).occupied home = false ∧ ∃ text, fs.nodes home = some (.symlink text) ∧
    (k.ns fs).locateFrom home.dir text = some home

theorem Looped.resolve (h : Looped k fs home) {path : Path}
    (hlocate : (k.ns fs).locate path = some home) : k.resolve path fs = none := by
  rcases h with ⟨_, text, hnode, hnext⟩
  have hfollow : ∀ fuel, follow (k.ns fs) fs.nodes fuel home = none := by
    intro fuel
    induction fuel with
    | zero => rfl
    | succ fuel ih => exact (follow_of_symlink hnode hnext fuel).trans ih
  rw [Kernel.resolve, hlocate, Option.bind_some, hfollow]

/-- Once the origin leads to itself, every further replacement fails. -/
theorem Looped.turn (h : Looped k fs home)
    (horigin : (k.ns fs).locate origin.fm.path = some home) {m : Member}
    (hsuccess : (symlinkTurn k opts origin fs m).failures = fs.failures) :
    symlinkTurn k opts origin fs m = fs := by
  by_cases hreplaced : Replaced opts origin m
  · have heq : symlinkTurn k opts origin fs m =
        (replaceWithSymlink k origin.fm.path m.fm.path fs).2 := if_pos hreplaced
    rw [heq] at hsuccess
    rcases replaceWithSymlink_cases (k := k) fs origin.fm.path m.fm.path with
      hfailed | ⟨_, realSrc, _, _, hrealSrc, _, _⟩
    · exact absurd hsuccess hfailed.ne'
    · -- the origin's path names no file any more, and no directory either
      rw [findReal, h.resolve horigin] at hrealSrc
      cases hdir : (k.ns fs).locateDir origin.fm.path with
      | none => simp [hdir] at hrealSrc
      | some dir =>
          have hoccupied := (Namespace.occupied_iff_locateDir horigin).mpr ⟨dir, hdir⟩
          simp [h.1] at hoccupied
  · exact if_neg hreplaced

theorem Looped.turns (h : Looped k fs home)
    (horigin : (k.ns fs).locate origin.fm.path = some home) {ms : List Member}
    (hsuccess : (ms.foldl (symlinkTurn k opts origin) fs).failures = fs.failures) :
    ms.foldl (symlinkTurn k opts origin) fs = fs := by
  induction ms with
  | nil => rfl
  | cons m ms ih =>
      have hturn :=
        h.turn horigin (failures_of_turns (failures_le_symlinkTurn k opts origin) hsuccess)
      rw [List.foldl_cons, hturn] at hsuccess ⊢
      exact ih hsuccess

/-- What a path names is no link to a directory. -/
def NamesNoDir (k : Kernel) (before fs : FileSystem) (path : Path) : Prop :=
  ∃ entry, (k.ns before).locate path = some entry ∧ linkedDir (fs.nodes entry) = none

/-- A turn of a member that names no link to a directory finds directories where they were. -/
theorem ns_symlinkTurn {m : Member} (hns : k.ns fs = k.ns before)
    (hm : NamesNoDir k before fs m.fm.path)
    (hsuccess : (symlinkTurn k opts origin fs m).failures = fs.failures) :
    k.ns (symlinkTurn k opts origin fs m) = k.ns before ∧
      ∀ path, NamesNoDir k before fs path →
        NamesNoDir k before (symlinkTurn k opts origin fs m) path := by
  by_cases hreplaced : Replaced opts origin m
  · have heq : symlinkTurn k opts origin fs m =
        (replaceWithSymlink k origin.fm.path m.fm.path fs).2 := if_pos hreplaced
    rw [heq] at hsuccess ⊢
    rcases replaceWithSymlink_cases (k := k) fs origin.fm.path m.fm.path with
      hfailed | ⟨_, _, found, _, _, hremovable, hrun⟩
    · exact absurd hsuccess hfailed.ne'
    · have hlocate := (findRemovable_eq_ok.mp hremovable).1
      rw [hns] at hlocate
      obtain ⟨entry, hentry, hnode⟩ := hm
      obtain rfl : entry = found := Option.some.inj (hentry.symm.trans hlocate)
      rw [hrun]
      refine ⟨(ns_linked hnode _).trans hns, ?_⟩
      rintro path ⟨other, hother, hfree⟩
      refine ⟨other, hother, ?_⟩
      rcases eq_or_ne other entry with rfl | hne
      · simp [linked, unlinked, FileSystem.addSymlink, FileSystem.touch, linkedDir]
      · simpa [linked, unlinked, FileSystem.addSymlink, FileSystem.touch, FileSystem.tick,
          FileSystem.removeNode, Function.update_of_ne hne] using hfree
  · have heq : symlinkTurn k opts origin fs m = fs := if_neg hreplaced
    rw [heq]
    exact ⟨hns, fun _ h => h⟩

/-- A turn keeps the origin's file, or turns it into a link to itself. -/
theorem home_turn (hns : k.ns fs = k.ns before) (hfile : fs.nodes home = some (.file homeIno))
    (horigin : (k.ns before).locate origin.fm.path = some home) {m : Member}
    (hsuccess : (symlinkTurn k opts origin fs m).failures = fs.failures) :
    (ReplacesOrigin k before opts origin m ∧ Looped k (symlinkTurn k opts origin fs m) home) ∨
      (¬ ReplacesOrigin k before opts origin m ∧
        (symlinkTurn k opts origin fs m).nodes home = some (.file homeIno)) := by
  rw [← hns] at horigin
  by_cases hreplaced : Replaced opts origin m
  · have heq : symlinkTurn k opts origin fs m =
        (replaceWithSymlink k origin.fm.path m.fm.path fs).2 := if_pos hreplaced
    rw [heq] at hsuccess ⊢
    rcases replaceWithSymlink_cases (k := k) fs origin.fm.path m.fm.path with
      hfailed | ⟨realDst, realSrc, entry, hrealDst, hrealSrc, hremovable, hrun⟩
    · exact absurd hsuccess hfailed.ne'
    · rcases findRemovable_eq_ok.mp hremovable with ⟨hlocate, hholds, _⟩
      rw [hrun]
      by_cases hhome : entry = home
      · subst hhome
        have hreal : ∀ path, (k.ns fs).locate path = some entry →
            k.findReal path fs = .ok (canonicalPath entry) := by
          intro path hpath
          have hresolve := resolve_of_file hpath hfile
          exact findReal_of_resolve hresolve
        obtain rfl := Except.ok.inj (hrealDst.symm.trans (hreal _ hlocate))
        obtain rfl := Except.ok.inj (hrealSrc.symm.trans (hreal _ horigin))
        rcases Namespace.valid_of_locate horigin with ⟨hdir, hname⟩
        have hnode := linkedDir_of_file hfile
        refine .inl ⟨⟨hreplaced, hns ▸ hlocate.trans horigin.symm⟩, ?_⟩
        rw [Looped, ns_linked hnode]
        exact ⟨occupied_of_free hholds hnode, _, Function.update_self _ _ _,
          locateFrom_relativePath_self hdir hname _⟩
      · refine .inr ⟨fun h => ?_, ?_⟩
        · have hsame := h.2
          rw [← hns] at hsame
          exact hhome (Option.some.inj (hlocate.symm.trans (hsame.trans horigin)))
        · simpa [linked, unlinked, FileSystem.addSymlink, FileSystem.touch, FileSystem.tick,
            FileSystem.removeNode, Function.update_of_ne (Ne.symm hhome)] using hfile
  · have heq : symlinkTurn k opts origin fs m = fs := if_neg hreplaced
    exact .inr ⟨fun h => hreplaced h.1, by rw [heq]; exact hfile⟩

/-- The turns keep the origin's file exactly when none of them replaces it. -/
theorem home_turns (opts : Options)
    (horigin : (k.ns before).locate origin.fm.path = some home) (ms : List Member) :
    ∀ fs, k.ns fs = k.ns before → (∀ m ∈ ms, NamesNoDir k before fs m.fm.path) →
      fs.nodes home = some (.file homeIno) →
      (ms.foldl (symlinkTurn k opts origin) fs).failures = fs.failures →
      k.ns (ms.foldl (symlinkTurn k opts origin) fs) = k.ns before ∧
      (((∃ m ∈ ms, ReplacesOrigin k before opts origin m) ∧
          Looped k (ms.foldl (symlinkTurn k opts origin) fs) home) ∨
        ((∀ m ∈ ms, ¬ ReplacesOrigin k before opts origin m) ∧
          (ms.foldl (symlinkTurn k opts origin) fs).nodes home = some (.file homeIno))) := by
  induction ms with
  | nil =>
      intro fs hns _ hfile _
      exact ⟨hns, .inr ⟨by simp, hfile⟩⟩
  | cons m ms ih =>
      intro fs hns hnames hfile hsuccess
      have hturn := failures_of_turns (failures_le_symlinkTurn k opts origin) hsuccess
      obtain ⟨hnext, hkeeps⟩ := ns_symlinkTurn hns (hnames m List.mem_cons_self) hturn
      rw [List.foldl_cons] at hsuccess ⊢
      rcases home_turn hns hfile horigin hturn with ⟨hreplaces, hlooped⟩ | ⟨hspared, hkept⟩
      · rw [hlooped.turns (hnext ▸ horigin) (hsuccess.trans hturn.symm)]
        exact ⟨hnext, .inl ⟨⟨m, List.mem_cons_self, hreplaces⟩, hlooped⟩⟩
      · obtain ⟨hend, hrest⟩ := ih _ hnext
          (fun m' hm' => hkeeps _ (hnames m' (List.mem_cons_of_mem _ hm'))) hkept
          (hsuccess.trans hturn.symm)
        refine ⟨hend, ?_⟩
        rcases hrest with ⟨⟨m', hm', hreplaces⟩, hlooped⟩ | ⟨hspares, hfile'⟩
        · exact .inl ⟨⟨m', List.mem_cons_of_mem _ hm', hreplaces⟩, hlooped⟩
        · exact .inr ⟨List.forall_mem_cons.mpr ⟨hspared, hspares⟩, hfile'⟩

/-- The loop starts from the files of before. -/
theorem getCloneId_files (path : Path) (fs : FileSystem) :
    (((fsCalls k).getCloneId path fs).2.nodes = fs.nodes ∧
      ((fsCalls k).getCloneId path fs).2.inode = fs.inode) ∧
      fs.failures ≤ ((fsCalls k).getCloneId path fs).2.failures :=
  triple_iff.mp (getAttribute_triple
    (fun fs' => (fs'.nodes = fs.nodes ∧ fs'.inode = fs.inode) ∧ fs.failures ≤ fs'.failures) _ path
    (fun _ h => h) fun _ h => ⟨h.1, Nat.le_succ_of_le h.2⟩) fs ⟨⟨rfl, rfl⟩, le_refl _⟩

/-- The world after a list with an origin is that of the turns. -/
theorem deduplicate_world {turn : FileSystem → Member → FileSystem}
    (hturn : ∀ originCloneId ctx m,
      (replaceMember (fsCalls k) opts origin originCloneId ctx m).world = turn ctx.world m)
    {list : List FileMetadata} {reason : Reason}
    (hselection : selectOrigin (members list) = .origin origin reason)
    (ctx : Context FileSystem) :
    (deduplicate (fsCalls k) opts list ctx).world =
      (members list).foldl turn ((fsCalls k).getCloneId origin.fm.path ctx.world).2 := by
  simp only [deduplicate, hselection, replaceMembers]
  exact (List.foldl_hom Context.world fun ctx m => (hturn _ ctx m).symm).symm

/-- Without an origin nothing happens. -/
theorem deduplicate_world_of_none {list : List FileMetadata} (ctx : Context FileSystem)
    (hselection : ∀ origin reason, selectOrigin (members list) ≠ .origin origin reason) :
    (deduplicate (fsCalls k) opts list ctx).world = ctx.world := by
  simp only [deduplicate]
  cases hcase : selectOrigin (members list) with
  | alreadyCloned => cases members list <;> rfl
  | allCompressed => rfl
  | origin origin reason => exact absurd hcase (hselection origin reason)

/-- A run over a list that spares its names. -/
theorem deduplicate_linked (hmode : opts.replaceMode = .symlink) {list : List FileMetadata}
    {ctx : Context FileSystem} {reason : Reason}
    (hfiles : ∀ fm ∈ list, ∃ entry ino, (k.ns ctx.world).locate fm.path = some entry ∧
      ctx.world.nodes entry = some (.file ino))
    (hselection : selectOrigin (members list) = .origin origin reason)
    (hspared : OriginSpared k ctx.world opts list) (honce : ReplacedOnce k ctx.world opts list)
    (hsuccess : (deduplicate (fsCalls k) opts list ctx).world.failures = ctx.world.failures) :
    ∃ home homeIno done, (k.ns ctx.world).locate origin.fm.path = some home ∧
      ctx.world.nodes home = some (.file homeIno) ∧ home ∉ done ∧
        (∀ m ∈ members list, Replaced opts origin m →
          ∀ entry, (k.ns ctx.world).locate m.fm.path = some entry → entry ∈ done) ∧
        Linked k ctx.world home done (deduplicate (fsCalls k) opts list ctx).world := by
  have hmem := mem_of_selectOrigin hselection
  obtain ⟨home, homeIno, horigin, hfile⟩ := hfiles origin.fm (mem_of_mem_members hmem)
  obtain ⟨⟨hnodes, hinode⟩, hfailures⟩ := getCloneId_files (k := k) origin.fm.path ctx.world
  rw [deduplicate_world (replaceMember_symlink hmode) hselection] at hsuccess ⊢
  have hle := failures_le_turns (failures_le_symlinkTurn k opts origin)
    ((fsCalls k).getCloneId origin.fm.path ctx.world).2 (members list)
  have hstart : Linked k ctx.world home [] ((fsCalls k).getCloneId origin.fm.path ctx.world).2 :=
    { ns := ns_of_nodes hnodes
      content := fun ino => by rw [hinode]
      links := by simp
      others := fun entry _ => by rw [hnodes] }
  obtain ⟨done, hdone, hhome, hlinked⟩ := turns_done
    (fun done fs => home ∉ done ∧ Linked k ctx.world home done fs)
    (fun entry => entry ≠ home ∧ ∃ ino, ctx.world.nodes entry = some (.file ino))
    (fun entry => entry.dir = home.dir)
    (failures_le_symlinkTurn k opts origin) (fun fs m hkept => if_neg hkept)
    (fun done fs m entry h hreplaced hlocate hgood hagain hturn => by
      rcases h with ⟨hhome, hlinked⟩
      rcases hgood with ⟨hne, ino, hentry⟩
      have heq : symlinkTurn k opts origin fs m =
          (replaceWithSymlink k origin.fm.path m.fm.path fs).2 := if_pos hreplaced
      rw [heq] at hturn ⊢
      exact ⟨by simp [hhome, Ne.symm hne],
        hlinked.replace hhome hfile horigin hlocate hentry hagain hturn⟩)
    ⟨by simp, hstart⟩
    (fun m hm hreplaced => by
      obtain ⟨entry, ino, hlocate, hentry⟩ := hfiles m.fm (mem_of_mem_members hm)
      refine ⟨entry, hlocate, ?_, ino, hentry⟩
      rintro rfl
      exact hspared origin reason hselection m hm ⟨hreplaced, hlocate.trans horigin.symm⟩)
    ((nodup_members list).pairwise_of_forall_ne fun m hm m' hm' hne hreplaced hreplaced' entry
        hlocate hlocate' => by
      by_contra hdir
      exact honce origin reason hselection m hm m' hm'
        (fun hindex => hne (eq_of_index_eq hm hm' hindex))
        ⟨hreplaced, hreplaced', entry, home, hlocate, hlocate', horigin, hdir⟩)
    (by omega)
  refine ⟨home, homeIno, done, horigin, hfile, hhome, fun m hm hreplaced entry hlocate => ?_,
    hlinked⟩
  exact (hdone entry).mpr ⟨m, hm, hreplaced, hlocate⟩

/-- The origin's path survives exactly when no element that is replaced names the origin. -/
theorem origin_survives_iff (hmode : opts.replaceMode = .symlink) {list : List FileMetadata}
    {ctx : Context FileSystem} {reason : Reason} (hlisted : ListedFiles k ctx.world list)
    (hselection : selectOrigin (members list) = .origin origin reason)
    (hsuccess : (deduplicate (fsCalls k) opts list ctx).world.failures = ctx.world.failures) :
    (∃ ino, k.Names (deduplicate (fsCalls k) opts list ctx).world origin.fm.path ino) ↔
      ∀ m ∈ members list, ¬ ReplacesOrigin k ctx.world opts origin m := by
  have hmem := mem_of_selectOrigin hselection
  obtain ⟨home, homeIno, horigin, hfile⟩ := hlisted.file origin.fm (mem_of_mem_members hmem)
  obtain ⟨⟨hnodes, _⟩, hfailures⟩ := getCloneId_files (k := k) origin.fm.path ctx.world
  rw [deduplicate_world (replaceMember_symlink hmode) hselection] at hsuccess ⊢
  have hle := failures_le_turns (failures_le_symlinkTurn k opts origin)
    ((fsCalls k).getCloneId origin.fm.path ctx.world).2 (members list)
  have hnames : ∀ m ∈ members list, NamesNoDir k ctx.world
      ((fsCalls k).getCloneId origin.fm.path ctx.world).2 m.fm.path := by
    intro m hm
    obtain ⟨entry, ino, hlocate, hentry⟩ := hlisted.file m.fm (mem_of_mem_members hm)
    refine ⟨entry, hlocate, ?_⟩
    rw [hnodes, hentry]
    rfl
  rw [← hnodes] at hfile
  obtain ⟨hns, hend⟩ := home_turns opts horigin (members list) _ (ns_of_nodes hnodes) hnames hfile
    (by omega)
  rw [← hns] at horigin
  rcases hend with ⟨⟨m, hm, hreplaces⟩, hlooped⟩ | ⟨hspared, hkept⟩
  · refine iff_of_false (fun ⟨ino, hnames⟩ => ?_) fun h => h m hm hreplaces
    rcases resolve_of_names hnames with ⟨entry, hresolve⟩
    simp [hlooped.resolve horigin] at hresolve
  · exact iff_of_true ⟨homeIno, home, horigin, reaches_of_file hkept⟩ hspared

/-- A run of symbolic-link mode whose every call succeeds keeps the bytes of every listed path, if
no element that is replaced names the origin, and no entry outside of the origin's directory is
replaced twice.  The first condition is needed, and it is exactly what the origin's path depends
on. -/
theorem symlinkMode_keeps_files (hmode : opts.replaceMode = .symlink) (list : List FileMetadata)
    (ctx : Context FileSystem) (hlisted : ListedFiles k ctx.world list)
    (hsuccess : (deduplicate (fsCalls k) opts list ctx).world.failures = ctx.world.failures) :
    (OriginSpared k ctx.world opts list → ReplacedOnce k ctx.world opts list →
      KeepsContent k ctx.world (deduplicate (fsCalls k) opts list ctx).world list) ∧
    (KeepsContent k ctx.world (deduplicate (fsCalls k) opts list ctx).world list →
      OriginSpared k ctx.world opts list) ∧
    ∀ origin reason, selectOrigin (members list) = .origin origin reason →
      ((∃ ino, k.Names (deduplicate (fsCalls k) opts list ctx).world origin.fm.path ino) ↔
        ∀ m ∈ members list, ¬ ReplacesOrigin k ctx.world opts origin m) := by
  refine ⟨fun hspared honce => ?_, fun hkeeps => ?_, fun origin reason hselection =>
    origin_survives_iff hmode hlisted hselection hsuccess⟩
  · by_cases hselection : ∃ origin reason, selectOrigin (members list) = .origin origin reason
    · rcases hselection with ⟨origin, reason, hselection⟩
      obtain ⟨home, homeIno, done, horigin, hfile, hhome, _, hlinked⟩ :=
        deduplicate_linked hmode hlisted.file hselection hspared honce hsuccess
      intro fm hfm ino hnames
      rcases hlisted.file fm hfm with ⟨entry, file, hlocate, hentry⟩
      obtain rfl := hnames.unique ⟨entry, hlocate, reaches_of_file hentry⟩
      have hfollow := hlinked.follow hhome hfile hentry
      rw [← hlinked.ns] at hlocate
      by_cases hdone : entry ∈ done
      · rw [if_pos hdone] at hfollow
        refine ⟨homeIno, ⟨entry, hlocate, home, hfollow⟩, ?_⟩
        rw [hlinked.content]
        exact hlisted.equal origin.fm (mem_of_mem_members (mem_of_selectOrigin hselection)) fm hfm
          homeIno ino ⟨home, horigin, reaches_of_file hfile⟩ hnames
      · rw [if_neg hdone] at hfollow
        exact ⟨ino, ⟨entry, hlocate, entry, hfollow⟩, hlinked.content ino⟩
    · rw [deduplicate_world_of_none ctx fun origin reason h => hselection ⟨origin, reason, h⟩]
      exact fun fm _ ino hnames => ⟨ino, hnames, rfl⟩
  · intro origin reason hselection
    rw [← origin_survives_iff hmode hlisted hselection hsuccess]
    have hfm := mem_of_mem_members (mem_of_selectOrigin hselection)
    rcases hlisted.file origin.fm hfm with ⟨home, homeIno, horigin, hfile⟩
    obtain ⟨ino', hnames, _⟩ :=
      hkeeps origin.fm hfm homeIno ⟨home, horigin, reaches_of_file hfile⟩
    exact ⟨ino', hnames⟩

end

/-- Symbolic-link mode without an option. -/
def symlinkOptions : Options where
  replaceMode := .symlink
  force := false
  dryRun := false
  preserveParentMtime := false
  verbosity := 0

/-- Two equal files of a byte. -/
def twoFiles : FileSystem :=
  FileSystem.ofFiles
    [(['a'], ⟨[1], ⟨0o644, 0, 0⟩, 1, 1⟩), (['b'], ⟨[1], ⟨0o644, 0, 0⟩, 2, 1⟩)]

/-- A kernel without faults. -/
def soundKernel : Kernel :=
  rootKernel fun _ _ => none

/-- The records of a scan that met the first file twice. -/
def repeatedList : List FileMetadata :=
  [listedFile 'a' 1, listedFile 'b' 2, listedFile 'a' 1]

/-- A file with some content stands at an entry. -/
def holdsAt (fs : FileSystem) (content : List UInt8) (entry : Entry) : Bool :=
  match fs.nodes entry with
  | some (.file ino) => (fs.inode ino).content = content
  | _ => false

/-- Paths are listed files where their entries hold files of one content. -/
theorem listedFiles_of_found {k : Kernel} {before : FileSystem} {list : List FileMetadata}
    (content : List UInt8)
    (h : ∀ fm ∈ list, ((k.ns before).locate fm.path).any (holdsAt before content) = true) :
    ListedFiles k before list := by
  have hfound : ∀ fm ∈ list, ∃ entry ino, (k.ns before).locate fm.path = some entry ∧
      before.nodes entry = some (.file ino) ∧ (before.inode ino).content = content := by
    intro fm hfm
    obtain ⟨entry, hlocate, hholds⟩ := Option.any_eq_true _ _ |>.mp (h fm hfm)
    unfold holdsAt at hholds
    split at hholds
    · rename_i ino hnode
      exact ⟨entry, ino, hlocate, hnode, by simpa using hholds⟩
    · simp at hholds
  constructor
  · intro fm hfm
    rcases hfound fm hfm with ⟨entry, ino, hlocate, hnode, _⟩
    exact ⟨entry, ino, hlocate, hnode⟩
  · intro fm hfm fm' hfm' ino ino' hnames hnames'
    rcases hfound fm hfm with ⟨entry, file, hlocate, hnode, hcontent⟩
    rcases hfound fm' hfm' with ⟨entry', file', hlocate', hnode', hcontent'⟩
    obtain rfl := hnames.unique ⟨entry, hlocate, reaches_of_file hnode⟩
    obtain rfl := hnames'.unique ⟨entry', hlocate', reaches_of_file hnode'⟩
    exact hcontent.trans hcontent'.symm

/-- The file that is listed twice is chosen as the origin, replaced by a link to itself, and lost:
with it the only copy of the content, although no call failed. -/
theorem symlinkMode_loses_origin :
    ListedFiles soundKernel twoFiles repeatedList ∧
      (deduplicate (fsCalls soundKernel) symlinkOptions repeatedList
        (startContext twoFiles)).world.failures = twoFiles.failures ∧
      ¬ KeepsContent soundKernel twoFiles (deduplicate (fsCalls soundKernel) symlinkOptions
        repeatedList (startContext twoFiles)).world repeatedList := by
  refine ⟨listedFiles_of_found [1] (by decide), by decide +kernel, fun hkeeps => ?_⟩
  have hnames : soundKernel.Names twoFiles ['/', 'a'] 0 :=
    ⟨⟨[], ['a']⟩, by decide, reaches_of_file (by decide)⟩
  obtain ⟨ino, hnames', _⟩ := hkeeps (listedFile 'a' 1) (by simp [repeatedList]) 0 hnames
  rcases resolve_of_names hnames' with ⟨entry, hresolve⟩
  have hgone : soundKernel.resolve ['/', 'a'] (deduplicate (fsCalls soundKernel) symlinkOptions
      repeatedList (startContext twoFiles)).world = none := by
    decide +kernel
  exact absurd (hgone.symm.trans hresolve) (by simp)

/-- The records of a scan that met each file once. -/
def twoList : List FileMetadata :=
  [listedFile 'a' 1, listedFile 'b' 2]

theorem selectOrigin_twoList :
    selectOrigin (members twoList) = .origin ⟨0, listedFile 'a' 1⟩ .firstSeen := by
  decide

/-- In a single directory nothing is replaced outside of the origin's. -/
theorem replacedOnce_rootKernel (fault : Nat → Call → Option Errno) (before : FileSystem)
    (opts : Options) (list : List FileMetadata) :
    ReplacedOnce (rootKernel fault) before opts list := by
  rintro origin reason _ m _ m' _ _ ⟨_, _, entry, home, hlocate, _, horigin, hdir⟩
  have hroot : ∀ {path entry}, ((rootKernel fault).ns before).locate path = some entry →
      entry.dir = [] :=
    fun h => of_decide_eq_true (Namespace.valid_of_locate h).1
  exact hdir ((hroot hlocate).trans (hroot horigin).symm)

/-- The run at two files keeps both. -/
theorem symlinkMode_keeps_files_twoList :
    KeepsContent soundKernel twoFiles (deduplicate (fsCalls soundKernel) symlinkOptions twoList
      (startContext twoFiles)).world twoList := by
  have hlisted : ListedFiles soundKernel twoFiles twoList :=
    listedFiles_of_found [1] (by decide)
  have hspared : OriginSpared soundKernel twoFiles symlinkOptions twoList := by
    intro origin reason hselection
    obtain ⟨rfl, rfl⟩ := Selection.origin.inj (selectOrigin_twoList.symm.trans hselection)
    simp only [ReplacesOrigin, Replaced]
    decide
  exact (symlinkMode_keeps_files rfl twoList (startContext twoFiles) hlisted
    (by decide +kernel)).1 hspared (replacedOnce_rootKernel _ _ _ _)

end Dedup
