/-
Module: Dedup.LinkAtomicity
Purpose: What a failed hard-link or symbolic-link replacement leaves of the file it was to
  replace.  Both unlink the file first, so the name survives a failure exactly when the `unlink`
  is refused, or when nothing that comes after it fails.
Imports: Dedup.Replace
Main exports: SameName, UnlinkRefused, Outlives, LinkAccepted, SymlinkAccepted,
  linkReplacements_allOrNothing_iff, failedLink_removes_file
-/
import Dedup.Replace

namespace Dedup

open Posix Posix.Kernel

/-- A path has what it had: the same entry, the same node there and, where that is a file, the
same bytes in it. -/
def SameName (k : Kernel) (before after : FileSystem) (path : Path) : Prop :=
  ∀ entry, (k.ns before).locate path = some entry →
    (k.ns after).locate path = some entry ∧ after.nodes entry = before.nodes entry ∧
      ∀ ino, before.nodes entry = some (.file ino) →
        (after.inode ino).content = (before.inode ino).content

/-- A call that reports failure leaves the name as it was. -/
def AllOrNothing (k : Kernel) (call : Sys Int) (dst : Path) (fs : FileSystem) : Prop :=
  (call fs).1 ≠ 0 → SameName k fs (call fs).2 dst

/-- An `unlink` at a time is refused. -/
def UnlinkRefused (k : Kernel) (dst : Path) (fs : FileSystem) (time : Nat) : Prop :=
  k.fault time (.unlink dst) ≠ none ∨ ∀ entry, k.findRemovable dst fs ≠ .ok entry

/-- The entry of a path is still found there when what stands at it is gone: the path does not lead
through a link to a directory at its own entry. -/
def Outlives (k : Kernel) (dst : Path) (fs : FileSystem) (entry : Entry) : Prop :=
  (k.ns (fs.removeNode entry)).locate dst = some entry

/-- After the entry of `dst` is gone, `link` is accepted at a time: `src` leads to a file without
it, on the same volume, which may get one more name. -/
def LinkAccepted (k : Kernel) (src dst : Path) (fs : FileSystem) (time : Nat) : Prop :=
  k.fault time (.link src dst) = none ∧
    ∃ entry source ino, Outlives k dst fs entry ∧
      k.resolve src (fs.removeNode entry) = some (source, ino) ∧
        k.tree.device source.dir = k.tree.device entry.dir ∧
          (fs.inode ino).metadata.immutable = false ∧
            ((fs.removeNode entry).inode ino).nlink < k.linkMax

/-- `symlink` of a text is accepted at a time where nothing stands in its way. -/
def SymlinkAccepted (k : Kernel) (text dst : Path) (fs : FileSystem) (time : Nat) : Prop :=
  k.fault time (.symlink (some text) dst) = none ∧ text ≠ [] ∧ text.length < pathMax ∧
    ∃ entry, Outlives k dst fs entry

/-- `realpath` succeeds at a time. -/
def RealAt (k : Kernel) (path : Path) (fs : FileSystem) (time : Nat) (real : Path) : Prop :=
  k.fault time (.realpath path) = none ∧ k.findReal path fs = .ok real

/-- A symbolic-link replacement whose failures are all refusals of the `unlink`. -/
structure SymlinkGoesThrough (k : Kernel) (src dst : Path) (fs : FileSystem) : Prop where
  dstUnresolved : (∀ real, ¬ RealAt k dst fs fs.clock real) →
    UnlinkRefused k dst fs (fs.clock + 1)
  srcUnresolved : ∀ realDst, RealAt k dst fs fs.clock realDst →
    (∀ real, ¬ RealAt k src fs (fs.clock + 1) real) → UnlinkRefused k dst fs (fs.clock + 2)
  resolved : ∀ realDst realSrc, RealAt k dst fs fs.clock realDst →
    RealAt k src fs (fs.clock + 1) realSrc → UnlinkRefused k dst fs (fs.clock + 2) ∨
      SymlinkAccepted k (relativePath realDst realSrc) dst fs (fs.clock + 3)

/-! ### Unlinking first -/

section

variable {k : Kernel} {src dst : Path} {fs : FileSystem}

/-- Nothing is left of a name whose `unlink` succeeds before a failure. -/
theorem unlinkThen_allOrNothing_iff {α : Type} {call : Call}
    {find : FileSystem → Except Errno α} {effect : α → FileSystem → FileSystem} :
    AllOrNothing k (unlinkThen k dst (k.writeCall call find effect)) dst fs ↔
      UnlinkRefused k dst fs fs.clock ∨ ∃ entry found, k.findRemovable dst fs = .ok entry ∧
        k.fault (fs.clock + 1) call = none ∧ find (unlinked fs entry) = .ok found := by
  rcases unlinkThen_cases (k := k) fs dst call find effect with
    ⟨errno, hunlink, hrun⟩ | ⟨entry, errno, hunlink, hsecond, hrun⟩ |
      ⟨entry, found, hunlink, hsecond, hrun⟩
  · refine iff_of_true (fun _ => ?_) (.inl ?_)
    · rw [hrun]
      exact fun entry hlocate => ⟨hlocate, rfl, fun _ _ => rfl⟩
    · exact (outcome_eq_error hunlink).imp_right fun herror entry => by simp [herror]
  · rcases outcome_eq_ok.mp hunlink with ⟨hallowed, hremovable⟩
    refine iff_of_false (fun hsafe => ?_) ?_
    · -- the name had a node, and has none any more
      rcases findRemovable_eq_ok.mp hremovable with ⟨hlocate, _, hnode, _⟩
      rw [AllOrNothing, hrun] at hsafe
      have hsame := (hsafe (by simp) entry hlocate).2.1
      have hgone : (unlinked fs entry).tick.fail.nodes entry = none := Function.update_self _ _ _
      rw [hgone] at hsame
      simp [← hsame] at hnode
    · rintro ((hfault | hnone) | ⟨other, found, hother, hfault, hfound⟩)
      · exact hfault hallowed
      · exact hnone entry hremovable
      · obtain rfl := Except.ok.inj (hremovable.symm.trans hother)
        have hok : k.outcome call find (unlinked fs entry) = .ok found :=
          outcome_eq_ok.mpr ⟨hfault, hfound⟩
        simp [hok] at hsecond
  · rcases outcome_eq_ok.mp hunlink with ⟨_, hremovable⟩
    rcases outcome_eq_ok.mp hsecond with ⟨hfault, hfound⟩
    refine iff_of_true (fun hfailed => ?_) (.inr ⟨entry, found, hremovable, hfault, hfound⟩)
    rw [hrun] at hfailed
    exact absurd rfl hfailed

/-- An entry that is found without its node is found with it. -/
theorem Outlives.locate {entry : Entry} (h : Outlives k dst fs entry) :
    (k.ns fs).locate dst = some entry :=
  Namespace.locate_of_fewer (ns_fewer (FileSystem.fewerLinks_removeNode fs entry)) h

/-- The place of an unlinked file is free, where it is still found. -/
theorem findFree_removeNode {entry : Entry} (h : k.findRemovable dst fs = .ok entry) :
    k.findFree dst (unlinked fs entry) = .ok entry ↔ Outlives k dst fs entry := by
  rcases findRemovable_eq_ok.mp h with ⟨_, hholds, _, hdir, _⟩
  rw [findFree_eq_ok]
  exact ⟨fun hfree => hfree.1,
    fun houtlives => ⟨houtlives, hholds, Function.update_self _ _ _, hdir⟩⟩

theorem replaceWithLink_allOrNothing_iff :
    AllOrNothing k (replaceWithLink k src dst) dst fs ↔
      UnlinkRefused k dst fs fs.clock ∨ LinkAccepted k src dst fs (fs.clock + 1) := by
  rw [replaceWithLink_eq, link, unlinkThen_allOrNothing_iff]
  by_cases hrefused : UnlinkRefused k dst fs fs.clock
  · simp [hrefused]
  simp only [hrefused, false_or]
  simp only [UnlinkRefused, not_or, not_forall, not_not] at hrefused
  rcases hrefused with ⟨_, entry, hremovable⟩
  have hlocate := (findRemovable_eq_ok.mp hremovable).1
  constructor
  · rintro ⟨other, ⟨source, target⟩, hother, hfault, hfound⟩
    obtain rfl := Except.ok.inj (hremovable.symm.trans hother)
    rcases findLink_eq_ok.mp hfound with ⟨ino, hsource, htarget, hdevice, himmutable, hnlink⟩
    obtain rfl := entry_of_findFree hremovable htarget
    refine ⟨hfault, target, source, ino, (findFree_removeNode hremovable).mp htarget, hsource,
      hdevice, ?_, hnlink⟩
    rwa [← FileSystem.dropLink_metadata fs.inode (fs.nodes target)]
  · rintro ⟨hfault, other, source, ino, hother, hsource, hdevice, himmutable, hnlink⟩
    obtain rfl := Option.some.inj (hlocate.symm.trans hother.locate)
    have hfree := (findFree_removeNode hremovable).mpr hother
    refine ⟨entry, (source, entry), hremovable, hfault,
      findLink_eq_ok.mpr ⟨ino, hsource, hfree, hdevice, ?_, hnlink⟩⟩
    rwa [← FileSystem.dropLink_metadata fs.inode (fs.nodes entry)] at himmutable

/-- The end of `replace_with_symlink`, from what `path_relative_to` returned. -/
theorem replaceWithSymlink_after_path {path : Option Path} {clock failures : Nat}
    (hpath : pathRelativeTo k dst src fs =
      (path, { fs with clock := clock, failures := failures })) :
    AllOrNothing k (replaceWithSymlink k src dst) dst fs ↔
      UnlinkRefused k dst fs clock ∨
        ∃ text, path = some text ∧ SymlinkAccepted k text dst fs (clock + 1) := by
  have hrun : replaceWithSymlink k src dst fs =
      unlinkThen k dst (k.symlink path dst) { fs with clock := clock, failures := failures } := by
    rw [replaceWithSymlink_eq, bind_apply, hpath]
  have hsame : AllOrNothing k (replaceWithSymlink k src dst) dst fs ↔
      AllOrNothing k (unlinkThen k dst (k.symlink path dst)) dst
        { fs with clock := clock, failures := failures } := by
    rw [AllOrNothing, hrun]
    rfl
  rw [hsame, symlink, unlinkThen_allOrNothing_iff]
  by_cases hrefused : UnlinkRefused k dst fs clock
  · exact iff_of_true (.inl hrefused) (.inl hrefused)
  refine or_congr Iff.rfl ?_
  simp only [UnlinkRefused, not_or, not_forall, not_not] at hrefused
  rcases hrefused with ⟨_, entry, hremovable⟩
  constructor
  · rintro ⟨other, ⟨text, target⟩, hother, hfault, hfound⟩
    rcases findSymlink_eq_ok.mp hfound with ⟨rfl, hne, hlength, htarget⟩
    obtain rfl := Except.ok.inj (hremovable.symm.trans hother)
    obtain rfl := entry_of_findFree hremovable htarget
    exact ⟨text, rfl, hfault, hne, hlength, target, (findFree_removeNode hremovable).mp htarget⟩
  · rintro ⟨text, rfl, hfault, hne, hlength, other, hother⟩
    have hlocate := (findRemovable_eq_ok.mp hremovable).1
    obtain rfl := Option.some.inj (hlocate.symm.trans hother.locate)
    exact ⟨entry, (text, entry), hremovable, hfault,
      findSymlink_eq_ok.mpr ⟨rfl, hne, hlength, (findFree_removeNode hremovable).mpr hother⟩⟩

/-- No real path where the call fails. -/
theorem not_realAt_of_error {path : Path} {errno : Errno}
    (h : k.outcome (.realpath path) (k.findReal path) fs = .error errno) (real : Path) :
    ¬ RealAt k path fs fs.clock real := by
  intro hreal
  have hok := outcome_eq_ok.mpr hreal
  simp [hok] at h

theorem replaceWithSymlink_allOrNothing_iff :
    AllOrNothing k (replaceWithSymlink k src dst) dst fs ↔ SymlinkGoesThrough k src dst fs := by
  rcases pathRelativeTo_cases (k := k) fs dst src with ⟨errno, hdst, hpath⟩ |
    ⟨realDst, errno, hdst, hsrc, hpath⟩ | ⟨realDst, realSrc, hdst, hsrc, hpath⟩
  · have hnone := not_realAt_of_error hdst
    rw [replaceWithSymlink_after_path hpath]
    constructor
    · rintro (hrefused | ⟨_, hnull, _⟩)
      · exact ⟨fun _ => hrefused, fun real h => absurd h (hnone real),
          fun real _ h => absurd h (hnone real)⟩
      · simp at hnull
    · intro h
      exact .inl (h.dstUnresolved hnone)
  · have hrealDst : RealAt k dst fs fs.clock realDst := outcome_eq_ok.mp hdst
    have hnone : ∀ real, ¬ RealAt k src fs (fs.clock + 1) real := not_realAt_of_error hsrc
    rw [replaceWithSymlink_after_path hpath]
    constructor
    · rintro (hrefused | ⟨_, hnull, _⟩)
      · exact ⟨fun h => absurd hrealDst (h realDst), fun _ _ _ => hrefused,
          fun _ real _ h => absurd h (hnone real)⟩
      · simp at hnull
    · intro h
      exact .inl (h.srcUnresolved realDst hrealDst hnone)
  · have hrealDst : RealAt k dst fs fs.clock realDst := outcome_eq_ok.mp hdst
    have hrealSrc : RealAt k src fs (fs.clock + 1) realSrc := outcome_eq_ok.mp hsrc
    rw [replaceWithSymlink_after_path hpath]
    constructor
    · intro h
      refine ⟨fun hnone => absurd hrealDst (hnone realDst),
        fun _ _ hnone => absurd hrealSrc (hnone realSrc), fun real real' hreal hreal' => ?_⟩
      obtain rfl := Except.ok.inj (hreal.2.symm.trans hrealDst.2)
      obtain rfl := Except.ok.inj (hreal'.2.symm.trans hrealSrc.2)
      exact h.imp_right fun ⟨text, htext, haccepted⟩ => Option.some.inj htext ▸ haccepted
    · intro h
      exact (h.resolved realDst realSrc hrealDst hrealSrc).imp_right
        fun haccepted => ⟨_, rfl, haccepted⟩

end

/-- A hard-link replacement is all or nothing exactly where the `unlink` is refused or the `link`
after it accepted; a symbolic-link replacement exactly where no failure follows an `unlink`. -/
theorem linkReplacements_allOrNothing_iff (k : Kernel) (src dst : Path) (fs : FileSystem) :
    (AllOrNothing k (replaceWithLink k src dst) dst fs ↔
      UnlinkRefused k dst fs fs.clock ∨ LinkAccepted k src dst fs (fs.clock + 1)) ∧
    (AllOrNothing k (replaceWithSymlink k src dst) dst fs ↔ SymlinkGoesThrough k src dst fs) :=
  ⟨replaceWithLink_allOrNothing_iff, replaceWithSymlink_allOrNothing_iff⟩

/-- Two equal files, of which the first is immutable. -/
def immutableOrigin : FileSystem :=
  FileSystem.ofFiles
    [(['a'], ⟨[1], ⟨0o644, ufImmutable, 0⟩, 1, 1⟩), (['b'], ⟨[1], ⟨0o644, 0, 0⟩, 2, 1⟩)]

/-- A kernel whose `symlink` fails. -/
def fullKernel : Kernel :=
  rootKernel fun _ call =>
    match call with
    | .symlink _ _ => some .eio
    | _ => none

/-- The second file is removed, and then refused as a name of the first; and it is removed where
no symbolic link can be made afterwards. -/
theorem failedLink_removes_file :
    ¬ AllOrNothing (rootKernel fun _ _ => none)
        (replaceWithLink (rootKernel fun _ _ => none) ['/', 'a'] ['/', 'b']) ['/', 'b']
          immutableOrigin ∧
      ¬ AllOrNothing fullKernel (replaceWithSymlink fullKernel ['/', 'a'] ['/', 'b']) ['/', 'b']
          immutableOrigin := by
  constructor
  · intro hsafe
    have hnode := (hsafe (by decide) ⟨[], ['b']⟩ (by decide)).2.1
    exact absurd hnode (by decide)
  · intro hsafe
    have hnode := (hsafe (by decide +kernel) ⟨[], ['b']⟩ (by decide)).2.1
    exact absurd hnode (by decide +kernel)

end Dedup
