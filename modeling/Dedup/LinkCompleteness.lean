/-
Module: Dedup.LinkCompleteness
Purpose: What hard-link and symbolic-link mode leave of a list of distinct files when every system
  call succeeds.  Every file that may be replaced leads to one origin, unless all files have one
  link and one clone id: then the choice of the origin returns before anything is linked.
Imports: Dedup.SymlinkSafety
Trusted boundary: none
Main exports: Eligible, DistinctFiles, NamesOrigin, LeadsToOrigin, LinksAll, Bypassed,
  linkModes_complete_iff, linkModes_bypass_clones
-/
import Dedup.SymlinkSafety

namespace Dedup

open Posix Posix.Kernel

/-- A file that may be replaced: one link and no immutable flag at the time of the scan. -/
def Eligible (fm : FileMetadata) : Prop :=
  fm.nlink ≤ 1 ∧ fm.immutable = false

/-- The records are of regular files at different entries, and a file of one link is not met
twice. -/
structure DistinctFiles (k : Kernel) (fs : FileSystem) (list : List FileMetadata) : Prop where
  file : ∀ fm ∈ list, ∃ entry, (k.ns fs).locate fm.path = some entry ∧
    fs.nodes entry = some (.file fm.inode)
  distinct : (list.map fun fm => (k.ns fs).locate fm.path).Nodup
  single : ∀ a ∈ list, ∀ b ∈ list, a.nlink ≤ 1 → a.inode = b.inode → a = b

/-- Every eligible file is a name of the inode of one member. -/
def NamesOrigin (k : Kernel) (list : List FileMetadata) (after : FileSystem) : Prop :=
  ∃ origin ∈ list, k.Names after origin.path origin.inode ∧
    ∀ fm ∈ list, Eligible fm → k.Names after fm.path origin.inode

/-- Every eligible file but one member is a symbolic link that leads to it. -/
def LeadsToOrigin (k : Kernel) (list : List FileMetadata) (after : FileSystem) : Prop :=
  ∃ origin ∈ list, ∃ home, (k.ns after).locate origin.path = some home ∧
    after.nodes home = some (.file origin.inode) ∧
      ∀ fm ∈ list, Eligible fm → fm ≠ origin → ∃ entry text,
        (k.ns after).locate fm.path = some entry ∧ after.nodes entry = some (.symlink text) ∧
          (k.ns after).locateFrom entry.dir text = some home

/-- What a mode that links should make of a list. -/
def LinksAll (k : Kernel) (opts : Options) (list : List FileMetadata) (after : FileSystem) :
    Prop :=
  match opts.replaceMode with
  | .clone => False
  | .link => NamesOrigin k list after
  | .symlink => LeadsToOrigin k list after

/-- All files have one link and one clone id, and two of them are eligible. -/
def Bypassed (list : List FileMetadata) : Prop :=
  (∀ fm ∈ list, fm.nlink ≤ 1) ∧ (∀ a ∈ list, ∀ b ∈ list, a.cloneId = b.cloneId) ∧
    ∃ a ∈ list, ∃ b ∈ list, a ≠ b ∧ Eligible a ∧ Eligible b

section

variable {k : Kernel} {opts : Options} {origin m : Member} {before fs : FileSystem}
  {home entry : Entry} {done : List Entry} {homeIno : Nat} {list : List FileMetadata}

/-! ### Hard links -/

/-- The files after a hard link to a file took the place of what stood at an entry. -/
def hardlinked (fs : FileSystem) (home entry : Entry) : FileSystem :=
  ((unlinked fs entry).tick.addLink home entry).touch entry.dir

/-- `replace_with_link` fails at one of its calls, or links the file of its source. -/
theorem replaceWithLink_cases (fs : FileSystem) (src dst : Path) :
    fs.failures < (replaceWithLink k src dst fs).2.failures ∨
    ∃ source entry ino, (k.ns fs).locate dst = some entry ∧
      k.resolve src (unlinked fs entry) = some (source, ino) ∧
      (replaceWithLink k src dst fs).2 = hardlinked fs source entry := by
  rw [replaceWithLink_eq]
  rcases unlinkThen_cases (k := k) fs dst (.link src dst) (k.findLink src dst)
      (fun found fs => (fs.addLink found.1 found.2).touch found.2.dir) with ⟨errno, _, hrun⟩ |
    ⟨entry, errno, _, _, hrun⟩ | ⟨entry, ⟨source, other⟩, hunlink, hlink, hrun⟩
  · left
    rw [link, hrun]
    exact Nat.lt_succ_self _
  · left
    rw [link, hrun]
    exact Nat.lt_succ_self _
  · rw [link, hrun]
    have hlocate := (findRemovable_eq_ok.mp (outcome_eq_ok.mp hunlink).2).1
    rcases findLink_eq_ok.mp (outcome_eq_ok.mp hlink).2 with ⟨ino, hsource, hfree, _⟩
    have hentry : other = entry := entry_of_findFree (outcome_eq_ok.mp hunlink).2 hfree
    exact .inr ⟨source, entry, ino, hlocate, hsource, by rw [hentry, hardlinked]⟩

/-- One turn of the loop in hard-link mode, as far as the files are concerned. -/
def linkTurn (k : Kernel) (opts : Options) (origin : Member) (fs : FileSystem) (m : Member) :
    FileSystem :=
  if treatment opts origin m = .replace ∧ opts.dryRun = false then
    (replaceWithLink k origin.fm.path m.fm.path fs).2
  else fs

theorem replaceMember_link (hmode : opts.replaceMode = .link) (originCloneId : Nat)
    (ctx : Context FileSystem) (m : Member) :
    (replaceMember (fsCalls k) opts origin originCloneId ctx m).world =
      linkTurn k opts origin ctx.world m := by
  rw [replaceMember_world (by simp [hmode])]
  simp only [callReplacement, hmode, fsCalls, linkTurn]

theorem failures_le_linkTurn (k : Kernel) (opts : Options) (origin : Member) (fs : FileSystem)
    (m : Member) : fs.failures ≤ (linkTurn k opts origin fs m).failures := by
  unfold linkTurn
  split
  · rcases replaceWithLink_cases (k := k) fs origin.fm.path m.fm.path with
      hfailed | ⟨_, _, _, _, _, hrun⟩
    · exact hfailed.le
    · rw [hrun]
      exact le_refl _
  · exact le_refl _

/-- The entries that were linked hold the origin's file, every other entry is as it was, and the
links to directories stand. -/
structure HardLinked (before : FileSystem) (homeIno : Nat) (done : List Entry)
    (fs : FileSystem) : Prop where
  dirLinks : fs.dirLinks = before.dirLinks
  links : ∀ entry ∈ done, fs.nodes entry = some (.file homeIno)
  others : ∀ entry ∉ done, fs.nodes entry = before.nodes entry

/-- A replacement that succeeds links the origin's file. -/
theorem HardLinked.replace (h : HardLinked before homeIno done fs) (hhome : home ∉ done)
    (hfile : before.nodes home = some (.file homeIno)) {src dst : Path}
    (hsrc : (k.ns before).locate src = some home) (hdst : (k.ns before).locate dst = some entry)
    (hne : entry ≠ home) (hentry : linkedDir (before.nodes entry) = none)
    (hsuccess : (replaceWithLink k src dst fs).2.failures = fs.failures) :
    HardLinked before homeIno (entry :: done) (replaceWithLink k src dst fs).2 := by
  rcases replaceWithLink_cases (k := k) fs src dst with
    hfailed | ⟨source, other, ino, hlocate, hresolve, hrun⟩
  · exact absurd hsuccess hfailed.ne'
  · rw [ns_congr h.dirLinks] at hlocate
    obtain rfl := Option.some.inj (hlocate.symm.trans hdst)
    have hremoved : (unlinked fs other).dirLinks = before.dirLinks :=
      (FileSystem.dirLinks_removeNode ((congrFun h.dirLinks other).trans hentry)).trans h.dirLinks
    -- the origin's entry is not the one that was unlinked
    have hnode : (unlinked fs other).nodes home = some (.file homeIno) :=
      (Function.update_of_ne hne.symm _ _).trans ((h.others home hhome).trans hfile)
    rw [resolve, ns_congr hremoved, hsrc, Option.bind_some, maxSymlinks, follow_of_file hnode]
      at hresolve
    obtain ⟨rfl, rfl⟩ := Prod.mk.inj (Option.some.inj hresolve)
    have hnodes : (hardlinked fs home other).nodes =
        Function.update (unlinked fs other).nodes other (some (.file homeIno)) := by
      rw [← hnode]
      rfl
    rw [hrun]
    constructor
    · exact (FileSystem.dirLinks_addLink (linkedDir_of_file hnode)
        (linkedDir_of_free (unlinked_nodes_self fs other))).trans hremoved
    · intro entry hentry
      rw [hnodes]
      rcases eq_or_ne entry other with rfl | hother
      · exact Function.update_self _ _ _
      · rw [Function.update_of_ne hother]
        exact (Function.update_of_ne hother _ _).trans
          (h.links entry (List.mem_of_ne_of_mem hother hentry))
    · intro entry hentry
      have hother : entry ≠ other := fun heq => hentry (heq ▸ List.mem_cons_self)
      rw [hnodes, Function.update_of_ne hother]
      exact (Function.update_of_ne hother _ _).trans
        (h.others entry fun hmem => hentry (List.mem_cons_of_mem _ hmem))

/-! ### Lists of distinct files -/

theorem DistinctFiles.eq_of_locate (files : DistinctFiles k before list) {m' : Member}
    (hm : m ∈ members list) (hm' : m' ∈ members list)
    (h : (k.ns before).locate m.fm.path = (k.ns before).locate m'.fm.path) : m = m' := by
  have hnodup := files.distinct
  rw [← map_fm_members list, List.map_map] at hnodup
  exact List.inj_on_of_nodup_map hnodup hm hm' h

/-- A replaced element is not the origin. -/
theorem index_ne_of_replaced (h : Replaced opts origin m) : m.index ≠ origin.index := by
  intro hindex
  simp [Replaced, treatment, hindex] at h

theorem DistinctFiles.originSpared (files : DistinctFiles k before list) :
    OriginSpared k before opts list := by
  rintro origin reason hselection m hm ⟨hreplaced, hlocate⟩
  obtain rfl := files.eq_of_locate hm (mem_of_selectOrigin hselection) hlocate
  exact index_ne_of_replaced hreplaced rfl

theorem DistinctFiles.replacedOnce (files : DistinctFiles k before list) :
    ReplacedOnce k before opts list := by
  rintro origin reason _ m hm m' hm' hindex ⟨_, _, entry, _, hlocate, hlocate', _⟩
  obtain rfl := files.eq_of_locate hm hm' (hlocate.trans hlocate'.symm)
  exact hindex rfl

/-- Every eligible element but the origin is replaced. -/
theorem DistinctFiles.replaced (files : DistinctFiles k before list)
    (hmode : opts.replaceMode ≠ .clone) (wet : opts.dryRun = false) (hm : m ∈ members list)
    (horigin : origin ∈ members list) (heligible : Eligible m.fm) (hne : m ≠ origin) :
    Replaced opts origin m := by
  rcases heligible with ⟨single, mutable⟩
  have hindex : m.index ≠ origin.index := fun h => hne (eq_of_index_eq hm horigin h)
  have hinode : m.fm.inode ≠ origin.fm.inode := by
    intro heq
    have hfm := files.single m.fm (mem_of_mem_members hm) origin.fm (mem_of_mem_members horigin)
      single heq
    exact hne (files.eq_of_locate hm horigin (by rw [hfm]))
  exact ⟨by simp [treatment, hindex, hmode, hinode, mutable, single], wet⟩

/-! ### Runs with an origin -/

/-- A run over distinct files in hard-link mode. -/
theorem deduplicate_hardLinked (hmode : opts.replaceMode = .link) {ctx : Context FileSystem}
    {reason : Reason} (files : DistinctFiles k ctx.world list)
    (hselection : selectOrigin (members list) = .origin origin reason)
    (horigin : (k.ns ctx.world).locate origin.fm.path = some home)
    (hfile : ctx.world.nodes home = some (.file origin.fm.inode))
    (hsuccess : (deduplicate (fsCalls k) opts list ctx).world.failures = ctx.world.failures) :
    ∃ done, home ∉ done ∧
      (∀ m ∈ members list, Replaced opts origin m →
        ∀ entry, (k.ns ctx.world).locate m.fm.path = some entry → entry ∈ done) ∧
      HardLinked ctx.world origin.fm.inode done
        (deduplicate (fsCalls k) opts list ctx).world := by
  obtain ⟨⟨hnodes, _⟩, hfailures⟩ := getCloneId_files (k := k) origin.fm.path ctx.world
  rw [deduplicate_world (replaceMember_link hmode) hselection] at hsuccess ⊢
  have hle := failures_le_turns (failures_le_linkTurn k opts origin)
    ((fsCalls k).getCloneId origin.fm.path ctx.world).2 (members list)
  have hstart : HardLinked ctx.world origin.fm.inode []
      ((fsCalls k).getCloneId origin.fm.path ctx.world).2 :=
    { dirLinks := FileSystem.dirLinks_of_nodes hnodes
      links := by simp
      others := fun entry _ => by rw [hnodes] }
  obtain ⟨done, hdone, hhome, hlinked⟩ := turns_done
    (fun done fs => home ∉ done ∧ HardLinked ctx.world origin.fm.inode done fs)
    (fun entry => entry ≠ home ∧ linkedDir (ctx.world.nodes entry) = none) (fun _ => True)
    (failures_le_linkTurn k opts origin) (fun fs m hkept => if_neg hkept)
    (fun done fs m entry h hreplaced hlocate hgood _ hturn => by
      rcases h with ⟨hhome, hlinked⟩
      rcases hgood with ⟨hne, hentry⟩
      have heq : linkTurn k opts origin fs m =
          (replaceWithLink k origin.fm.path m.fm.path fs).2 := if_pos hreplaced
      rw [heq] at hturn ⊢
      exact ⟨by simp [hhome, Ne.symm hne],
        hlinked.replace hhome hfile horigin hlocate hne hentry hturn⟩)
    ⟨by simp, hstart⟩
    (fun m hm hreplaced => by
      obtain ⟨entry, hlocate, hnode⟩ := files.file m.fm (mem_of_mem_members hm)
      refine ⟨entry, hlocate, ?_, linkedDir_of_file hnode⟩
      rintro rfl
      exact files.originSpared origin reason hselection m hm
        ⟨hreplaced, hlocate.trans horigin.symm⟩)
    (List.pairwise_of_forall fun _ _ _ _ _ _ _ => trivial)
    (by omega)
  exact ⟨done, hhome, fun m hm hreplaced entry hlocate =>
    (hdone entry).mpr ⟨m, hm, hreplaced, hlocate⟩, hlinked⟩

/-- Where there is an origin, every eligible file is linked to it. -/
theorem linksAll_of_origin (hmode : opts.replaceMode ≠ .clone) (wet : opts.dryRun = false)
    {ctx : Context FileSystem} {reason : Reason} (files : DistinctFiles k ctx.world list)
    (hselection : selectOrigin (members list) = .origin origin reason)
    (hsuccess : (deduplicate (fsCalls k) opts list ctx).world.failures = ctx.world.failures) :
    LinksAll k opts list (deduplicate (fsCalls k) opts list ctx).world := by
  have hmem := mem_of_selectOrigin hselection
  have horiginMem := mem_of_mem_members hmem
  obtain ⟨home, horigin, hfile⟩ := files.file origin.fm horiginMem
  -- an eligible record that is not the origin's is replaced, so its entry is done
  have hreplaced : ∀ fm ∈ list, Eligible fm → fm ≠ origin.fm →
      ∃ m ∈ members list, m.fm = fm ∧ Replaced opts origin m := by
    intro fm hfm heligible hne
    rcases exists_member hfm with ⟨m, hm, rfl⟩
    exact ⟨m, hm, rfl, files.replaced hmode wet hm hmem heligible fun h => hne (by rw [h])⟩
  unfold LinksAll
  cases hcase : opts.replaceMode with
  | clone => exact hmode hcase
  | link =>
      obtain ⟨done, hhome, hdone, hlinked⟩ :=
        deduplicate_hardLinked hcase files hselection horigin hfile hsuccess
      have hns := ns_congr (k := k) hlinked.dirLinks
      have hnames : k.Names (deduplicate (fsCalls k) opts list ctx).world origin.fm.path
          origin.fm.inode :=
        ⟨home, hns ▸ horigin, reaches_of_file ((hlinked.others home hhome).trans hfile)⟩
      refine ⟨origin.fm, horiginMem, hnames, fun fm hfm heligible => ?_⟩
      by_cases hsame : fm = origin.fm
      · rwa [hsame]
      · obtain ⟨m, hm, rfl, hturn⟩ := hreplaced fm hfm heligible hsame
        obtain ⟨entry, hlocate, _⟩ := files.file m.fm hfm
        have hlink := hlinked.links entry (hdone m hm hturn entry hlocate)
        exact ⟨entry, hns ▸ hlocate, reaches_of_file hlink⟩
  | symlink =>
      obtain ⟨home', homeIno, done, horigin', hfile', hhome, hdone, hlinked⟩ :=
        deduplicate_linked hcase (fun fm hfm => (files.file fm hfm).imp fun entry h =>
          ⟨fm.inode, h⟩) hselection files.originSpared files.replacedOnce hsuccess
      obtain rfl := Option.some.inj (horigin.symm.trans horigin')
      rw [← hlinked.ns] at horigin
      refine ⟨origin.fm, horiginMem, home, horigin, (hlinked.others home hhome).trans hfile,
        fun fm hfm heligible hne => ?_⟩
      obtain ⟨m, hm, rfl, hturn⟩ := hreplaced fm hfm heligible hne
      obtain ⟨entry, hlocate, _⟩ := files.file m.fm hfm
      obtain ⟨text, hnode, hleads⟩ := hlinked.links entry (hdone m hm hturn entry hlocate)
      rw [← hlinked.ns] at hlocate hleads
      exact ⟨entry, text, hlocate, hnode, hleads⟩

/-! ### Runs without an origin -/

/-- Two different files of a list are eligible. -/
def SeveralEligible (list : List FileMetadata) : Prop :=
  ∃ a ∈ list, ∃ b ∈ list, a ≠ b ∧ Eligible a ∧ Eligible b

/-- Otherwise the only eligible file, or any file, serves as the origin. -/
theorem exists_origin_of_few (hne : list ≠ []) (hfew : ¬SeveralEligible list) :
    ∃ origin ∈ list, ∀ fm ∈ list, Eligible fm → fm = origin := by
  by_cases hsome : ∃ fm ∈ list, Eligible fm
  · rcases hsome with ⟨origin, hmem, heligible⟩
    refine ⟨origin, hmem, fun fm hfm heligible' => ?_⟩
    by_contra hother
    exact hfew ⟨fm, hfm, origin, hmem, hother, heligible', heligible⟩
  · obtain ⟨origin, hmem⟩ := List.exists_mem_of_ne_nil list hne
    exact ⟨origin, hmem, fun fm hfm heligible => absurd ⟨fm, hfm, heligible⟩ hsome⟩

/-- Files of different inodes are not names of one. -/
theorem namesOrigin_unchanged_iff (hne : list ≠ []) (files : DistinctFiles k fs list) :
    NamesOrigin k list fs ↔ ¬SeveralEligible list := by
  have hself : ∀ fm ∈ list, k.Names fs fm.path fm.inode := by
    intro fm hfm
    obtain ⟨entry, hlocate, hnode⟩ := files.file fm hfm
    exact ⟨entry, hlocate, reaches_of_file hnode⟩
  constructor
  · rintro ⟨origin, _, _, hnames⟩ ⟨a, ha, b, hb, hdiffer, haEligible, hbEligible⟩
    have haInode := (hself a ha).unique (hnames a ha haEligible)
    have hbInode := (hself b hb).unique (hnames b hb hbEligible)
    exact hdiffer (files.single a ha b hb haEligible.1 (haInode.trans hbInode.symm))
  · intro hfew
    obtain ⟨origin, hmem, honly⟩ := exists_origin_of_few hne hfew
    refine ⟨origin, hmem, hself origin hmem, fun fm hfm heligible => ?_⟩
    rw [honly fm hfm heligible]
    exact hself origin hmem

/-- Regular files are no symbolic links. -/
theorem leadsToOrigin_unchanged_iff (hne : list ≠ []) (files : DistinctFiles k fs list) :
    LeadsToOrigin k list fs ↔ ¬SeveralEligible list := by
  constructor
  · rintro ⟨origin, _, home, _, _, hleads⟩ ⟨a, ha, b, hb, hdiffer, haEligible, hbEligible⟩
    -- so each eligible file would have to be the origin
    have hall : ∀ fm ∈ list, Eligible fm → fm = origin := by
      intro fm hfm heligible
      by_contra hother
      obtain ⟨entry, text, hlocate, hnode, _⟩ := hleads fm hfm heligible hother
      obtain ⟨entry', hlocate', hnode'⟩ := files.file fm hfm
      obtain rfl := Option.some.inj (hlocate.symm.trans hlocate')
      simp [hnode] at hnode'
    exact hdiffer ((hall a ha haEligible).trans (hall b hb hbEligible).symm)
  · intro hfew
    obtain ⟨origin, hmem, honly⟩ := exists_origin_of_few hne hfew
    obtain ⟨home, hlocate, hnode⟩ := files.file origin hmem
    exact ⟨origin, hmem, home, hlocate, hnode, fun fm hfm heligible hother =>
      absurd (honly fm hfm heligible) hother⟩

/-- Where nothing was done, everything is linked exactly when there is nothing to link. -/
theorem linksAll_unchanged_iff (hmode : opts.replaceMode ≠ .clone) (hne : list ≠ [])
    (files : DistinctFiles k fs list) : LinksAll k opts list fs ↔ ¬SeveralEligible list := by
  unfold LinksAll
  cases hcase : opts.replaceMode with
  | clone => exact absurd hcase hmode
  | link => exact namesOrigin_unchanged_iff hne files
  | symlink => exact leadsToOrigin_unchanged_iff hne files

end

/-- A mode that links replaces every eligible file of a list of distinct files, unless all of them
have one link and one clone id, and at least two are eligible. -/
theorem linkModes_complete_iff (k : Kernel) (opts : Options) (list : List FileMetadata)
    (ctx : Context FileSystem) (mode : opts.replaceMode ≠ .clone) (wet : opts.dryRun = false)
    (several : 2 ≤ list.length) (uncompressed : ∀ fm ∈ list, fm.compressed = false)
    (files : DistinctFiles k ctx.world list)
    (success : (deduplicate (fsCalls k) opts list ctx).world.failures = ctx.world.failures) :
    LinksAll k opts list (deduplicate (fsCalls k) opts list ctx).world ↔ ¬Bypassed list := by
  have hpossible := possibleOrigin_originRecord list
  have hne : list ≠ [] := by
    rintro rfl
    simp at several
  by_cases hselection : ∃ origin reason, selectOrigin (members list) = .origin origin reason
  · rcases hselection with ⟨origin, reason, hselection⟩
    refine iff_of_true (linksAll_of_origin mode wet files hselection success) ?_
    rintro ⟨single, same, _⟩
    have hrecord : originRecord list = some origin.fm := by
      rw [originRecord, hselection, Selection.record]
    rw [hrecord] at hpossible
    exact hpossible.not_none (.alreadyCloned single same)
  · have hselection : ∀ origin reason, selectOrigin (members list) ≠ .origin origin reason :=
      fun origin reason h => hselection ⟨origin, reason, h⟩
    have hrecord : originRecord list = none := by
      unfold originRecord
      cases hcase : selectOrigin (members list) with
      | origin origin reason => exact absurd hcase (hselection origin reason)
      | _ => rfl
    rw [deduplicate_world_of_none ctx hselection, linksAll_unchanged_iff mode hne files]
    rw [hrecord] at hpossible
    cases hpossible with
    | alreadyCloned single same =>
        exact not_congr ⟨fun h => ⟨single, same, h⟩, fun h => h.2.2⟩
    | allCompressed _ _ compressed =>
        obtain ⟨fm, hfm⟩ := List.exists_mem_of_ne_nil list hne
        have hcompressed := compressed fm hfm
        simp [uncompressed fm hfm] at hcompressed

/-- Hard-link mode without an option. -/
def linkOptions : Options :=
  { symlinkOptions with replaceMode := .link }

/-- Two equal files of a byte that are clones of each other. -/
def clonedFiles : FileSystem :=
  FileSystem.ofFiles
    [(['a'], ⟨[1], ⟨0o644, 0, 0⟩, 1, 1⟩), (['b'], ⟨[1], ⟨0o644, 0, 0⟩, 1, 1⟩)]

/-- The records of two files, as the scan finds them. -/
def scannedPair (cloneId cloneId' : Nat) : List FileMetadata :=
  [listedFile 'a' cloneId, { listedFile 'b' cloneId' with inode := 1 }]

theorem distinctFiles_scannedPair {fs : FileSystem} (cloneId cloneId' : Nat)
    (ha : fs.nodes ⟨[], ['a']⟩ = some (.file 0)) (hb : fs.nodes ⟨[], ['b']⟩ = some (.file 1)) :
    DistinctFiles soundKernel fs (scannedPair cloneId cloneId') where
  file := by
    have hlocate : (soundKernel.ns fs).locate ['/', 'a'] = some ⟨[], ['a']⟩ := rfl
    have hlocate' : (soundKernel.ns fs).locate ['/', 'b'] = some ⟨[], ['b']⟩ := rfl
    simp only [scannedPair, List.forall_mem_cons]
    exact ⟨⟨_, hlocate, ha⟩, ⟨_, hlocate', hb⟩, by simp⟩
  distinct := by
    have hlocate : (scannedPair cloneId cloneId').map
        (fun fm => (soundKernel.ns fs).locate fm.path) =
          [some ⟨[], ['a']⟩, some ⟨[], ['b']⟩] := rfl
    rw [hlocate]
    decide
  single := by
    simp [scannedPair, listedFile]

/-- Two clones of one link are both left alone, in either mode. -/
theorem linkModes_bypass_clones :
    DistinctFiles soundKernel clonedFiles (scannedPair 1 1) ∧
      (deduplicate (fsCalls soundKernel) linkOptions (scannedPair 1 1)
        (startContext clonedFiles)).world.failures = clonedFiles.failures ∧
      ¬LinksAll soundKernel linkOptions (scannedPair 1 1) (deduplicate (fsCalls soundKernel)
        linkOptions (scannedPair 1 1) (startContext clonedFiles)).world ∧
      ¬LinksAll soundKernel symlinkOptions (scannedPair 1 1) (deduplicate (fsCalls soundKernel)
        symlinkOptions (scannedPair 1 1) (startContext clonedFiles)).world := by
  have files : DistinctFiles soundKernel clonedFiles (scannedPair 1 1) :=
    distinctFiles_scannedPair 1 1 (by decide) (by decide)
  have hselection : selectOrigin (members (scannedPair 1 1)) = .alreadyCloned := by
    decide +kernel
  have hnone : ∀ origin reason,
      selectOrigin (members (scannedPair 1 1)) ≠ .origin origin reason := by
    simp [hselection]
  have htwo : SeveralEligible (scannedPair 1 1) :=
    ⟨_, List.mem_cons_self, _, List.mem_cons_of_mem _ List.mem_cons_self, by decide,
      ⟨by decide, by decide⟩, by decide, by decide⟩
  rw [deduplicate_world_of_none _ hnone, deduplicate_world_of_none _ hnone]
  refine ⟨files, rfl, ?_, ?_⟩
  · rw [startContext, linksAll_unchanged_iff (by decide) (by decide) files]
    exact not_not.mpr htwo
  · rw [startContext, linksAll_unchanged_iff (by decide) (by decide) files]
    exact not_not.mpr htwo

/-- The condition at two files of different clone ids, in hard-link mode. -/
theorem linkModes_complete_iff_scannedPair :
    LinksAll soundKernel linkOptions (scannedPair 1 2) (deduplicate (fsCalls soundKernel)
      linkOptions (scannedPair 1 2) (startContext twoFiles)).world ↔
        ¬Bypassed (scannedPair 1 2) :=
  linkModes_complete_iff soundKernel linkOptions (scannedPair 1 2) (startContext twoFiles)
    (by decide) rfl (by decide) (by decide)
    (distinctFiles_scannedPair 1 2 (by decide) (by decide)) (by decide +kernel)

end Dedup
