/-
Module: Dedup.FailedCloneIds
Purpose: What a failed read of a clone id does to `deduplicate`.  `get_clone_id` reports 0 for a
  file whose attribute it cannot read, and the choice of the origin and the replacement loop take
  that 0 for a clone id, so files that were not read count as clones of each other.  What counts
  so is what every run reports as saved already.
Imports: Dedup.DryRun, Dedup.SavingsReport
Trusted boundary: none
Main exports: RecordedIds, countedAsCloned, CountsClonesOnly, ZeroConflated, deduplicate_skips,
  countsClonesOnly_iff, reported_clones, unread_pair_counted
-/
import Dedup.DryRun
import Dedup.SavingsReport

namespace Dedup

/-- The clone ids of a list as the scan recorded them: that of the file, or 0 where it could not be
read. -/
def RecordedIds (trueId : Path → Nat) (list : List FileMetadata) : Prop :=
  ∀ fm ∈ list, fm.cloneId = trueId fm.path ∨ fm.cloneId = 0

/-- The origin of a list and the elements that a call counts as cloned from it: all others where
`deduplicate` returns early, and those that its loop skips as hard-linked or as cloned. -/
def countedAsCloned (opts : Options) (list : List FileMetadata) : Option (Member × List Member) :=
  match selectOrigin (members list), members list with
  | .alreadyCloned, origin :: others => some (origin, others)
  | .origin origin _, ms => some (origin, counted opts origin ms)
  | _, _ => none

/-- The files that a line names as saved already. -/
def Report.skipped : Report → List Path
  | .alreadyClonedTo _ others => others
  | .skippingHardlinked path | .skippingAlreadyCloned path => [path]
  | _ => []

/-- The files that some lines name as saved already. -/
def skippedPaths (reports : List Report) : List Path :=
  reports.flatMap Report.skipped

/-- What counts as cloned has the clone id of the origin, or is hard-linked itself. -/
def CountsClonesOnly (trueId : Path → Nat) (opts : Options) (list : List FileMetadata) : Prop :=
  ∀ origin others, countedAsCloned opts list = some (origin, others) →
    ∀ m ∈ others, trueId m.fm.path = trueId origin.fm.path ∨ 1 < m.fm.nlink

/-- Files of different clone ids that were recorded as 0: the first file of most hard links and one
of a single link; or two files among single links of which no clone id was recorded more often
than 0. -/
def ZeroConflated (trueId : Path → Nat) (list : List FileMetadata) : Prop :=
  (∃ origin, FirstOfMostLinks list origin ∧ origin.cloneId = 0 ∧
    ∃ fm ∈ list, fm.nlink ≤ 1 ∧ fm.cloneId = 0 ∧ trueId fm.path ≠ trueId origin.path) ∨
  ((∀ fm ∈ list, fm.nlink ≤ 1) ∧
    (∀ fm ∈ list, cloneCount list fm.cloneId ≤ cloneCount list 0) ∧
    ∃ a ∈ list, ∃ b ∈ list, a.cloneId = 0 ∧ b.cloneId = 0 ∧ trueId a.path ≠ trueId b.path)

section

variable {trueId : Path → Nat} {opts : Options} {list : List FileMetadata}

/-! ### What is counted -/

/-- What a run has reported as saved already once its loop went through the elements `ms`. -/
structure SkipsDone {W : Type} (opts : Options) (origin : Member) (before after : Context W)
    (ms : List Member) : Prop where
  named : skippedPaths after.reports =
    skippedPaths before.reports ++ (counted opts origin ms).map fun m => m.fm.path
  alreadySaved : before.alreadySaved + ((counted opts origin ms).map fun m => m.fm.size).sum ≤
    after.alreadySaved

@[simp] theorem skippedPaths_append (reports lines : List Report) :
    skippedPaths (reports ++ lines) = skippedPaths reports ++ skippedPaths lines :=
  List.flatMap_append ..

@[simp] theorem skippedPaths_report {W : Type} (ctx : Context W) (line : Report) :
    skippedPaths (ctx.report line).reports = skippedPaths ctx.reports ++ line.skipped := by
  simp [Context.report, skippedPaths]

/-- A replacement names no file as saved already, and takes nothing off the total. -/
theorem performReplacement_skips {W : Type} (calls : Calls W) (opts : Options) (origin : Member)
    (originCloneId : Nat) (fm : FileMetadata) (ctx : Context W) :
    skippedPaths (performReplacement calls opts origin originCloneId fm ctx).reports =
        skippedPaths ctx.reports ∧
      ctx.alreadySaved ≤ (performReplacement calls opts origin originCloneId fm ctx).alreadySaved := by
  unfold performReplacement
  simp only
  split
  · exact ⟨by simp [Report.skipped], Nat.le_refl _⟩
  · unfold accountReplaced
    split
    · simp only
      split
      · split
        · exact ⟨by simp [Report.skipped, Context.addAlreadySaved], Nat.le_add_right _ _⟩
        · exact ⟨by simp [Report.skipped], Nat.le_refl _⟩
      · exact ⟨by simp [Report.skipped, Context.addSaved], Nat.le_refl _⟩
    · exact ⟨by simp [Report.skipped, Context.addSaved], Nat.le_refl _⟩

/-- One turn of the loop. -/
theorem SkipsDone.step {W : Type} {origin : Member} {before after : Context W} {ms : List Member}
    (h : SkipsDone opts origin before after ms) (calls : Calls W) (originCloneId : Nat)
    (m : Member) :
    SkipsDone opts origin before (replaceMember calls opts origin originCloneId after m)
      (ms ++ [m]) := by
  have happend : counted opts origin (ms ++ [m]) =
      counted opts origin ms ++ counted opts origin [m] := List.filter_append ..
  -- what the turn itself reports
  have hturn : skippedPaths (replaceMember calls opts origin originCloneId after m).reports =
        skippedPaths after.reports ++ (counted opts origin [m]).map (fun m => m.fm.path) ∧
      after.alreadySaved + ((counted opts origin [m]).map fun m => m.fm.size).sum ≤
        (replaceMember calls opts origin originCloneId after m).alreadySaved := by
    unfold replaceMember
    cases htreatment : treatment opts origin m with
    | isOrigin => simp [counted, htreatment]
    | skipHardlinked => simp [counted, htreatment, Report.skipped, Context.addAlreadySaved]
    | skipAlreadyCloned => simp [counted, htreatment, Report.skipped, Context.addAlreadySaved]
    | skipImmutable => simp [counted, htreatment, Report.skipped]
    | replace =>
        have hnone : counted opts origin [m] = [] := by simp [counted, htreatment]
        rw [hnone]
        simp only
        split
        · simp [Report.skipped, Context.addSaved]
        · simpa using performReplacement_skips calls opts origin originCloneId m.fm after
  constructor
  · rw [hturn.1, h.named, happend, List.map_append, List.append_assoc]
  · rw [happend, List.map_append, List.sum_append]
    have hbefore := h.alreadySaved
    omega

/-- The whole loop. -/
theorem replaceMembers_skips {W : Type} (calls : Calls W) (opts : Options) (origin : Member)
    (ms : List Member) (ctx : Context W) :
    SkipsDone opts origin ctx (replaceMembers calls opts ms origin ctx) ms := by
  induction ms using List.reverseRecOn with
  | nil => exact ⟨by simp [replaceMembers, counted], by simp [replaceMembers, counted]⟩
  | append_singleton ms m ih =>
      rw [replaceMembers_append_singleton]
      exact ih.step calls _ m

/-- The lines about the choice name no file as saved already, unless all are clones. -/
theorem skippedPaths_selectionReports (opts : Options) (ms : List Member) (selection : Selection)
    (h : selection ≠ .alreadyCloned) : skippedPaths (selectionReports opts ms selection) = [] := by
  have hcompressed : ∀ ms : List Member,
      skippedPaths (ms.map fun m => Report.foundCompressed m.fm.path) = [] := by
    intro ms
    simp [skippedPaths, List.flatMap_map, Report.skipped]
  cases selection with
  | alreadyCloned => exact absurd rfl h
  | allCompressed =>
      rw [selectionReports, skippedPaths_append]
      have hall : skippedPaths (if opts.verbosity > 0 then
          [Report.allCompressed (ms.map fun m => m.fm.path)] else []) = [] := by
        split <;> rfl
      rw [hall, List.append_nil]
      split
      · exact hcompressed ms
      · rfl
  | origin origin reason =>
      cases reason with
      | firstSeen =>
          simp only [selectionReports]
          split
          · exact hcompressed _
          · rfl
      | mostHardlinks => rfl
      | mostClones => rfl

/-- Every run over files of one size names exactly the elements that count as cloned, if it is
verbose, and adds at least their sizes to `already_saved`. -/
theorem deduplicate_skips {W : Type} (calls : Calls W) (opts : Options) {size : Nat}
    (uniform : ∀ fm ∈ list, fm.size = size) (ctx : Context W) :
    (0 < opts.verbosity → skippedPaths (deduplicate calls opts list ctx).reports =
        skippedPaths ctx.reports ++
          ((countedAsCloned opts list).elim [] Prod.snd).map fun m => m.fm.path) ∧
      ctx.alreadySaved + size * ((countedAsCloned opts list).elim [] Prod.snd).length ≤
        (deduplicate calls opts list ctx).alreadySaved := by
  have hsizes : ∀ ms : List Member, (∀ m ∈ ms, m ∈ members list) →
      (ms.map fun m => m.fm.size).sum = size * ms.length := by
    intro ms hms
    rw [List.map_congr_left fun m hm => uniform m.fm (mem_of_mem_members (hms m hm)),
      List.map_const', List.sum_replicate, smul_eq_mul, mul_comm]
  cases hselection : selectOrigin (members list) with
  | allCompressed =>
      have hnone : countedAsCloned opts list = none := by simp [countedAsCloned, hselection]
      have hlines := skippedPaths_selectionReports opts (members list) .allCompressed (by simp)
      simp [deduplicate, hselection, hnone, hlines]
  | origin origin reason =>
      have hsome : countedAsCloned opts list =
          some (origin, counted opts origin (members list)) := by
        simp [countedAsCloned, hselection]
      have hlines := skippedPaths_selectionReports opts (members list) (.origin origin reason)
        (by simp)
      have hdone := replaceMembers_skips calls opts origin (members list)
        (loopStart opts list origin reason ctx)
      rw [deduplicate_of_selection calls hselection, hsome]
      constructor
      · intro _
        rw [hdone.named]
        simp [loopStart, hlines, Report.skipped]
      · have hsum := hsizes (counted opts origin (members list)) fun m hm =>
          List.mem_of_mem_filter hm
        rw [Option.elim_some, ← hsum]
        exact hdone.alreadySaved
  | alreadyCloned =>
      cases hms : members list with
      | nil =>
          have hselection' : selectOrigin [] = .alreadyCloned := hms ▸ hselection
          simp [deduplicate, countedAsCloned, hselection', hms, selectionReports, skippedPaths]
      | cons first rest =>
          have hfirst : first ∈ members list := hms ▸ List.mem_cons_self
          have hsize := uniform first.fm (mem_of_mem_members hfirst)
          have hselection' : selectOrigin (first :: rest) = .alreadyCloned := hms ▸ hselection
          have hsome : countedAsCloned opts list = some (first, rest) := by
            simp [countedAsCloned, hselection', hms]
          rw [hsome]
          constructor
          · intro hverbose
            simp [deduplicate, hselection', hms, selectionReports, hverbose, skippedPaths,
              Report.skipped, Context.addAlreadySaved]
          · simp [deduplicate, hselection', hms, hsize]

/-- Different clone ids that were recorded as one were recorded as 0. -/
theorem RecordedIds.zero_of_same (recorded : RecordedIds trueId list) {a b : FileMetadata}
    (ha : a ∈ list) (hb : b ∈ list) (same : a.cloneId = b.cloneId)
    (differ : trueId a.path ≠ trueId b.path) : a.cloneId = 0 ∧ b.cloneId = 0 := by
  rcases recorded a ha with hread | hzero
  · rcases recorded b hb with hread' | hzero'
    · exact absurd (hread.symm.trans (same.trans hread')) differ
    · exact ⟨same.trans hzero', hzero'⟩
  · exact ⟨hzero, same.symm.trans hzero⟩

/-- Two records of one clone id are counted. -/
theorem two_le_cloneCount {a b : FileMetadata} (ha : a ∈ list) (hb : b ∈ list) (hne : a ≠ b)
    (same : a.cloneId = b.cloneId) : 2 ≤ cloneCount list a.cloneId := by
  have hsub : [a, b].Subperm (list.filter fun fm => fm.cloneId = a.cloneId) := by
    apply List.Nodup.subperm (by simpa using hne)
    intro fm hfm
    rcases List.mem_cons.mp hfm with rfl | hfm
    · exact List.mem_filter.mpr ⟨ha, by simp⟩
    · obtain rfl := List.mem_singleton.mp hfm
      exact List.mem_filter.mpr ⟨hb, by simp [same]⟩
  rw [cloneCount, List.countP_eq_length_filter]
  exact hsub.length_le

/-- A single-link element of the origin's recorded clone id is the origin or counts as cloned. -/
theorem CountsClonesOnly.trueId_eq (h : CountsClonesOnly trueId opts list)
    (mode : opts.replaceMode = .clone) {origin : Member} {reason : Reason}
    (hselection : selectOrigin (members list) = .origin origin reason) {fm : FileMetadata}
    (hfm : fm ∈ list) (single : fm.nlink ≤ 1) (same : fm.cloneId = origin.fm.cloneId) :
    trueId fm.path = trueId origin.fm.path := by
  rcases exists_member hfm with ⟨m, hm, rfl⟩
  by_cases hindex : m.index = origin.index
  · rw [eq_of_index_eq hm (mem_of_selectOrigin hselection) hindex]
  · have hcounted : m ∈ counted opts origin (members list) := by
      apply List.mem_filter.mpr
      refine ⟨hm, decide_eq_true ?_⟩
      rw [treatment_counted_iff mode]
      exact ⟨hindex, by simp [Counted, same]⟩
    rcases h origin _ (by rw [countedAsCloned, hselection]) m hcounted with heq | hlinked
    · exact heq
    · omega

/-- An early return takes all single-link files for clones of the first one. -/
theorem CountsClonesOnly.trueId_of_early (h : CountsClonesOnly trueId opts list)
    (hselection : selectOrigin (members list) = .alreadyCloned)
    (single : ∀ fm ∈ list, fm.nlink ≤ 1) {a b : FileMetadata} (ha : a ∈ list) (hb : b ∈ list) :
    trueId a.path = trueId b.path := by
  cases hms : members list with
  | nil =>
      rcases exists_member ha with ⟨m, hm, _⟩
      simp [hms] at hm
  | cons origin others =>
      have hall : ∀ fm ∈ list, trueId fm.path = trueId origin.fm.path := by
        intro fm hfm
        rcases exists_member hfm with ⟨m, hm, rfl⟩
        rw [hms] at hm
        rcases List.mem_cons.mp hm with rfl | hm
        · rfl
        · have hsome : countedAsCloned opts list = some (origin, others) := by
            rw [countedAsCloned, hselection, hms]
          rcases h origin others hsome m hm with heq | hlinked
          · exact heq
          · have hle := single m.fm hfm
            omega
      exact (hall a ha).trans (hall b hb).symm

/-- An origin of single links was recorded as 0 where 0 was recorded at least twice, and no clone id
more often. -/
theorem origin_zero_of_most {origin : Member} {reason : Reason}
    (hselection : selectOrigin (members list) = .origin origin reason)
    (single : ∀ fm ∈ list, fm.nlink ≤ 1)
    (most : ∀ fm ∈ list, cloneCount list fm.cloneId ≤ cloneCount list 0)
    (htwice : 2 ≤ cloneCount list 0) {a : FileMetadata} (ha : a ∈ list) (hzero : a.cloneId = 0) :
    origin.fm.cloneId = 0 := by
  have hchosen := selectOrigin_chosen (members list)
  rw [hselection] at hchosen
  cases hchosen with
  | mostHardlinks _ mem linked =>
      have hle := single origin.fm (mem_of_mem_members mem)
      omega
  | firstSeen _ _ distinct =>
      rw [map_cloneId_members] at distinct
      have hle := cloneCount_le_one distinct 0
      omega
  | mostClones _ _ _ _ _ most' =>
      -- 0 occurs as often as the id chosen, which is the smallest of those
      have hmem := mem_of_mem_members (mem_of_selectOrigin hselection)
      have hle := most origin.fm hmem
      rcases exists_member ha with ⟨m, hm, rfl⟩
      have hbest := most' m hm
      simp only [idCount_members, hzero] at hbest
      omega

/-- Where files are conflated, one that is no clone counts as cloned. -/
theorem not_zeroConflated (h : CountsClonesOnly trueId opts list)
    (mode : opts.replaceMode = .clone) : ¬ZeroConflated trueId list := by
  rintro (⟨origin, hlinks, hzero, fm, hfm, single, hzero', differ⟩ |
    ⟨single, most, a, ha, b, hb, hzero, hzero', differ⟩)
  · obtain ⟨m, reason, hselection, rfl⟩ := exists_selection hlinks.originRecord_eq
    exact differ (h.trueId_eq mode hselection hfm single (hzero'.trans hzero.symm))
  · have htwice : 2 ≤ cloneCount list 0 := by
      have hne : a ≠ b := fun heq => differ (heq ▸ rfl)
      simpa [hzero] using two_le_cloneCount ha hb hne (hzero.trans hzero'.symm)
    cases hselection : selectOrigin (members list) with
    | alreadyCloned => exact differ (h.trueId_of_early hselection single ha hb)
    | allCompressed =>
        have hchosen := selectOrigin_chosen (members list)
        rw [hselection] at hchosen
        cases hchosen with
        | allCompressed _ distinct =>
            rw [map_cloneId_members] at distinct
            have hle := cloneCount_le_one distinct 0
            omega
    | origin origin reason =>
        have hid := origin_zero_of_most hselection single most htwice ha hzero
        have ha' := h.trueId_eq mode hselection ha (single a ha) (hzero.trans hid.symm)
        have hb' := h.trueId_eq mode hselection hb (single b hb) (hzero'.trans hid.symm)
        exact differ (ha'.trans hb'.symm)

/-- Elements count as cloned by the early return, or by the tests of the loop. -/
theorem countedAsCloned_cases {origin : Member} {others : List Member}
    (h : countedAsCloned opts list = some (origin, others)) :
    (selectOrigin (members list) = .alreadyCloned ∧ members list = origin :: others) ∨
      ∃ reason, selectOrigin (members list) = .origin origin reason ∧
        others = counted opts origin (members list) := by
  unfold countedAsCloned at h
  cases hselection : selectOrigin (members list) with
  | alreadyCloned =>
      cases hms : members list with
      | nil =>
          rw [hselection, hms] at h
          simp at h
      | cons first rest =>
          rw [hselection, hms] at h
          obtain ⟨rfl, rfl⟩ := Prod.mk.inj (Option.some.inj h)
          exact .inl ⟨rfl, rfl⟩
  | allCompressed => simp [hselection] at h
  | origin first reason =>
      rw [hselection] at h
      obtain ⟨rfl, rfl⟩ := Prod.mk.inj (Option.some.inj h)
      exact .inr ⟨reason, rfl, rfl⟩

/-- The origin and what counts as cloned are of the list. -/
theorem mem_of_countedAsCloned {origin : Member} {others : List Member}
    (h : countedAsCloned opts list = some (origin, others)) :
    origin.fm ∈ list ∧ ∀ m ∈ others, m.fm ∈ list := by
  rcases countedAsCloned_cases h with ⟨_, hms⟩ | ⟨reason, hselection, rfl⟩
  · have hmem : ∀ m ∈ origin :: others, m.fm ∈ list := by
      intro m hm
      rw [← hms] at hm
      exact mem_of_mem_members hm
    exact ⟨hmem origin List.mem_cons_self, fun m hm => hmem m (List.mem_cons_of_mem _ hm)⟩
  · exact ⟨mem_of_mem_members (mem_of_selectOrigin hselection),
      fun m hm => mem_of_mem_members (List.mem_of_mem_filter hm)⟩

/-- A single-link element that counts as cloned has the recorded clone id of the origin. -/
theorem sameId_of_counted (mode : opts.replaceMode = .clone) {origin : Member}
    {others : List Member} (h : countedAsCloned opts list = some (origin, others)) {m : Member}
    (hm : m ∈ others) (single : m.fm.nlink ≤ 1) :
    origin.fm ∈ list ∧ m.fm ∈ list ∧ m.fm.cloneId = origin.fm.cloneId := by
  obtain ⟨horigin, hothers⟩ := mem_of_countedAsCloned h
  refine ⟨horigin, hothers m hm, ?_⟩
  rcases countedAsCloned_cases h with ⟨hselection, hms⟩ | ⟨reason, hselection, rfl⟩
  · have hchosen := selectOrigin_chosen (members list)
    rw [hselection, hms] at hchosen
    cases hchosen with
    | alreadyCloned _ same =>
        exact same m (List.mem_cons_of_mem _ hm) origin List.mem_cons_self
  · rcases List.mem_filter.mp hm with ⟨_, htreatment⟩
    have hcounted := ((treatment_counted_iff mode).mp (of_decide_eq_true htreatment)).2
    simpa [Counted, Nat.not_lt.mpr single] using hcounted

/-- Among single links, no recorded id is more frequent than that of the origin, where another file
has it. -/
theorem count_le_of_shared (single : ∀ fm ∈ list, fm.nlink ≤ 1) {origin : Member}
    {others : List Member} (h : countedAsCloned opts list = some (origin, others))
    (several : 2 ≤ cloneCount list origin.fm.cloneId) :
    ∀ fm ∈ list, cloneCount list fm.cloneId ≤ cloneCount list origin.fm.cloneId := by
  have hchosen := selectOrigin_chosen (members list)
  rcases countedAsCloned_cases h with ⟨hselection, hms⟩ | ⟨reason, hselection, _⟩
  · rw [hselection] at hchosen
    cases hchosen with
    | alreadyCloned _ same =>
        intro fm hfm
        rcases exists_member hfm with ⟨m, hm, rfl⟩
        rw [same m hm origin (hms ▸ List.mem_cons_self)]
  · rw [hselection] at hchosen
    cases hchosen with
    | mostHardlinks _ mem linked =>
        have hle := single origin.fm (mem_of_mem_members mem)
        omega
    | firstSeen _ _ distinct =>
        rw [map_cloneId_members] at distinct
        have hle := cloneCount_le_one distinct origin.fm.cloneId
        omega
    | mostClones _ _ _ _ _ most =>
        intro fm hfm
        rcases exists_member hfm with ⟨m, hm, rfl⟩
        have hbest := most m hm
        simp only [idCount_members] at hbest
        omega

/-- Where no files are conflated, what counts as cloned is a clone. -/
theorem countsClonesOnly_of_not_conflated (mode : opts.replaceMode = .clone)
    (recorded : RecordedIds trueId list) (h : ¬ZeroConflated trueId list) :
    CountsClonesOnly trueId opts list := by
  intro origin others hcounted m hm
  by_contra hwrong
  push Not at hwrong
  rcases hwrong with ⟨differ, single⟩
  obtain ⟨horigin, hmem, same⟩ := sameId_of_counted mode hcounted hm single
  obtain ⟨hzero, hzero'⟩ := recorded.zero_of_same hmem horigin same differ
  have hne : m.fm ≠ origin.fm := fun heq => differ (heq ▸ rfl)
  by_cases hsingle : ∀ fm ∈ list, fm.nlink ≤ 1
  · have several := two_le_cloneCount horigin hmem hne.symm same.symm
    have most := count_le_of_shared hsingle hcounted several
    rw [hzero'] at most
    exact h (.inr ⟨hsingle, most, m.fm, hmem, origin.fm, horigin, hzero, hzero', differ⟩)
  · push Not at hsingle
    rcases hsingle with ⟨fm, hfm, linked⟩
    obtain ⟨first, hfirst⟩ := exists_firstOfMostLinks hfm linked
    obtain ⟨chosen, reason, hselection, rfl⟩ := exists_selection hfirst.originRecord_eq
    have hchosen : chosen = origin := by
      rw [countedAsCloned, hselection] at hcounted
      exact (Prod.mk.inj (Option.some.inj hcounted)).1
    obtain rfl := hchosen
    exact h (.inl ⟨chosen.fm, hfirst, hzero', m.fm, hmem, single, hzero, differ⟩)

end

/-- In clone mode only clones of the origin and hard-linked files count as cloned, whichever reads
of clone ids failed, exactly when no files of different clone ids are conflated at 0. -/
theorem countsClonesOnly_iff (trueId : Path → Nat) (opts : Options)
    (mode : opts.replaceMode = .clone) (list : List FileMetadata)
    (recorded : RecordedIds trueId list) :
    CountsClonesOnly trueId opts list ↔ ¬ZeroConflated trueId list :=
  ⟨fun h => not_zeroConflated h mode, countsClonesOnly_of_not_conflated mode recorded⟩

/-- Where no files are conflated, what a verbose run reports as saved already are clones of one file
of the list and hard-linked files, and their sizes are in the total. -/
theorem reported_clones {W : Type} (calls : Calls W) {trueId : Path → Nat} {opts : Options}
    (mode : opts.replaceMode = .clone) (verbose : 0 < opts.verbosity) {list : List FileMetadata}
    (recorded : RecordedIds trueId list) (clear : ¬ZeroConflated trueId list) {size : Nat}
    (uniform : ∀ fm ∈ list, fm.size = size) (ctx : Context W) :
    skippedPaths (deduplicate calls opts list ctx).reports = skippedPaths ctx.reports ∨
      ∃ origin ∈ list, ∃ others : List FileMetadata,
        (∀ fm ∈ others, fm ∈ list ∧
          (trueId fm.path = trueId origin.path ∨ 1 < fm.nlink)) ∧
        skippedPaths (deduplicate calls opts list ctx).reports =
          skippedPaths ctx.reports ++ others.map FileMetadata.path ∧
        ctx.alreadySaved + size * others.length ≤ (deduplicate calls opts list ctx).alreadySaved := by
  obtain ⟨hnamed, htotal⟩ := deduplicate_skips calls opts uniform ctx
  have hnamed := hnamed verbose
  cases hcounted : countedAsCloned opts list with
  | none => exact .inl (by simpa [hcounted] using hnamed)
  | some found =>
      rcases found with ⟨origin, others⟩
      have hclones := countsClonesOnly_of_not_conflated mode recorded clear origin others hcounted
      obtain ⟨horigin, hothers⟩ := mem_of_countedAsCloned hcounted
      refine .inr ⟨origin.fm, horigin, others.map Member.fm, ?_, ?_, ?_⟩
      · intro fm hfm
        rcases List.mem_map.mp hfm with ⟨m, hm, rfl⟩
        exact ⟨hothers m hm, hclones m hm⟩
      · simpa [hcounted, Function.comp_def] using hnamed
      · simpa [hcounted] using htotal

/-- Two files of different clone ids, of which none was read. -/
def unreadPair : List FileMetadata :=
  [setFile 'a' 1 0, setFile 'b' 1 0]

/-- The clone ids of `unreadPair`. -/
def unreadPairIds (path : Path) : Nat :=
  if path = ['a'] then 1 else 2

theorem recordedIds_unreadPair : RecordedIds unreadPairIds unreadPair :=
  fun fm hfm => .inr (by revert fm; decide)

/-- Both files count as one clone: nothing is replaced, and one is reported as saved. -/
theorem unread_pair_counted :
    RecordedIds unreadPairIds unreadPair ∧
      (deduplicate idealCalls plainOptions unreadPair (startVolume unreadPairIds)).world.calls = [] ∧
      (deduplicate idealCalls plainOptions unreadPair
        (startVolume unreadPairIds)).alreadySaved = 1 ∧
      ¬CountsClonesOnly unreadPairIds plainOptions unreadPair := by
  refine ⟨recordedIds_unreadPair, by decide, by decide, fun h => ?_⟩
  have hwrong := h ⟨0, setFile 'a' 1 0⟩ [⟨1, setFile 'b' 1 0⟩] (by decide) _ List.mem_cons_self
  exact absurd hwrong (by decide)

/-- The condition at the two files. -/
theorem countsClonesOnly_iff_unreadPair :
    CountsClonesOnly unreadPairIds plainOptions unreadPair ↔
      ¬ZeroConflated unreadPairIds unreadPair :=
  countsClonesOnly_iff unreadPairIds plainOptions rfl unreadPair recordedIds_unreadPair

end Dedup
