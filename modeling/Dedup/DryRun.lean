/-
Module: Dedup.DryRun
Purpose: The dry run and the real run.  Both choose the same origins and treat every element alike,
  because they decide by the records alone; a dry run calls no replacement, names the files that
  the real run would replace, and ends with the totals of a real run whose replacements succeed.
Imports: Dedup.SecondRun
Main exports: Calls.recording, namedPaths, planned, Succeeds, ListSucceeds, AllSucceed,
  dryRun_predicts, allSucceed_ideal
-/
import Dedup.SecondRun

namespace Dedup

/-! ### What a run calls and names -/

/-- The calls over a world that also records, in order, which replacements were called. -/
def Calls.recording {W : Type} (calls : Calls W) : Calls (W × List (Path × Path)) where
  getCloneId path w :=
    let (id, world) := calls.getCloneId path w.1
    (id, world, w.2)
  privateSize path w :=
    let (size, world) := calls.privateSize path w.1
    (size, world, w.2)
  replaceWithClone src dst preserve w :=
    let (result, world) := calls.replaceWithClone src dst preserve w.1
    (result, world, w.2 ++ [(src, dst)])
  replaceWithLink src dst w :=
    let (result, world) := calls.replaceWithLink src dst w.1
    (result, world, w.2 ++ [(src, dst)])
  replaceWithSymlink src dst w :=
    let (result, world) := calls.replaceWithSymlink src dst w.1
    (result, world, w.2 ++ [(src, dst)])

/-- The path that a line `cloning to` names. -/
def Report.named : Report → Option Path
  | .cloningTo path => some path
  | _ => none

/-- The paths that the lines `cloning to` name. -/
def namedPaths (reports : List Report) : List Path :=
  reports.filterMap Report.named

/-- The options of a dry run, or of a real one. -/
def Options.withDryRun (opts : Options) (dryRun : Bool) : Options :=
  { opts with dryRun := dryRun }

/-- A context with nothing printed and nothing called yet. -/
def Context.recorded {W : Type} (ctx : Context W) : Context (W × List (Path × Path)) where
  saved := ctx.saved
  alreadySaved := ctx.alreadySaved
  reports := []
  world := (ctx.world, [])

/-- The files on which a run over the lists calls a replacement, in order. -/
def calledPaths {W : Type} (calls : Calls W) (opts : Options) (lists : List (List FileMetadata))
    (ctx : Context W) : List Path :=
  (deduplicateAll calls.recording opts lists ctx.recorded).world.2.map Prod.snd

/-- The records that a run over a list replaces, or would replace. -/
def planned (opts : Options) (list : List FileMetadata) : List FileMetadata :=
  match selectOrigin (members list) with
  | .origin origin _ => (replaced opts origin (members list)).map Member.fm
  | _ => []

/-- What a run over a list counts as saved already. -/
def plannedAlready (opts : Options) (list : List FileMetadata) : Nat :=
  match selectOrigin (members list) with
  | .origin origin _ => ((counted opts origin (members list)).map fun m => m.fm.size).sum
  | .alreadyCloned => alreadyClonedSize list
  | .allCompressed => 0

/-! ### Runs whose replacements succeed -/

section

variable {W : Type}

/-- A replacement in some world returns 0 and, in clone mode, the file that it left has the clone
id of the origin. -/
def Succeeds (calls : Calls W) (opts : Options) (src : Path) (originCloneId : Nat) (dst : Path)
    (world : W) : Prop :=
  (callReplacement calls opts src dst world).1 = 0 ∧
    (opts.replaceMode = .clone →
      (calls.getCloneId dst (callReplacement calls opts src dst world).2).1 = originCloneId)

/-- Every replacement of the loop succeeds in the world that the turns before it leave. -/
def LoopSucceeds (calls : Calls W) (opts : Options) (origin : Member) (ms : List Member)
    (ctx : Context W) : Prop :=
  ∀ earlier m later, ms = earlier ++ m :: later → treatment opts origin m = .replace →
    Succeeds calls opts origin.fm.path (calls.getCloneId origin.fm.path ctx.world).1 m.fm.path
      (replaceMembers calls opts earlier origin ctx).world

/-- Every replacement of a list succeeds. -/
def ListSucceeds (calls : Calls W) (opts : Options) (list : List FileMetadata)
    (ctx : Context W) : Prop :=
  ∀ origin reason, selectOrigin (members list) = .origin origin reason →
    LoopSucceeds calls opts origin (members list) (loopStart opts list origin reason ctx)

/-- Every replacement of a run succeeds. -/
def AllSucceed (calls : Calls W) (opts : Options) (lists : List (List FileMetadata))
    (ctx : Context W) : Prop :=
  ∀ earlier list later, lists = earlier ++ list :: later →
    ListSucceeds calls opts list (deduplicateAll calls opts earlier ctx)

end

/-! ### One list -/

section

variable {W : Type} {calls : Calls W} {opts : Options} {origin : Member}

@[simp] theorem treatment_withDryRun (dryRun : Bool) (m : Member) :
    treatment (opts.withDryRun dryRun) origin m = treatment opts origin m := rfl

@[simp] theorem namedPaths_report (ctx : Context W) (line : Report) :
    namedPaths (ctx.report line).reports = namedPaths ctx.reports ++ line.named.toList := by
  cases hnamed : line.named <;> simp [namedPaths, Context.report, hnamed]

theorem named_selectionReports (opts : Options) (ms : List Member) (selection : Selection) :
    namedPaths (selectionReports opts ms selection) = [] := by
  apply List.filterMap_eq_nil_iff.mpr
  intro line hline
  cases selection with
  | alreadyCloned =>
      cases ms with
      | nil => simp [selectionReports] at hline
      | cons first rest =>
          simp only [selectionReports] at hline
          split at hline
          · obtain rfl := List.mem_singleton.mp hline
            rfl
          · simp at hline
  | allCompressed =>
      rcases List.mem_append.mp hline with hline | hline
      · split at hline
        · rcases List.mem_map.mp hline with ⟨m, _, rfl⟩
          rfl
        · simp at hline
      · split at hline
        · obtain rfl := List.mem_singleton.mp hline
          rfl
        · simp at hline
  | origin origin reason =>
      cases reason with
      | firstSeen =>
          simp only [selectionReports] at hline
          split at hline
          · rcases List.mem_map.mp hline with ⟨m, _, rfl⟩
            rfl
          · simp at hline
      | mostHardlinks => simp [selectionReports] at hline
      | mostClones => simp [selectionReports] at hline

/-- What a loop has done to the totals once it went through the elements `ms`, if nothing that it
replaced failed. -/
structure TotalsDone (opts : Options) (origin : Member) (before after : Context W)
    (ms : List Member) : Prop where
  saved : after.saved = before.saved + ((replaced opts origin ms).map fun m => m.fm.size).sum
  alreadySaved : after.alreadySaved =
    before.alreadySaved + ((counted opts origin ms).map fun m => m.fm.size).sum

theorem TotalsDone.nil (opts : Options) (origin : Member) (ctx : Context W) :
    TotalsDone opts origin ctx ctx [] :=
  ⟨by simp [replaced], by simp [counted]⟩

/-- One element more. -/
theorem TotalsDone.snoc {before after next : Context W} {ms : List Member}
    (h : TotalsDone opts origin before after ms) {m : Member}
    (hturn : TotalsDone opts origin after next [m]) :
    TotalsDone opts origin before next (ms ++ [m]) := by
  have hreplaced : replaced opts origin (ms ++ [m]) =
      replaced opts origin ms ++ replaced opts origin [m] := List.filter_append ..
  have hcounted : counted opts origin (ms ++ [m]) =
      counted opts origin ms ++ counted opts origin [m] := List.filter_append ..
  constructor
  · rw [hturn.saved, h.saved, hreplaced, List.map_append, List.sum_append, add_assoc]
  · rw [hturn.alreadySaved, h.alreadySaved, hcounted, List.map_append, List.sum_append, add_assoc]

/-- A turn that replaces nothing counts alike in both runs. -/
theorem totalsDone_skip (calls : Calls W) (originCloneId : Nat) (ctx : Context W) {m : Member}
    (hkept : treatment opts origin m ≠ .replace) :
    TotalsDone opts origin ctx (replaceMember calls opts origin originCloneId ctx m) [m] ∧
      (replaceMember calls opts origin originCloneId ctx m).world = ctx.world ∧
      namedPaths (replaceMember calls opts origin originCloneId ctx m).reports =
        namedPaths ctx.reports := by
  have hreplaced : replaced opts origin [m] = [] := by simp [replaced, hkept]
  unfold replaceMember
  cases htreatment : treatment opts origin m with
  | isOrigin =>
      refine ⟨⟨?_, ?_⟩, rfl, rfl⟩
      · simp [hreplaced]
      · simp [counted, htreatment]
  | skipHardlinked =>
      refine ⟨⟨?_, ?_⟩, rfl, by simp [Context.addAlreadySaved, Report.named]⟩
      · simp [hreplaced]
      · simp [counted, htreatment]
  | skipAlreadyCloned =>
      refine ⟨⟨?_, ?_⟩, rfl, by simp [Context.addAlreadySaved, Report.named]⟩
      · simp [hreplaced]
      · simp [counted, htreatment]
  | skipImmutable =>
      refine ⟨⟨?_, ?_⟩, rfl, by simp [Report.named]⟩
      · simp [hreplaced]
      · simp [counted, htreatment]
  | replace => exact absurd htreatment hkept

/-- What a dry loop has done: it named the files to replace, and left the world alone. -/
structure DryDone (opts : Options) (origin : Member) (before after : Context W)
    (ms : List Member) : Prop where
  world : after.world = before.world
  named : namedPaths after.reports =
    namedPaths before.reports ++ (replaced opts origin ms).map fun m => m.fm.path
  totals : TotalsDone opts origin before after ms

/-- One turn of a dry loop. -/
theorem DryDone.step (hdry : opts.dryRun = true) (originCloneId : Nat)
    {before after : Context W} {ms : List Member} (h : DryDone opts origin before after ms)
    (m : Member) :
    DryDone opts origin before (replaceMember calls opts origin originCloneId after m)
      (ms ++ [m]) := by
  have happend : replaced opts origin (ms ++ [m]) =
      replaced opts origin ms ++ replaced opts origin [m] := List.filter_append ..
  by_cases hreplace : treatment opts origin m = .replace
  · have hone : replaced opts origin [m] = [m] := by simp [replaced, hreplace]
    have hturn : replaceMember calls opts origin originCloneId after m =
        (after.report (.cloningTo m.fm.path)).addSaved m.fm.size := by
      simp [replaceMember, hreplace, hdry]
    have htotals : TotalsDone opts origin after
        (replaceMember calls opts origin originCloneId after m) [m] := by
      constructor
      · simp [hturn, hone]
      · simp [hturn, counted, hreplace]
    refine ⟨?_, ?_, h.totals.snoc htotals⟩
    · rw [hturn]
      exact h.world
    · rw [hturn, happend, hone]
      simp [Context.addSaved, Report.named, h.named]
  · obtain ⟨htotals, hworld, hnamed⟩ := totalsDone_skip calls originCloneId after hreplace
    refine ⟨hworld.trans h.world, ?_, h.totals.snoc htotals⟩
    have hone : replaced opts origin [m] = [] := by simp [replaced, hreplace]
    rw [hnamed, h.named, happend, hone, List.append_nil]

/-- A whole dry loop, from a world that its one read leaves. -/
theorem replaceMembers_dry (hdry : opts.dryRun = true) (calls : Calls W) (origin : Member)
    (ms : List Member) (ctx : Context W) :
    DryDone opts origin { ctx with world := (calls.getCloneId origin.fm.path ctx.world).2 }
      (replaceMembers calls opts ms origin ctx) ms := by
  induction ms using List.reverseRecOn with
  | nil => exact ⟨rfl, by simp [replaceMembers, replaced], TotalsDone.nil opts origin _⟩
  | append_singleton ms m ih =>
      rw [replaceMembers_append_singleton]
      exact ih.step hdry _ m

/-- A successful replacement counts as saved. -/
theorem performReplacement_of_succeeds {originCloneId : Nat} {fm : FileMetadata}
    {ctx : Context W}
    (h : Succeeds calls opts origin.fm.path originCloneId fm.path ctx.world) :
    (performReplacement calls opts origin originCloneId fm ctx).saved = ctx.saved + fm.size ∧
      (performReplacement calls opts origin originCloneId fm ctx).alreadySaved =
        ctx.alreadySaved := by
  rcases h with ⟨hresult, hcloneId⟩
  simp only [performReplacement, hresult, ne_eq, not_true_eq_false, if_false, accountReplaced]
  by_cases hmode : opts.replaceMode = .clone
  · simp [hmode, hcloneId hmode]
  · simp [hmode]

/-- A whole real loop whose replacements succeed. -/
theorem replaceMembers_totals (hwet : opts.dryRun = false) (ms : List Member) (ctx : Context W)
    (hsucceeds : LoopSucceeds calls opts origin ms ctx) :
    TotalsDone opts origin ctx (replaceMembers calls opts ms origin ctx) ms := by
  induction ms using List.reverseRecOn with
  | nil => exact ⟨by simp [replaceMembers, replaced], by simp [replaceMembers, counted]⟩
  | append_singleton ms m ih =>
      have hbefore : LoopSucceeds calls opts origin ms ctx := by
        intro earlier m' later hms hreplace
        exact hsucceeds earlier m' (later ++ [m]) (by simp [hms]) hreplace
      rw [replaceMembers_append_singleton]
      apply (ih hbefore).snoc
      by_cases hreplace : treatment opts origin m = .replace
      · obtain ⟨hsaved, halready⟩ := performReplacement_of_succeeds (hsucceeds ms m [] rfl hreplace)
        constructor
        · simp [replaceMember, hreplace, hwet, hsaved, replaced]
        · simp [replaceMember, hreplace, hwet, halready, counted]
      · exact (totalsDone_skip calls _ _ hreplace).1

end

/-! ### The recorded calls -/

section

variable {W : Type} (calls : Calls W) {opts : Options} {origin : Member}

theorem recording_callReplacement (opts : Options) (src dst : Path)
    (w : W × List (Path × Path)) :
    (callReplacement calls.recording opts src dst w).2.2 = w.2 ++ [(src, dst)] := by
  unfold callReplacement
  cases opts.replaceMode <;> rfl

theorem recording_accountReplaced (originCloneId : Nat) (fm : FileMetadata)
    (ctx : Context (W × List (Path × Path))) :
    (accountReplaced calls.recording opts originCloneId fm ctx).world.2 = ctx.world.2 := by
  unfold accountReplaced
  split
  · simp only
    split
    · split <;> rfl
    · rfl
  · rfl

/-- A real loop calls exactly the replacements of the elements to replace, in order. -/
theorem replaceMembers_recorded (hwet : opts.dryRun = false) (ms : List Member)
    (ctx : Context (W × List (Path × Path))) :
    (replaceMembers calls.recording opts ms origin ctx).world.2 = ctx.world.2 ++
      (replaced opts origin ms).map fun m => (origin.fm.path, m.fm.path) := by
  induction ms using List.reverseRecOn with
  | nil => simp [replaceMembers, Calls.recording, replaced]
  | append_singleton ms m ih =>
      have happend : replaced opts origin (ms ++ [m]) =
          replaced opts origin ms ++ replaced opts origin [m] := List.filter_append ..
      rw [replaceMembers_append_singleton, happend, List.map_append, ← List.append_assoc, ← ih]
      by_cases hreplace : treatment opts origin m = .replace
      · have hone : replaced opts origin [m] = [m] := by simp [replaced, hreplace]
        simp only [replaceMember, hreplace, hwet, Bool.false_eq_true, if_false,
          performReplacement, hone, List.map_cons, List.map_nil]
        split
        · exact recording_callReplacement calls opts _ _ _
        · rw [recording_accountReplaced]
          exact recording_callReplacement calls opts _ _ _
      · have hone : replaced opts origin [m] = [] := by simp [replaced, hreplace]
        rw [(totalsDone_skip calls.recording _ _ hreplace).2.1, hone, List.map_nil,
          List.append_nil]

end

/-! ### Whole runs -/

section

variable {W : Type} {calls : Calls W} {opts : Options}

/-- What a run over a list adds to the totals, if nothing that it replaced failed. -/
structure ListTotals (opts : Options) (list : List FileMetadata) (before after : Context W) :
    Prop where
  saved : after.saved = before.saved + totalSize (planned opts list)
  alreadySaved : after.alreadySaved = before.alreadySaved + plannedAlready opts list

/-- The totals of a list with an origin are those of its loop. -/
theorem ListTotals.of_loop {list : List FileMetadata} {origin : Member} {reason : Reason}
    (hselection : selectOrigin (members list) = .origin origin reason)
    {before start after : Context W} (h : TotalsDone opts origin start after (members list))
    (hsaved : start.saved = before.saved) (halready : start.alreadySaved = before.alreadySaved) :
    ListTotals opts list before after := by
  constructor
  · rw [h.saved, hsaved, planned, hselection, totalSize, List.map_map]
    rfl
  · rw [h.alreadySaved, halready, plannedAlready, hselection]

/-- Without an origin a run counts the clones, and that is all. -/
theorem deduplicate_without_origin (calls : Calls W) (opts : Options) {list : List FileMetadata}
    (hselection : ∀ origin reason, selectOrigin (members list) ≠ .origin origin reason)
    (ctx : Context W) :
    ListTotals opts list ctx (deduplicate calls opts list ctx) ∧
      (deduplicate calls opts list ctx).world = ctx.world ∧
      namedPaths (deduplicate calls opts list ctx).reports = namedPaths ctx.reports ∧
      planned opts list = [] := by
  have hnamed : ∀ selection,
      namedPaths (ctx.reports ++ selectionReports opts (members list) selection) =
        namedPaths ctx.reports := by
    intro selection
    have hlines := named_selectionReports opts (members list) selection
    rw [namedPaths] at hlines ⊢
    rw [List.filterMap_append, hlines, List.append_nil, namedPaths]
  simp only [deduplicate]
  cases hcase : selectOrigin (members list) with
  | origin origin reason => exact absurd hcase (hselection origin reason)
  | allCompressed =>
      refine ⟨⟨?_, ?_⟩, rfl, hnamed _, ?_⟩
      · simp [planned, hcase, totalSize]
      · simp [plannedAlready, hcase]
      · simp [planned, hcase]
  | alreadyCloned =>
      have hnamed := hnamed .alreadyCloned
      have hplanned : planned opts list = [] := by simp [planned, hcase]
      have halready : plannedAlready opts list = alreadyClonedSize list := by
        simp [plannedAlready, hcase]
      cases list with
      | nil => exact ⟨⟨by rw [hplanned]; rfl, by rw [halready]; rfl⟩, rfl, hnamed, hplanned⟩
      | cons fm rest =>
          refine ⟨⟨by rw [hplanned]; rfl, ?_⟩, rfl, hnamed, hplanned⟩
          rw [halready]
          simp [members_cons, alreadyClonedSize]

/-- A dry run over a list. -/
theorem deduplicate_dry (hdry : opts.dryRun = true) (calls : Calls W) (list : List FileMetadata)
    (ctx : Context W) :
    ListTotals opts list ctx (deduplicate calls opts list ctx) ∧
      namedPaths (deduplicate calls opts list ctx).reports =
        namedPaths ctx.reports ++ (planned opts list).map FileMetadata.path := by
  by_cases hselection : ∃ origin reason, selectOrigin (members list) = .origin origin reason
  · rcases hselection with ⟨origin, reason, hselection⟩
    have hloop := replaceMembers_dry hdry calls origin (members list)
      (loopStart opts list origin reason ctx)
    have hlines := named_selectionReports opts (members list) (.origin origin reason)
    have hstart : namedPaths (loopStart opts list origin reason ctx).reports =
        namedPaths ctx.reports := by
      rw [loopStart, namedPaths_report]
      rw [namedPaths] at hlines
      simp [namedPaths, hlines, Report.named]
    rw [deduplicate_of_selection calls hselection]
    refine ⟨.of_loop hselection hloop.totals rfl rfl, ?_⟩
    rw [hloop.named, hstart, planned, hselection, List.map_map]
    rfl
  · obtain ⟨htotals, _, hnamed, hplanned⟩ := deduplicate_without_origin calls opts
      (fun origin reason h => hselection ⟨origin, reason, h⟩) ctx
    exact ⟨htotals, by rw [hnamed, hplanned]; simp⟩

/-- A real run over a list whose replacements succeed. -/
theorem deduplicate_totals_of_succeeds (hwet : opts.dryRun = false) {list : List FileMetadata}
    {ctx : Context W} (hsucceeds : ListSucceeds calls opts list ctx) :
    ListTotals opts list ctx (deduplicate calls opts list ctx) := by
  by_cases hselection : ∃ origin reason, selectOrigin (members list) = .origin origin reason
  · rcases hselection with ⟨origin, reason, hselection⟩
    rw [deduplicate_of_selection calls hselection]
    exact .of_loop hselection
      (replaceMembers_totals hwet _ _ (hsucceeds origin reason hselection)) rfl rfl
  · exact (deduplicate_without_origin calls opts
      (fun origin reason h => hselection ⟨origin, reason, h⟩) ctx).1

/-- The replacements that a run over a list calls: none if it is dry. -/
theorem deduplicate_recorded (calls : Calls W) (opts : Options) (list : List FileMetadata)
    (ctx : Context (W × List (Path × Path))) :
    (deduplicate calls.recording opts list ctx).world.2.map Prod.snd =
      ctx.world.2.map Prod.snd ++
        if opts.dryRun then [] else (planned opts list).map FileMetadata.path := by
  by_cases hselection : ∃ origin reason, selectOrigin (members list) = .origin origin reason
  · rcases hselection with ⟨origin, reason, hselection⟩
    rw [deduplicate_of_selection calls.recording hselection]
    cases hdry : opts.dryRun with
    | true =>
        rw [(replaceMembers_dry hdry calls.recording origin _ _).world]
        simp [loopStart, Context.report, Calls.recording]
    | false =>
        rw [replaceMembers_recorded calls hdry, planned, hselection]
        simp [loopStart, Context.report, Function.comp_def]
  · obtain ⟨_, hworld, _, hplanned⟩ := deduplicate_without_origin calls.recording opts
      (fun origin reason h => hselection ⟨origin, reason, h⟩) ctx
    rw [hworld, hplanned]
    simp

@[simp] theorem planned_withDryRun (opts : Options) (dryRun : Bool) (list : List FileMetadata) :
    planned (opts.withDryRun dryRun) list = planned opts list := rfl

@[simp] theorem plannedAlready_withDryRun (opts : Options) (dryRun : Bool)
    (list : List FileMetadata) :
    plannedAlready (opts.withDryRun dryRun) list = plannedAlready opts list := rfl

/-- What a run over many lists adds to the totals, if nothing that it replaced failed. -/
structure RunTotals (opts : Options) (lists : List (List FileMetadata)) (before after : Context W) :
    Prop where
  saved : after.saved = before.saved + (lists.map fun list => totalSize (planned opts list)).sum
  alreadySaved : after.alreadySaved =
    before.alreadySaved + (lists.map (plannedAlready opts)).sum

/-- One list more. -/
theorem RunTotals.snoc {lists : List (List FileMetadata)} {list : List FileMetadata}
    {before middle after : Context W} (h : RunTotals opts lists before middle)
    (hlist : ListTotals opts list middle after) :
    RunTotals opts (lists ++ [list]) before after := by
  constructor
  · rw [hlist.saved, h.saved]
    simp [add_assoc]
  · rw [hlist.alreadySaved, h.alreadySaved]
    simp [add_assoc]

/-- A dry run over many lists. -/
theorem deduplicateAll_dry (hdry : opts.dryRun = true) (calls : Calls W)
    (lists : List (List FileMetadata)) (ctx : Context W) :
    RunTotals opts lists ctx (deduplicateAll calls opts lists ctx) ∧
      namedPaths (deduplicateAll calls opts lists ctx).reports = namedPaths ctx.reports ++
        lists.flatMap fun list => (planned opts list).map FileMetadata.path := by
  induction lists using List.reverseRecOn with
  | nil => exact ⟨⟨by simp [deduplicateAll], by simp [deduplicateAll]⟩, by simp [deduplicateAll]⟩
  | append_singleton lists list ih =>
      rcases ih with ⟨htotals, hnamed⟩
      obtain ⟨htotals', hnamed'⟩ :=
        deduplicate_dry hdry calls list (deduplicateAll calls opts lists ctx)
      rw [deduplicateAll_append_singleton]
      refine ⟨htotals.snoc htotals', ?_⟩
      rw [hnamed', hnamed, List.flatMap_append, List.append_assoc]
      simp

/-- A real run over many lists whose replacements succeed. -/
theorem deduplicateAll_totals_of_succeed (hwet : opts.dryRun = false)
    (lists : List (List FileMetadata)) (ctx : Context W)
    (hsucceed : AllSucceed calls opts lists ctx) :
    RunTotals opts lists ctx (deduplicateAll calls opts lists ctx) := by
  induction lists using List.reverseRecOn with
  | nil => exact ⟨by simp [deduplicateAll], by simp [deduplicateAll]⟩
  | append_singleton lists list ih =>
      have hbefore : AllSucceed calls opts lists ctx := by
        intro earlier list' later hlists
        exact hsucceed earlier list' (later ++ [list]) (by simp [hlists])
      rw [deduplicateAll_append_singleton]
      exact (ih hbefore).snoc (deduplicate_totals_of_succeeds hwet (hsucceed lists list [] rfl))

/-- The replacements that a run over many lists calls: none if it is dry. -/
theorem deduplicateAll_recorded (calls : Calls W) (opts : Options)
    (lists : List (List FileMetadata)) (ctx : Context (W × List (Path × Path))) :
    (deduplicateAll calls.recording opts lists ctx).world.2.map Prod.snd =
      ctx.world.2.map Prod.snd ++ if opts.dryRun then [] else
        lists.flatMap fun list => (planned opts list).map FileMetadata.path := by
  induction lists using List.reverseRecOn with
  | nil => simp [deduplicateAll]
  | append_singleton lists list ih =>
      rw [deduplicateAll_append_singleton, deduplicate_recorded, ih, List.append_assoc]
      cases opts.dryRun <;> simp

/-- A dry run calls no replacement and names, list by list and in order, exactly the files on which
a real run from the same state calls one; and if every replacement of the real run succeeds, both
end with the same totals. -/
theorem dryRun_predicts (calls : Calls W) (opts : Options) (lists : List (List FileMetadata))
    (ctx : Context W) :
    calledPaths calls (opts.withDryRun true) lists ctx = [] ∧
      (∃ named, namedPaths (deduplicateAll calls (opts.withDryRun true) lists ctx).reports =
          namedPaths ctx.reports ++ named ∧
        calledPaths calls (opts.withDryRun false) lists ctx = named) ∧
      (AllSucceed calls (opts.withDryRun false) lists ctx →
        (deduplicateAll calls (opts.withDryRun true) lists ctx).saved =
            (deduplicateAll calls (opts.withDryRun false) lists ctx).saved ∧
          (deduplicateAll calls (opts.withDryRun true) lists ctx).alreadySaved =
            (deduplicateAll calls (opts.withDryRun false) lists ctx).alreadySaved) := by
  have hdry : (opts.withDryRun true).dryRun = true := rfl
  have hwet : (opts.withDryRun false).dryRun = false := rfl
  obtain ⟨htotals, hnamed⟩ := deduplicateAll_dry hdry calls lists ctx
  refine ⟨?_, ⟨_, hnamed, ?_⟩, fun hsucceed => ?_⟩
  · rw [calledPaths, deduplicateAll_recorded, if_pos hdry]
    rfl
  · rw [calledPaths, deduplicateAll_recorded, hwet]
    rfl
  · have htotals' := deduplicateAll_totals_of_succeed hwet lists ctx hsucceed
    exact ⟨htotals.saved.trans htotals'.saved.symm,
      htotals.alreadySaved.trans htotals'.alreadySaved.symm⟩

end

/-- The replacements of an ideal run all succeed. -/
theorem allSucceed_ideal {opts : Options} (hmode : CloneMode opts)
    (lists : List (List FileMetadata)) (ctx : Context CloneWorld) :
    AllSucceed idealCalls opts lists ctx := by
  intro earlier list later _ origin reason _ before m after _ _
  have hdone := replaceMembers_ideal origin hmode before
    (loopStart opts list origin reason (deduplicateAll idealCalls opts earlier ctx))
  constructor
  · simp [callReplacement, hmode.mode, idealCalls]
  · intro _
    simpa [callReplacement, hmode.mode, idealCalls] using hdone.cloneId_origin

/-- A dry run and a real one over the two linked files and the third one. -/
theorem dryRun_predicts_twoLinked :
    AllSucceed idealCalls (plainOptions.withDryRun false) [twoLinked]
        (startVolume twoLinkedIds) ∧
      (deduplicateAll idealCalls (plainOptions.withDryRun true) [twoLinked]
          (startVolume twoLinkedIds)).saved =
        (deduplicateAll idealCalls (plainOptions.withDryRun false) [twoLinked]
          (startVolume twoLinkedIds)).saved ∧
      (deduplicateAll idealCalls (plainOptions.withDryRun true) [twoLinked]
          (startVolume twoLinkedIds)).alreadySaved =
        (deduplicateAll idealCalls (plainOptions.withDryRun false) [twoLinked]
          (startVolume twoLinkedIds)).alreadySaved := by
  have hsucceed := allSucceed_ideal cloneMode_plainOptions [twoLinked]
    (startVolume twoLinkedIds)
  exact ⟨hsucceed,
    (dryRun_predicts idealCalls plainOptions [twoLinked] (startVolume twoLinkedIds)).2.2
      hsucceed⟩

end Dedup
