/-
Module: Dedup.IdealClones
Purpose: `deduplicate` in clone mode where every replacement succeeds: a clone gets the clone id
  of its origin and nothing else changes.  The loop is then told by the records of the list and
  the origin alone: which files are replaced, and what is counted.
Imports: Dedup.Deduplicate
Trusted boundary: human-reviewed spec of a successful `replace_with_clone` on one volume
Main exports: CloneWorld, idealCalls, CloneMode, Replaceable, LoopDone, replaceMembers_ideal,
  RecordsDone, deduplicate_of_origin, deduplicate_of_none, savedBy, alreadySavedBy,
  deduplicateAll_totals
-/
import Dedup.Deduplicate

namespace Dedup

/-- The clone ids of the files, and the calls of `replace_with_clone` made so far. -/
structure CloneWorld where
  cloneId : Path → Nat
  calls : List (Path × Path)

/-- The calls of a run in which every replacement succeeds. -/
def idealCalls : Calls CloneWorld where
  getCloneId := fun path w => (w.cloneId path, w)
  privateSize := fun _ w => (0, w)
  replaceWithClone := fun src dst _ w =>
    (0, { cloneId := Function.update w.cloneId dst (w.cloneId src)
          calls := w.calls ++ [(src, dst)] })
  replaceWithLink := fun _ _ w => (0, w)
  replaceWithSymlink := fun _ _ w => (0, w)

/-- A run in clone mode that is no dry run. -/
structure CloneMode (opts : Options) : Prop where
  mode : opts.replaceMode = .clone
  wet : opts.dryRun = false

/-- The options of a plain run. -/
def plainOptions : Options where
  replaceMode := .clone
  force := false
  dryRun := false
  preserveParentMtime := false
  verbosity := 0

theorem cloneMode_plainOptions : CloneMode plainOptions where
  mode := rfl
  wet := rfl

/-- A file that the loop replaces when its clone id is not the origin's: it has one link, or
`--force` is given, and no immutable flag. -/
def Replaceable (opts : Options) (fm : FileMetadata) : Bool :=
  (opts.force || fm.nlink ≤ 1) && !fm.immutable

/-- A file that the loop counts as saved already when it is not the origin. -/
def Counted (opts : Options) (id : Nat) (fm : FileMetadata) : Bool :=
  (!opts.force && fm.nlink > 1) || fm.cloneId = id

section Loop

variable {opts : Options} {list : List FileMetadata} {origin m : Member}

/-- In clone mode an element is replaced exactly when its record allows it and its clone id is
not the origin's. -/
theorem treatment_eq_replace_iff (hmode : opts.replaceMode = .clone)
    (horigin : origin ∈ members list) (hm : m ∈ members list) :
    treatment opts origin m = .replace ↔
      (Replaceable opts m.fm && m.fm.cloneId ≠ origin.fm.cloneId) = true := by
  rcases eq_or_ne m.index origin.index with hindex | hindex
  · have hsame := eq_of_index_eq hm horigin hindex
    simp [treatment, hsame]
  · simp only [treatment, hindex, if_false, hmode, Replaceable]
    rcases Nat.lt_or_ge 1 m.fm.nlink with hlink | hlink
    · cases hforce : opts.force with
      | true => split_ifs <;> simp_all
      | false => simp [hlink]
    · have hsingle : (!opts.force && m.fm.nlink > 1) = false := by simp [hlink]
      simp only [hsingle, Bool.false_eq_true, if_false]
      split_ifs <;> simp_all

/-- In clone mode an element is counted as saved already exactly when it is hard-linked or has
the origin's clone id, and is not the origin. -/
theorem treatment_counted_iff (hmode : opts.replaceMode = .clone) :
    (treatment opts origin m = .skipHardlinked ∨ treatment opts origin m = .skipAlreadyCloned) ↔
      m.index ≠ origin.index ∧ Counted opts origin.fm.cloneId m.fm = true := by
  rcases eq_or_ne m.index origin.index with hindex | hindex
  · simp [treatment, hindex]
  · simp only [treatment, hindex, if_false, hmode, Counted]
    split_ifs <;> simp_all

/-- The elements that the loop replaces. -/
def replaced (opts : Options) (origin : Member) (ms : List Member) : List Member :=
  ms.filter fun m => treatment opts origin m = .replace

/-- The elements that the loop counts as saved already. -/
def counted (opts : Options) (origin : Member) (ms : List Member) : List Member :=
  ms.filter fun m =>
    treatment opts origin m = .skipHardlinked ∨ treatment opts origin m = .skipAlreadyCloned

/-- What the loop has done once it went through the elements `ms`. -/
structure LoopDone (opts : Options) (origin : Member) (before after : Context CloneWorld)
    (ms : List Member) : Prop where
  calls : after.world.calls = before.world.calls ++
    (replaced opts origin ms).map fun m => (origin.fm.path, m.fm.path)
  cloneId : ∀ path, after.world.cloneId path =
    if ∃ m ∈ replaced opts origin ms, m.fm.path = path then before.world.cloneId origin.fm.path
    else before.world.cloneId path
  saved : after.saved = before.saved + ((replaced opts origin ms).map fun m => m.fm.size).sum
  alreadySaved : after.alreadySaved =
    before.alreadySaved + ((counted opts origin ms).map fun m => m.fm.size).sum

/-- The origin keeps its clone id. -/
theorem LoopDone.cloneId_origin {before after : Context CloneWorld} {ms : List Member}
    (h : LoopDone opts origin before after ms) :
    after.world.cloneId origin.fm.path = before.world.cloneId origin.fm.path := by
  rw [h.cloneId]
  split <;> rfl

/-- One successful replacement. -/
theorem performReplacement_ideal (hmode : CloneMode opts) (fm : FileMetadata)
    (ctx : Context CloneWorld) {originCloneId : Nat}
    (hid : ctx.world.cloneId origin.fm.path = originCloneId) :
    (performReplacement idealCalls opts origin originCloneId fm ctx).world =
        { cloneId := Function.update ctx.world.cloneId fm.path originCloneId
          calls := ctx.world.calls ++ [(origin.fm.path, fm.path)] } ∧
      (performReplacement idealCalls opts origin originCloneId fm ctx).saved =
        ctx.saved + fm.size ∧
      (performReplacement idealCalls opts origin originCloneId fm ctx).alreadySaved =
        ctx.alreadySaved := by
  simp [performReplacement, callReplacement, accountReplaced, hmode.mode, idealCalls, hid]

/-- One turn of the loop. -/
theorem LoopDone.step (hmode : CloneMode opts) {before after : Context CloneWorld}
    {ms : List Member} (h : LoopDone opts origin before after ms) (m : Member) :
    LoopDone opts origin before
      (replaceMember idealCalls opts origin (before.world.cloneId origin.fm.path) after m)
      (ms ++ [m]) := by
  -- an element that is not replaced leaves the world as it is
  have hkeep : ∀ (n : Nat) {ctx : Context CloneWorld}, ctx.world = after.world →
      ctx.saved = after.saved → ctx.alreadySaved = after.alreadySaved + n →
      treatment opts origin m ≠ .replace →
      ((counted opts origin [m]).map fun m => m.fm.size).sum = n →
      LoopDone opts origin before ctx (ms ++ [m]) := by
    intro n ctx hworld hsaved halready hkept hsize
    have hreplaced : replaced opts origin (ms ++ [m]) = replaced opts origin ms := by
      simp [replaced, hkept]
    refine ⟨?_, ?_, ?_, ?_⟩
    · rw [hworld, hreplaced, h.calls]
    · rw [hworld, hreplaced]
      exact h.cloneId
    · rw [hsaved, hreplaced, h.saved]
    · have happend : counted opts origin (ms ++ [m]) = counted opts origin ms ++
          counted opts origin [m] := List.filter_append ..
      rw [halready, h.alreadySaved, ← hsize, happend, List.map_append, List.sum_append]
      omega
  unfold replaceMember
  cases htreatment : treatment opts origin m with
  | isOrigin =>
      exact hkeep 0 rfl rfl rfl (by simp [htreatment]) (by simp [counted, htreatment])
  | skipHardlinked =>
      exact hkeep m.fm.size rfl rfl rfl (by simp [htreatment]) (by simp [counted, htreatment])
  | skipAlreadyCloned =>
      exact hkeep m.fm.size rfl rfl rfl (by simp [htreatment]) (by simp [counted, htreatment])
  | skipImmutable =>
      exact hkeep 0 rfl rfl rfl (by simp [htreatment]) (by simp [counted, htreatment])
  | replace =>
      simp only [hmode.wet, Bool.false_eq_true, if_false]
      obtain ⟨hworld, hsaved, halready⟩ :=
        performReplacement_ideal hmode m.fm after h.cloneId_origin
      have hreplaced : replaced opts origin (ms ++ [m]) = replaced opts origin ms ++ [m] := by
        simp [replaced, htreatment]
      have hcounted : counted opts origin (ms ++ [m]) = counted opts origin ms := by
        simp [counted, htreatment]
      refine ⟨?_, ?_, ?_, ?_⟩
      · simp [hworld, hreplaced, h.calls]
      · intro path
        rw [hworld, hreplaced]
        rcases eq_or_ne path m.fm.path with rfl | hpath
        · simp
        · simp only [Function.update_of_ne hpath, h.cloneId, List.mem_append, List.mem_singleton,
            or_and_right, exists_or, exists_eq_left, hpath.symm, or_false]
      · rw [hsaved, hreplaced, h.saved, List.map_append, List.sum_append]
        simp only [List.map_cons, List.map_nil, List.sum_cons, List.sum_nil]
        omega
      · rw [halready, hcounted, h.alreadySaved]

/-- The whole loop. -/
theorem replaceMembers_ideal (origin : Member) (hmode : CloneMode opts) (ms : List Member)
    (ctx : Context CloneWorld) :
    LoopDone opts origin ctx (replaceMembers idealCalls opts ms origin ctx) ms := by
  have hloop : ∀ ms : List Member, LoopDone opts origin ctx
      (ms.foldl (replaceMember idealCalls opts origin (ctx.world.cloneId origin.fm.path)) ctx)
        ms := by
    intro ms
    induction ms using List.reverseRecOn with
    | nil => exact ⟨by simp [replaced], by simp [replaced], by simp [replaced], by simp [counted]⟩
    | append_singleton ms m ih =>
        rw [List.foldl_append]
        exact ih.step hmode m
  exact hloop ms

end Loop

/-! ### The call, told by records -/

/-- The records that a run of the loop with an origin of clone id `id` replaces. -/
def replacedRecords (opts : Options) (id : Nat) (list : List FileMetadata) : List FileMetadata :=
  list.filter fun fm => Replaceable opts fm && fm.cloneId ≠ id

/-- The records, the origin among them, that stay and count as saved already. -/
def countedRecords (opts : Options) (id : Nat) (list : List FileMetadata) : List FileMetadata :=
  list.filter fun fm => Counted opts id fm

/-- The sum of the sizes of some records. -/
def totalSize (list : List FileMetadata) : Nat :=
  (list.map FileMetadata.size).sum

section Records

variable {opts : Options} {list : List FileMetadata} {origin : Member}

theorem totalSize_of_uniform {size : Nat} (uniform : ∀ fm ∈ list, fm.size = size) :
    totalSize list = size * list.length := by
  rw [totalSize, List.map_congr_left uniform, List.map_const', List.sum_replicate,
    smul_eq_mul, mul_comm]

theorem map_fm_replaced (hmode : CloneMode opts) (horigin : origin ∈ members list) :
    (replaced opts origin (members list)).map Member.fm =
      replacedRecords opts origin.fm.cloneId list := by
  have hfilter : replaced opts origin (members list) =
      (members list).filter ((fun fm => Replaceable opts fm && fm.cloneId ≠ origin.fm.cloneId) ∘
        Member.fm) := by
    apply List.filter_congr
    intro m hm
    rw [Bool.eq_iff_iff, decide_eq_true_iff, treatment_eq_replace_iff hmode.mode horigin hm]
    rfl
  rw [hfilter, ← List.filter_map, map_fm_members]
  rfl

/-- An element taken out of a sum over a list without repetition. -/
theorem sum_filter_ne {α : Type} [DecidableEq α] {items : List α} {item : α} (p : α → Bool)
    (size : α → Nat) (hnodup : items.Nodup) (hmem : item ∈ items) (hp : p item = true) :
    ((items.filter fun other => other ≠ item ∧ p other = true).map size).sum + size item =
      ((items.filter p).map size).sum := by
  have hperm : ((items.filter p).Perm (item :: (items.filter p).erase item)) :=
    List.perm_cons_erase (List.mem_filter.mpr ⟨hmem, hp⟩)
  have herase : (items.filter p).erase item =
      items.filter fun other => other ≠ item ∧ p other = true := by
    rw [(hnodup.filter p).erase_eq_filter, List.filter_filter]
    apply List.filter_congr
    intro other _
    rw [Bool.eq_iff_iff]
    simp
  rw [(hperm.map size).sum_eq, herase, List.map_cons, List.sum_cons]
  omega

/-- What is counted as saved already, with the origin's own size added. -/
theorem sum_counted (hmode : CloneMode opts) (horigin : origin ∈ members list) :
    ((counted opts origin (members list)).map fun m => m.fm.size).sum + origin.fm.size =
      totalSize (countedRecords opts origin.fm.cloneId list) := by
  have hself : Counted opts origin.fm.cloneId origin.fm = true := by simp [Counted]
  have hcounted : counted opts origin (members list) = (members list).filter
      fun m => m ≠ origin ∧ Counted opts origin.fm.cloneId m.fm = true := by
    apply List.filter_congr
    intro m hm
    have hindex : m.index ≠ origin.index ↔ m ≠ origin :=
      not_congr ⟨eq_of_index_eq hm horigin, congrArg Member.index⟩
    rw [Bool.eq_iff_iff, decide_eq_true_iff, treatment_counted_iff hmode.mode, hindex]
    simp
  rw [hcounted, sum_filter_ne (fun m : Member => Counted opts origin.fm.cloneId m.fm)
    (fun m => m.fm.size) (nodup_members list) horigin hself, totalSize, countedRecords]
  conv_rhs => rw [← map_fm_members list, List.filter_map, List.map_map]
  rfl

end Records

/-- What `deduplicate` does to the totals and to the world where `fm` is the origin, told by the
records of the list. -/
structure RecordsDone (opts : Options) (fm : FileMetadata) (list : List FileMetadata)
    (before after : Context CloneWorld) : Prop where
  calls : after.world.calls = before.world.calls ++
    (replacedRecords opts fm.cloneId list).map fun other => (fm.path, other.path)
  cloneId : ∀ path, after.world.cloneId path =
    if ∃ other ∈ replacedRecords opts fm.cloneId list, other.path = path then
      before.world.cloneId fm.path
    else before.world.cloneId path
  saved : after.saved = before.saved + totalSize (replacedRecords opts fm.cloneId list)
  alreadySaved : after.alreadySaved + fm.size =
    before.alreadySaved + totalSize (countedRecords opts fm.cloneId list)

theorem deduplicate_of_origin {opts : Options} (hmode : CloneMode opts)
    {list : List FileMetadata} {fm : FileMetadata} (h : originRecord list = some fm)
    (ctx : Context CloneWorld) :
    RecordsDone opts fm list ctx (deduplicate idealCalls opts list ctx) := by
  obtain ⟨origin, reason, hselect, rfl⟩ := exists_selection h
  have hmem : origin ∈ members list := by
    have hchosen := selectOrigin_chosen (members list)
    rw [hselect] at hchosen
    cases hchosen with
    | mostHardlinks _ mem => exact mem
    | firstSeen _ _ _ _ first => exact List.mem_of_find?_eq_some first
    | mostClones _ _ _ _ first => exact List.mem_of_find?_eq_some first
  -- the lines printed before the loop do not matter to it
  have hdone : LoopDone opts origin ctx (deduplicate idealCalls opts list ctx) (members list) := by
    simp only [deduplicate, hselect]
    obtain ⟨hcalls, hcloneId, hsaved, halready⟩ := replaceMembers_ideal origin hmode (members list)
      (({ ctx with reports := ctx.reports ++
        selectionReports opts (members list) (.origin origin reason) } : Context CloneWorld).report
          (.using origin.fm.path reason))
    exact ⟨hcalls, hcloneId, hsaved, halready⟩
  have hreplaced := map_fm_replaced hmode hmem
  refine ⟨?_, ?_, ?_, ?_⟩
  · rw [hdone.calls, ← hreplaced, List.map_map]
    rfl
  · intro path
    rw [hdone.cloneId, ← hreplaced]
    simp
  · rw [hdone.saved, totalSize, ← hreplaced, List.map_map]
    rfl
  · rw [hdone.alreadySaved, ← sum_counted hmode hmem]
    omega

/-- What the early return counts: all files but one. -/
def alreadyClonedSize : List FileMetadata → Nat
  | [] => 0
  | fm :: rest => fm.size * rest.length

/-- A list whose clone ids are equal and distinct has at most one file, so nothing is counted. -/
theorem alreadyClonedSize_of_distinct {list : List FileMetadata}
    (same : ∀ a ∈ list, ∀ b ∈ list, a.cloneId = b.cloneId)
    (distinct : (list.map FileMetadata.cloneId).Nodup) : alreadyClonedSize list = 0 := by
  cases list with
  | nil => rfl
  | cons a rest =>
      cases rest with
      | nil => simp [alreadyClonedSize]
      | cons b rest =>
          have heq := same a (by simp) b (by simp)
          simp [heq] at distinct

/-- Without an origin nothing is replaced; where the clone ids are all equal, all files but one
count as saved already. -/
theorem deduplicate_of_none {opts : Options} {list : List FileMetadata}
    (h : originRecord list = none) (ctx : Context CloneWorld) :
    (deduplicate idealCalls opts list ctx).world = ctx.world ∧
      (deduplicate idealCalls opts list ctx).saved = ctx.saved ∧
      (deduplicate idealCalls opts list ctx).alreadySaved = ctx.alreadySaved +
        if ∀ a ∈ list, ∀ b ∈ list, a.cloneId = b.cloneId then alreadyClonedSize list else 0 := by
  have hchosen := selectOrigin_chosen (members list)
  unfold originRecord at h
  cases hselect : selectOrigin (members list) with
  | origin origin reason => simp [hselect, Selection.record] at h
  | allCompressed =>
      rw [hselect] at hchosen
      have hzero : (if ∀ a ∈ list, ∀ b ∈ list, a.cloneId = b.cloneId then alreadyClonedSize list
          else 0) = 0 := by
        split
        · rename_i hsame
          cases hchosen with
          | allCompressed _ distinct =>
              rw [map_cloneId_members] at distinct
              exact alreadyClonedSize_of_distinct hsame distinct
        · rfl
      rw [hzero]
      simp [deduplicate, hselect]
  | alreadyCloned =>
      rw [hselect] at hchosen
      have hsame : ∀ a ∈ list, ∀ b ∈ list, a.cloneId = b.cloneId := by
        cases hchosen with
        | alreadyCloned _ same =>
            intro a ha b hb
            rcases exists_member ha with ⟨m, hm, rfl⟩
            rcases exists_member hb with ⟨m', hm', rfl⟩
            exact same m hm m' hm'
      rw [if_pos hsame]
      simp only [deduplicate, hselect]
      cases list with
      | nil => exact ⟨rfl, rfl, rfl⟩
      | cons fm rest =>
          rw [members_cons]
          simp [alreadyClonedSize]

/-! ### The totals of many lists -/

/-- What a list adds to `saved`. -/
def savedBy (opts : Options) (list : List FileMetadata) : Nat :=
  match originRecord list with
  | some fm => totalSize (replacedRecords opts fm.cloneId list)
  | none => 0

/-- What a list adds to `already_saved`. -/
def alreadySavedBy (opts : Options) (list : List FileMetadata) : Nat :=
  match originRecord list with
  | some fm => totalSize (countedRecords opts fm.cloneId list) - fm.size
  | none =>
      if ∀ a ∈ list, ∀ b ∈ list, a.cloneId = b.cloneId then alreadyClonedSize list else 0

theorem deduplicate_totals {opts : Options} (hmode : CloneMode opts) (list : List FileMetadata)
    (ctx : Context CloneWorld) :
    (deduplicate idealCalls opts list ctx).saved = ctx.saved + savedBy opts list ∧
      (deduplicate idealCalls opts list ctx).alreadySaved =
        ctx.alreadySaved + alreadySavedBy opts list := by
  unfold savedBy alreadySavedBy
  cases horigin : originRecord list with
  | none => exact (deduplicate_of_none horigin ctx).2
  | some fm =>
      have hdone := deduplicate_of_origin hmode horigin ctx
      -- the origin is among the counted files
      have hself : fm ∈ countedRecords opts fm.cloneId list :=
        List.mem_filter.mpr ⟨mem_of_originRecord horigin, by simp [Counted]⟩
      have hle : fm.size ≤ totalSize (countedRecords opts fm.cloneId list) :=
        List.le_sum_of_mem (List.mem_map_of_mem hself)
      have halready := hdone.alreadySaved
      refine ⟨hdone.saved, ?_⟩
      simp only
      omega

/-- The totals of a run add up what the lists add. -/
theorem deduplicateAll_totals {opts : Options} (hmode : CloneMode opts)
    (lists : List (List FileMetadata)) (ctx : Context CloneWorld) :
    (deduplicateAll idealCalls opts lists ctx).saved =
        ctx.saved + (lists.map (savedBy opts)).sum ∧
      (deduplicateAll idealCalls opts lists ctx).alreadySaved =
        ctx.alreadySaved + (lists.map (alreadySavedBy opts)).sum := by
  induction lists generalizing ctx with
  | nil => exact ⟨rfl, rfl⟩
  | cons list lists ih =>
      rcases deduplicate_totals hmode list ctx with ⟨hsaved, halready⟩
      obtain ⟨hsaved', halready'⟩ := ih (deduplicate idealCalls opts list ctx)
      simp only [deduplicateAll, List.foldl_cons, List.map_cons, List.sum_cons] at *
      omega

end Dedup
