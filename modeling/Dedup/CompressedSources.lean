/-
Module: Dedup.CompressedSources
Purpose: When a compressed file is used as a clone source.  Only the choice among files that are
  not shared at all looks at the compression flag; the first file of most hard links and the first
  of most clones are taken whatever their flags are.
Imports: Dedup.BestSource, Dedup.SavingsReport
Trusted boundary: none
Main exports: replacementsOf, SparesCompressed, FirstOfMostClones, SharedSource, CompressedSource,
  sparesCompressed_iff, compressed_set_replaced
-/
import Dedup.BestSource
import Dedup.SavingsReport

namespace Dedup

/-- The replacements that a call of `deduplicate` makes: from which path, and of which. -/
def replacementsOf {W : Type} (calls : Calls W) (opts : Options) (list : List FileMetadata)
    (ctx : Context W) : List (Path × Path) :=
  (deduplicate calls.recording opts list ctx.recorded).world.2

/-- Every replacement is made from an origin that is not compressed, and none is made in a list of
compressed files. -/
structure SparesCompressed {W : Type} (calls : Calls W) (opts : Options)
    (list : List FileMetadata) (ctx : Context W) : Prop where
  source : ∀ call ∈ replacementsOf calls opts list ctx,
    ∃ origin, originRecord list = some origin ∧ call.1 = origin.path ∧ origin.compressed = false
  set : (∀ fm ∈ list, fm.compressed = true) → replacementsOf calls opts list ctx = []

/-- The first record of the clone id that most records have, and of the smallest such id, if at
least two have it. -/
structure FirstOfMostClones (list : List FileMetadata) (fm : FileMetadata) : Prop where
  split : ∃ before after, list = before ++ fm :: after ∧
    ∀ other ∈ before, other.cloneId ≠ fm.cloneId
  several : 2 ≤ cloneCount list fm.cloneId
  most : ∀ other ∈ list, cloneCount list other.cloneId ≤ cloneCount list fm.cloneId
  smallest : ∀ other ∈ list, cloneCount list other.cloneId = cloneCount list fm.cloneId →
    fm.cloneId ≤ other.cloneId

/-- The first file of most hard links, or among files of one link the first of most clones. -/
def SharedSource (list : List FileMetadata) (fm : FileMetadata) : Prop :=
  FirstOfMostLinks list fm ∨ ((∀ other ∈ list, other.nlink ≤ 1) ∧ FirstOfMostClones list fm)

/-- A real run over a list whose file of most hard links or of most clones is compressed, and in
which a file of another clone id can be replaced. -/
structure CompressedSource (opts : Options) (list : List FileMetadata) : Prop where
  wet : opts.dryRun = false
  source : ∃ origin, SharedSource list origin ∧ origin.compressed = true ∧
    ∃ fm ∈ list, Replaceable opts fm = true ∧ fm.cloneId ≠ origin.cloneId

section

variable {W : Type} {calls : Calls W} {opts : Options} {list : List FileMetadata}
  {ctx : Context W} {origin : FileMetadata}

/-! ### The shared source is the origin -/

theorem originRecord_eq_map (list : List FileMetadata) :
    originRecord list = (selectOrigin (members list)).member.map Member.fm := by
  unfold originRecord
  cases selectOrigin (members list) <;> rfl

/-- Two clone ids in a list are two among its members. -/
theorem differ_members {a b : FileMetadata} (ha : a ∈ list) (hb : b ∈ list)
    (hne : a.cloneId ≠ b.cloneId) :
    ∃ x ∈ members list, ∃ y ∈ members list, x.fm.cloneId ≠ y.fm.cloneId := by
  rcases exists_member ha with ⟨x, hx, rfl⟩
  rcases exists_member hb with ⟨y, hy, rfl⟩
  exact ⟨x, hx, y, hy, hne⟩

/-- Where another clone id is in the list, the shared source is the origin. -/
theorem SharedSource.originRecord_eq (h : SharedSource list origin)
    {a b : FileMetadata} (ha : a ∈ list) (hb : b ∈ list) (hne : a.cloneId ≠ b.cloneId) :
    originRecord list = some origin := by
  rcases h with hlinks | ⟨single, hclones⟩
  · exact hlinks.originRecord_eq
  · rcases hclones.split with ⟨before, after, hlist, hfirst⟩
    obtain ⟨msBefore, m, msAfter, hms, rfl, rfl, _⟩ := members_split hlist
    have hbest : BestSource (members list) (some m) := by
      refine .mostClones msBefore m msAfter hms (forall_members single)
        (differ_members ha hb hne) ?_ (fun other hother => ?_) ?_ ?_
      · rw [idCount_members]
        exact hclones.several
      · exact hfirst other.fm (List.mem_map_of_mem hother)
      · simp only [idCount_members]
        exact forall_members hclones.most
      · simp only [idCount_members]
        exact forall_members hclones.smallest
    rw [originRecord_eq_map, selectOrigin_of_bestSource hbest]
    rfl

/-- A compressed origin is a shared source. -/
theorem sharedSource_of_compressed (horigin : originRecord list = some origin)
    (compressed : origin.compressed = true) : SharedSource list origin := by
  have hbest := bestSource_of_selectOrigin (members list)
  rw [originRecord_eq_map, Option.map_eq_some_iff] at horigin
  rcases horigin with ⟨m, hmember, rfl⟩
  rw [hmember] at hbest
  have hsplit : ∀ {before after : List Member}, members list = before ++ m :: after →
      list = before.map Member.fm ++ m.fm :: after.map Member.fm := by
    intro before after split
    rw [← List.map_cons, ← List.map_append, ← split, map_fm_members]
  cases hbest with
  | mostHardlinks before _ after split linked more most =>
      exact .inl ⟨_, _, hsplit split, linked, List.forall_mem_map.mpr more,
        List.forall_mem_map.mpr most⟩
  | mostClones before _ after split single differ several first most smallest =>
      simp only [idCount_members] at several most smallest
      exact .inr ⟨forall_records single, ⟨_, _, hsplit split, List.forall_mem_map.mpr first⟩, several,
        forall_records most, forall_records smallest⟩
  | firstUncompressed _ _ _ _ _ _ _ _ uncompressed => simp [uncompressed] at compressed

/-! ### The replacements of a call -/

/-- Without an origin nothing is replaced. -/
theorem replacementsOf_of_none (horigin : originRecord list = none) :
    replacementsOf calls opts list ctx = [] := by
  have hselection : ∀ origin reason, selectOrigin (members list) ≠ .origin origin reason := by
    intro origin reason h
    simp [originRecord, h, Selection.record] at horigin
  rw [replacementsOf, (deduplicate_without_origin calls.recording opts hselection _).2.1]
  rfl

/-- With an origin, a real call in clone mode replaces what can be replaced and has another clone
id. -/
theorem replacementsOf_of_some (mode : opts.replaceMode = .clone)
    (horigin : originRecord list = some origin) :
    replacementsOf calls opts list ctx = if opts.dryRun then [] else
      (replacedRecords opts origin.cloneId list).map fun fm => (origin.path, fm.path) := by
  obtain ⟨m, reason, hselection, rfl⟩ := exists_selection horigin
  rw [replacementsOf, deduplicate_of_selection calls.recording hselection]
  cases hdry : opts.dryRun with
  | true =>
      rw [(replaceMembers_dry hdry calls.recording m _ _).world]
      rfl
  | false =>
      rw [replaceMembers_recorded calls hdry,
        ← map_fm_replaced ⟨mode, hdry⟩ (mem_of_selectOrigin hselection), List.map_map]
      rfl

/-- A real call replaces something from an origin exactly when a file of another clone id can be
replaced. -/
theorem replacementsOf_ne_nil_iff (mode : opts.replaceMode = .clone)
    (horigin : originRecord list = some origin) :
    replacementsOf calls opts list ctx ≠ [] ↔ opts.dryRun = false ∧
      ∃ fm ∈ list, Replaceable opts fm = true ∧ fm.cloneId ≠ origin.cloneId := by
  rw [replacementsOf_of_some mode horigin]
  cases opts.dryRun with
  | true => simp
  | false => simp [replacedRecords]

end

/-- In clone mode no compressed file is a source, and no list of compressed files is touched,
exactly when the file of most hard links or of most clones is not compressed where a file could be
replaced from it. -/
theorem sparesCompressed_iff {W : Type} (calls : Calls W) (opts : Options)
    (mode : opts.replaceMode = .clone) (list : List FileMetadata) (ctx : Context W) :
    SparesCompressed calls opts list ctx ↔ ¬CompressedSource opts list := by
  constructor
  · rintro hspares ⟨wet, origin, hshared, compressed, fm, hfm, hreplaceable, hne⟩
    have hmem : origin ∈ list := by
      rcases hshared with ⟨before, after, rfl, _⟩ | ⟨_, hclones⟩
      · simp
      · rcases hclones.split with ⟨before, after, rfl, _⟩
        simp
    have horigin := hshared.originRecord_eq hfm hmem hne
    have hcalls : replacementsOf calls opts list ctx ≠ [] :=
      (replacementsOf_ne_nil_iff mode horigin).mpr ⟨wet, fm, hfm, hreplaceable, hne⟩
    rcases List.exists_mem_of_ne_nil _ hcalls with ⟨call, hcall⟩
    obtain ⟨other, hother, _, uncompressed⟩ := hspares.source call hcall
    obtain rfl := Option.some.inj (horigin.symm.trans hother)
    simp [compressed] at uncompressed
  · intro hnone
    cases horigin : originRecord list with
    | none =>
        have hcalls : replacementsOf calls opts list ctx = [] := replacementsOf_of_none horigin
        exact ⟨by simp [hcalls], fun _ => hcalls⟩
    | some origin =>
        by_cases hcalls : replacementsOf calls opts list ctx = []
        · exact ⟨by simp [hcalls], fun _ => hcalls⟩
        · -- something is replaced, so the origin is not compressed
          obtain ⟨wet, target⟩ := (replacementsOf_ne_nil_iff mode horigin).mp hcalls
          have uncompressed : origin.compressed = false := by
            by_contra hcompressed
            rw [Bool.not_eq_false] at hcompressed
            exact hnone ⟨wet, origin, sharedSource_of_compressed horigin hcompressed, hcompressed,
              target⟩
          refine ⟨fun call hcall => ⟨origin, horigin, ?_, uncompressed⟩, fun hall => ?_⟩
          · rw [replacementsOf_of_some mode horigin, wet] at hcall
            rcases List.mem_map.mp hcall with ⟨_, _, rfl⟩
            rfl
          · have hcompressed := hall origin (mem_of_originRecord horigin)
            simp [uncompressed] at hcompressed

/-- Two compressed files, of which the first has a second link. -/
def compressedSet : List FileMetadata :=
  [{ setFile 'a' 2 1 with flags := ufCompressed }, { setFile 'b' 1 2 with flags := ufCompressed }]

/-- The clone ids of `compressedSet`. -/
def compressedSetIds (path : Path) : Nat :=
  if path = ['a'] then 1 else 2

/-- The second file is replaced from the first, though both are compressed. -/
theorem compressed_set_replaced :
    (∀ fm ∈ compressedSet, fm.compressed = true) ∧
      replacementsOf idealCalls plainOptions compressedSet (startVolume compressedSetIds) =
        [(['a'], ['b'])] ∧
      ¬SparesCompressed idealCalls plainOptions compressedSet (startVolume compressedSetIds) := by
  have hcalls : replacementsOf idealCalls plainOptions compressedSet
      (startVolume compressedSetIds) = [(['a'], ['b'])] := by decide
  refine ⟨by decide, hcalls, fun h => ?_⟩
  have hnone := h.set (by decide)
  rw [hcalls] at hnone
  exact absurd hnone (List.cons_ne_nil _ _)

/-- The condition at the two compressed files. -/
theorem sparesCompressed_iff_compressedSet :
    SparesCompressed idealCalls plainOptions compressedSet (startVolume compressedSetIds) ↔
      ¬CompressedSource plainOptions compressedSet :=
  sparesCompressed_iff idealCalls plainOptions rfl compressedSet (startVolume compressedSetIds)

end Dedup
