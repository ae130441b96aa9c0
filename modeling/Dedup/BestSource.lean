/-
Module: Dedup.BestSource
Purpose: The rules by which README documents the best source, stated on the list as a whole, and
  that `deduplicate` works from the file these rules name.  The rules name one file or none.
Imports: Dedup.DryRun
Trusted boundary: rbtree(3) iterates in ascending key order
Main exports: BestSource, BestSource.unique, bestSource_of_selectOrigin, DeduplicatesFrom,
  deduplicate_bestSource
-/
import Dedup.DryRun

namespace Dedup

/-- The file that the others are cloned from: the first one of most hard links, if some file has
more than one; otherwise none, if all clone ids are equal; otherwise the first file of the clone id
that most files have, and of the smallest such id; otherwise the first file that is not
compressed, if there is one. -/
inductive BestSource (ms : List Member) : Option Member → Prop where
  | mostHardlinks (before : List Member) (m : Member) (after : List Member)
      (split : ms = before ++ m :: after) (linked : 1 < m.fm.nlink)
      (more : ∀ other ∈ before, other.fm.nlink < m.fm.nlink)
      (most : ∀ other ∈ after, other.fm.nlink ≤ m.fm.nlink) : BestSource ms (some m)
  | oneCloneId (single : ∀ m ∈ ms, m.fm.nlink ≤ 1)
      (same : ∀ a ∈ ms, ∀ b ∈ ms, a.fm.cloneId = b.fm.cloneId) : BestSource ms none
  | mostClones (before : List Member) (m : Member) (after : List Member)
      (split : ms = before ++ m :: after) (single : ∀ m ∈ ms, m.fm.nlink ≤ 1)
      (differ : ∃ a ∈ ms, ∃ b ∈ ms, a.fm.cloneId ≠ b.fm.cloneId)
      (several : 2 ≤ idCount ms m.fm.cloneId)
      (first : ∀ other ∈ before, other.fm.cloneId ≠ m.fm.cloneId)
      (most : ∀ other ∈ ms, idCount ms other.fm.cloneId ≤ idCount ms m.fm.cloneId)
      (smallest : ∀ other ∈ ms, idCount ms other.fm.cloneId = idCount ms m.fm.cloneId →
        m.fm.cloneId ≤ other.fm.cloneId) : BestSource ms (some m)
  | firstUncompressed (before : List Member) (m : Member) (after : List Member)
      (split : ms = before ++ m :: after) (single : ∀ m ∈ ms, m.fm.nlink ≤ 1)
      (differ : ∃ a ∈ ms, ∃ b ∈ ms, a.fm.cloneId ≠ b.fm.cloneId)
      (alone : ∀ m ∈ ms, idCount ms m.fm.cloneId ≤ 1)
      (compressed : ∀ other ∈ before, other.fm.compressed = true)
      (uncompressed : m.fm.compressed = false) : BestSource ms (some m)
  | allCompressed (single : ∀ m ∈ ms, m.fm.nlink ≤ 1)
      (differ : ∃ a ∈ ms, ∃ b ∈ ms, a.fm.cloneId ≠ b.fm.cloneId)
      (alone : ∀ m ∈ ms, idCount ms m.fm.cloneId ≤ 1)
      (compressed : ∀ m ∈ ms, m.fm.compressed = true) : BestSource ms none

/-- The element a choice works from. -/
def Selection.member : Selection → Option Member
  | .origin m _ => some m
  | _ => none

section

variable {ms : List Member} {m : Member}

/-! ### The rules compute the choice -/

theorem mostHardlinks_of_single (single : ∀ m ∈ ms, m.fm.nlink ≤ 1) : mostHardlinks ms = none := by
  rw [mostHardlinks_eq, firstGreatest_eq_none_iff]
  exact fun m hm => Nat.sub_eq_zero_of_le (single m hm)

/-- The first element of most hard links, by its place in the list. -/
theorem mostHardlinks_eq_some_iff :
    mostHardlinks ms = some m ↔ 1 < m.fm.nlink ∧ ∃ before after, ms = before ++ m :: after ∧
      (∀ other ∈ before, other.fm.nlink < m.fm.nlink) ∧
        ∀ other ∈ after, other.fm.nlink ≤ m.fm.nlink := by
  rw [mostHardlinks_eq, firstGreatest_eq_some_iff]
  constructor
  · rintro ⟨linked, before, after, split, more, most⟩
    refine ⟨by omega, before, after, split, fun other hother => ?_, fun other hother => ?_⟩
    · have hless := more other hother
      omega
    · have hle := most other hother
      omega
  · rintro ⟨linked, before, after, split, more, most⟩
    refine ⟨by omega, before, after, split, fun other hother => ?_, fun other hother => ?_⟩
    · have hless := more other hother
      omega
    · have hle := most other hother
      omega

/-- Clone ids that differ are not counted by one node. -/
theorem size_ne_one_of_differ (differ : ∃ a ∈ ms, ∃ b ∈ ms, a.fm.cloneId ≠ b.fm.cloneId) :
    (cloneIdCounts ms).size ≠ 1 := by
  rcases differ with ⟨a, ha, b, hb, hne⟩
  exact fun hsize => hne (size_cloneIdCounts_eq_one hsize a ha b hb)

/-- Distinct clone ids occur once. -/
theorem idCount_le_one_of_nodup (distinct : (ms.map fun m => m.fm.cloneId).Nodup) (id : Nat) :
    idCount ms id ≤ 1 := by
  have hcount := List.nodup_iff_count_le_one.mp distinct id
  rwa [List.count, List.countP_map] at hcount

/-- There are as many nodes as elements exactly when every clone id occurs once. -/
theorem size_eq_length_iff_alone :
    (cloneIdCounts ms).size = ms.length ↔ ∀ m ∈ ms, idCount ms m.fm.cloneId ≤ 1 := by
  rw [size_cloneIdCounts_eq_length_iff]
  constructor
  · exact fun distinct m _ => idCount_le_one_of_nodup distinct m.fm.cloneId
  · intro alone
    by_contra hrepeat
    rcases two_le_idCount hrepeat with ⟨twice, htwice, hcount⟩
    have hle := alone twice htwice
    omega

theorem find?_of_split {p : Member → Bool} {before after : List Member}
    (split : ms = before ++ m :: after) (hbefore : ∀ other ∈ before, p other = false)
    (hm : p m = true) : ms.find? p = some m := by
  rw [split, List.find?_append, List.find?_eq_none.mpr fun other hother => by
    simp [hbefore other hother]]
  simp [hm]

/-- The choice among single links of clone ids that differ and occur once. -/
theorem selectOrigin_of_alone (single : ∀ m ∈ ms, m.fm.nlink ≤ 1)
    (differ : ∃ a ∈ ms, ∃ b ∈ ms, a.fm.cloneId ≠ b.fm.cloneId)
    (alone : ∀ m ∈ ms, idCount ms m.fm.cloneId ≤ 1) :
    (selectOrigin ms).member = ms.find? fun m => !m.fm.compressed := by
  have hone := size_ne_one_of_differ differ
  have hlength := size_eq_length_iff_alone.mpr alone
  unfold selectOrigin
  rw [mostHardlinks_of_single single]
  simp only [hone, if_false, if_pos hlength]
  cases ms.find? fun m => !m.fm.compressed <;> rfl

/-- The choice among single links of clone ids that differ, where one of them occurs twice. -/
theorem selectOrigin_of_shared (single : ∀ m ∈ ms, m.fm.nlink ≤ 1)
    (differ : ∃ a ∈ ms, ∃ b ∈ ms, a.fm.cloneId ≠ b.fm.cloneId)
    (several : 2 ≤ idCount ms m.fm.cloneId) :
    ∃ best, (selectOrigin ms).member = some best ∧
      (ms.find? fun other => other.fm.cloneId = best.fm.cloneId) = some best ∧
        ∀ other ∈ ms, idCount ms other.fm.cloneId < idCount ms best.fm.cloneId ∨
          (idCount ms other.fm.cloneId = idCount ms best.fm.cloneId ∧
            best.fm.cloneId ≤ other.fm.cloneId) := by
  have hchosen := selectOrigin_chosen ms
  generalize selectOrigin ms = selection at hchosen
  cases hchosen with
  | mostHardlinks best mem linked =>
      have hle := single best mem
      omega
  | alreadyCloned _ same =>
      rcases differ with ⟨a, ha, b, hb, hne⟩
      exact absurd (same a ha b hb) hne
  | firstSeen _ _ distinct =>
      have hle := idCount_le_one_of_nodup distinct m.fm.cloneId
      omega
  | allCompressed _ distinct =>
      have hle := idCount_le_one_of_nodup distinct m.fm.cloneId
      omega
  | mostClones best _ _ _ first most => exact ⟨best, rfl, first, most⟩

/-- A file that the rules name is the one that is chosen. -/
theorem selectOrigin_of_bestSource {origin : Option Member} (h : BestSource ms origin) :
    (selectOrigin ms).member = origin := by
  cases h with
  | mostHardlinks before m after split linked more most =>
      unfold selectOrigin
      rw [mostHardlinks_eq_some_iff.mpr ⟨linked, before, after, split, more, most⟩]
      rfl
  | oneCloneId single same =>
      cases ms with
      | nil => rfl
      | cons m rest =>
          have hsize := size_cloneIdCounts_of_all_eq (List.cons_ne_nil m rest) same
          unfold selectOrigin
          rw [mostHardlinks_of_single single]
          simp only [hsize, if_true]
          rfl
  | mostClones before m after split single differ several first most smallest =>
      obtain ⟨best, hmember, hfind, hbest⟩ := selectOrigin_of_shared single differ several
      have hmem : m ∈ ms := by
        rw [split]
        simp
      -- both ids occur most often, and both are the smallest that do
      have hid : best.fm.cloneId = m.fm.cloneId := by
        have hmemBest := List.mem_of_find?_eq_some hfind
        have hle := most best hmemBest
        have hsmall := smallest best hmemBest
        rcases hbest m hmem with hlt | ⟨heq, hge⟩
        · omega
        · exact le_antisymm hge (hsmall heq.symm)
      have hm := find?_of_split (p := fun other => other.fm.cloneId = m.fm.cloneId) split
        (fun other hother => decide_eq_false (first other hother)) (decide_eq_true rfl)
      rw [hmember, ← hfind, hid]
      exact hm
  | firstUncompressed before m after split single differ alone compressed uncompressed =>
      rw [selectOrigin_of_alone single differ alone]
      exact find?_of_split split (fun other hother => by simp [compressed other hother])
        (by simp [uncompressed])
  | allCompressed single differ alone compressed =>
      rw [selectOrigin_of_alone single differ alone, List.find?_eq_none]
      intro m hm
      simp [compressed m hm]

/-- The rules name one file or none. -/
theorem BestSource.unique {first second : Option Member} (h : BestSource ms first)
    (h' : BestSource ms second) : first = second :=
  (selectOrigin_of_bestSource h).symm.trans (selectOrigin_of_bestSource h')

/-! ### The choice meets the rules -/

/-- What is chosen is what the rules name. -/
theorem bestSource_of_selectOrigin (ms : List Member) :
    BestSource ms (selectOrigin ms).member := by
  cases hlinks : mostHardlinks ms with
  | some m =>
      rcases mostHardlinks_eq_some_iff.mp hlinks with ⟨linked, before, after, split, more, most⟩
      have hmember : (selectOrigin ms).member = some m := by
        unfold selectOrigin
        rw [hlinks]
        rfl
      rw [hmember]
      exact .mostHardlinks before m after split linked more most
  | none =>
      have single : ∀ m ∈ ms, m.fm.nlink ≤ 1 := by
        rw [mostHardlinks_eq, firstGreatest_eq_none_iff] at hlinks
        exact fun m hm => Nat.sub_eq_zero_iff_le.mp (hlinks m hm)
      by_cases same : ∀ a ∈ ms, ∀ b ∈ ms, a.fm.cloneId = b.fm.cloneId
      · rw [selectOrigin_of_bestSource (.oneCloneId single same)]
        exact .oneCloneId single same
      · have differ : ∃ a ∈ ms, ∃ b ∈ ms, a.fm.cloneId ≠ b.fm.cloneId := by
          push Not at same
          exact same
        by_cases alone : ∀ m ∈ ms, idCount ms m.fm.cloneId ≤ 1
        · rw [selectOrigin_of_alone single differ alone]
          cases hfind : ms.find? fun m => !m.fm.compressed with
          | none => exact .allCompressed single differ alone (by simpa using hfind)
          | some m =>
              obtain ⟨hm, before, after, split, hbefore⟩ := List.find?_eq_some_iff_append.mp hfind
              exact .firstUncompressed before m after split single differ alone
                (fun other hother => by simpa using hbefore other hother) (by simpa using hm)
        · push Not at alone
          rcases alone with ⟨twice, htwice, hcount⟩
          obtain ⟨best, hmember, hfind, hbest⟩ := selectOrigin_of_shared single differ hcount
          obtain ⟨_, before, after, split, hbefore⟩ := List.find?_eq_some_iff_append.mp hfind
          rw [hmember]
          refine .mostClones before best after split single differ ?_
            (fun other hother => by simpa using hbefore other hother) (fun other hother => ?_)
            fun other hother heq => ?_
          · rcases hbest twice htwice with hlt | ⟨heq, _⟩
            · omega
            · omega
          · rcases hbest other hother with hlt | ⟨heq, _⟩
            · exact hlt.le
            · exact heq.le
          · rcases hbest other hother with hlt | ⟨_, hle⟩
            · omega
            · exact hle

end

/-! ### What `deduplicate` works from -/

/-- A call replaces from an origin: it is the loop against that element; without one it leaves the
world as it is. -/
def DeduplicatesFrom {W : Type} (calls : Calls W) (opts : Options) (list : List FileMetadata)
    (ctx : Context W) : Option Member → Prop
  | some origin => ∃ reason, deduplicate calls opts list ctx =
      replaceMembers calls opts (members list) origin (loopStart opts list origin reason ctx)
  | none => (deduplicate calls opts list ctx).world = ctx.world

/-- The rules name one file or none for every list, and `deduplicate` replaces from that file, or
nothing. -/
theorem deduplicate_bestSource {W : Type} (calls : Calls W) (opts : Options)
    (list : List FileMetadata) (ctx : Context W) :
    (∃! origin, BestSource (members list) origin) ∧
      ∀ origin, BestSource (members list) origin →
        DeduplicatesFrom calls opts list ctx origin := by
  refine ⟨⟨_, bestSource_of_selectOrigin (members list), fun other hother =>
    hother.unique (bestSource_of_selectOrigin (members list))⟩, fun origin hbest => ?_⟩
  obtain rfl := selectOrigin_of_bestSource hbest
  cases hselection : selectOrigin (members list) with
  | origin m reason => exact ⟨reason, deduplicate_of_selection calls hselection ctx⟩
  | alreadyCloned =>
      exact (deduplicate_without_origin calls opts (by simp [hselection]) ctx).2.1
  | allCompressed =>
      exact (deduplicate_without_origin calls opts (by simp [hselection]) ctx).2.1

end Dedup
