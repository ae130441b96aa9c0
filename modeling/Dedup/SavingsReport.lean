/-
Module: Dedup.SavingsReport
Purpose: When the totals of `deduplicate` are the space that is shared.  Every file but one of each
  clone id is saved already, and a call saves one file for each clone id that disappears; the loop
  counts file by file against the origin, so files that share a clone id among themselves but not
  with the origin are counted wrongly.
Imports: Dedup.SecondRun, Dedup.Lib.Counting
Trusted boundary: none
Main exports: distinctCloneIds, SavingsExact, CountedOnce, SharedOnce, savings_exact_iff,
  savings_counted_twice
-/
import Dedup.SecondRun
import Dedup.Lib.Counting

namespace Dedup

/-- How many clone ids the files of a list have. -/
def distinctCloneIds (ids : Path → Nat) (list : List FileMetadata) : Nat :=
  (keysOf (fun fm => ids fm.path) list).card

/-- A call on a list of files of one size counts the files that share storage before it as saved
already, and the clone ids that are gone after it as saved. -/
@[mk_iff]
structure SavingsExact (size : Nat) (list : List FileMetadata)
    (before after : Context CloneWorld) : Prop where
  alreadySaved : after.alreadySaved = before.alreadySaved +
    size * (list.length - distinctCloneIds before.world.cloneId list)
  saved : after.saved = before.saved +
    size * (distinctCloneIds before.world.cloneId list -
      distinctCloneIds after.world.cloneId list)

/-- The files of other clone ids than `id`. -/
def otherRecords (id : Nat) (list : List FileMetadata) : List FileMetadata :=
  list.filter fun fm => fm.cloneId ≠ id

/-- Against an origin with the clone id `id`: every other file that can be replaced is alone with
its clone id, and as many other files are not passed over as hard links as there are other clone
ids. -/
@[mk_iff]
structure CountedOnce (opts : Options) (list : List FileMetadata) (id : Nat) : Prop where
  alone : ∀ fm ∈ list, fm.cloneId ≠ id → Replaceable opts fm = true →
    cloneCount list fm.cloneId = 1
  counted : (otherRecords id list).countP (fun fm => opts.force || fm.nlink ≤ 1) =
    (keysOf FileMetadata.cloneId (otherRecords id list)).card

/-- The first record of most links, above one. -/
def FirstOfMostLinks (list : List FileMetadata) (fm : FileMetadata) : Prop :=
  ∃ before after, list = before ++ fm :: after ∧ 1 < fm.nlink ∧
    (∀ other ∈ before, other.nlink < fm.nlink) ∧ ∀ other ∈ after, other.nlink ≤ fm.nlink

/-- Where all files have one link, no two clone ids are shared; otherwise the files are counted
once against the first one of most links. -/
structure SharedOnce (opts : Options) (list : List FileMetadata) : Prop where
  single : (∀ fm ∈ list, fm.nlink ≤ 1) → ∀ a ∈ list, ∀ b ∈ list,
    2 ≤ cloneCount list a.cloneId → 2 ≤ cloneCount list b.cloneId → a.cloneId = b.cloneId
  linked : ∀ origin, FirstOfMostLinks list origin → CountedOnce opts list origin.cloneId

section Savings

variable {opts : Options} {list : List FileMetadata} {origin fm : FileMetadata} {id size : Nat}

/-! ### Counts against an origin -/

/-- The clone ids of a list are the origin's and those of the other files. -/
theorem card_keysOf_cloneId (hmem : origin ∈ list) :
    (keysOf FileMetadata.cloneId list).card =
      (keysOf FileMetadata.cloneId (otherRecords origin.cloneId list)).card + 1 :=
  card_keysOf_eq_succ ⟨origin, hmem, rfl⟩

/-- After the call they are the origin's and those of the other files that stay. -/
theorem card_keysOf_settled (hmem : origin ∈ list) :
    (keysOf (fun fm => (settled opts origin.cloneId fm).cloneId) list).card =
      (keysOf FileMetadata.cloneId
        ((otherRecords origin.cloneId list).filter fun fm => !Replaceable opts fm)).card + 1 := by
  have horigin : ∃ fm ∈ list, (settled opts origin.cloneId fm).cloneId = origin.cloneId :=
    ⟨origin, hmem, settled_cloneId_self⟩
  rw [card_keysOf_eq_succ horigin]
  congr 2
  -- a file that can be replaced has the origin's clone id, the others keep theirs
  have hstay : (list.filter fun fm =>
      (settled opts origin.cloneId fm).cloneId ≠ origin.cloneId) =
      (otherRecords origin.cloneId list).filter fun fm => !Replaceable opts fm := by
    rw [otherRecords, List.filter_filter]
    apply List.filter_congr
    intro fm _
    cases hreplace : Replaceable opts fm <;> simp [settled_cloneId, hreplace]
  rw [hstay]
  apply keysOf_congr
  intro fm hfm
  rcases List.mem_filter.mp hfm with ⟨_, hkept⟩
  exact settled_cloneId_of_kept (by simpa using hkept)

theorem length_replacedRecords_eq (opts : Options) (list : List FileMetadata) (id : Nat) :
    (replacedRecords opts id list).length = (otherRecords id list).countP (Replaceable opts) := by
  rw [replacedRecords, otherRecords, List.countP_filter, List.countP_eq_length_filter]

/-- The files that are not counted as saved already. -/
theorem length_countedRecords_add (opts : Options) (list : List FileMetadata) (id : Nat) :
    (countedRecords opts id list).length +
      (otherRecords id list).countP (fun fm => opts.force || fm.nlink ≤ 1) = list.length := by
  have hrest : (otherRecords id list).countP (fun fm => opts.force || fm.nlink ≤ 1) =
      list.countP fun fm => !Counted opts id fm := by
    rw [otherRecords, List.countP_filter]
    apply List.countP_congr
    intro fm _
    cases hforce : opts.force <;> simp [Counted, hforce]
  rw [hrest, countedRecords, ← List.countP_eq_length_filter,
    List.length_eq_countP_add_countP (Counted opts id)]
  simp

/-- Each file that can be replaced is alone with its clone id exactly when the call removes as many
clone ids as it replaces files. -/
theorem alone_iff (opts : Options) (list : List FileMetadata) (id : Nat) :
    (∀ fm ∈ list, fm.cloneId ≠ id → Replaceable opts fm = true →
        cloneCount list fm.cloneId = 1) ↔
      (otherRecords id list).countP (Replaceable opts) +
          (keysOf FileMetadata.cloneId
            ((otherRecords id list).filter fun fm => !Replaceable opts fm)).card =
        (keysOf FileMetadata.cloneId (otherRecords id list)).card := by
  have hcount : ∀ fm : FileMetadata, fm.cloneId ≠ id →
      ((otherRecords id list).filter fun other => other.cloneId = fm.cloneId).length =
        cloneCount list fm.cloneId := by
    intro fm hne
    rw [← List.countP_eq_length_filter, otherRecords, List.countP_filter]
    apply List.countP_congr
    intro other _
    simp only [Bool.and_eq_true, decide_eq_true_eq, and_iff_left_iff_imp]
    exact fun heq => heq ▸ hne
  rw [countP_add_card_keysOf_iff]
  constructor
  · intro h fm hfm hreplace
    rcases List.mem_filter.mp hfm with ⟨hin, hne⟩
    have hne : fm.cloneId ≠ id := by simpa using hne
    rw [hcount fm hne]
    exact h fm hin hne hreplace
  · intro h fm hin hne hreplace
    rw [← hcount fm hne]
    exact h fm (List.mem_filter.mpr ⟨hin, by simpa using hne⟩) hreplace

/-! ### One call -/

/-- With an origin the totals are exact when every file is counted once against it. -/
theorem savingsExact_of_origin (mode : CloneMode opts) (uniform : ∀ fm ∈ list, fm.size = size)
    {ctx : Context CloneWorld} (scan : OfOneScan list ctx.world.cloneId)
    (horigin : originRecord list = some origin) :
    SavingsExact size list ctx (deduplicate idealCalls opts list ctx) ↔
      size = 0 ∨ CountedOnce opts list origin.cloneId := by
  have done := deduplicate_of_origin mode horigin ctx
  have hmem := mem_of_originRecord horigin
  have hbefore : distinctCloneIds ctx.world.cloneId list =
      (keysOf FileMetadata.cloneId (otherRecords origin.cloneId list)).card + 1 := by
    rw [← card_keysOf_cloneId hmem, distinctCloneIds]
    congr 1
    exact keysOf_congr fun fm hfm => (scan.faithful fm hfm).symm
  have hafter : distinctCloneIds (deduplicate idealCalls opts list ctx).world.cloneId list =
      (keysOf FileMetadata.cloneId
        ((otherRecords origin.cloneId list).filter fun fm => !Replaceable opts fm)).card + 1 := by
    rw [← card_keysOf_settled hmem, distinctCloneIds]
    congr 1
    exact keysOf_congr fun fm hfm => done.cloneId_settled scan hmem hfm
  have hle : distinctCloneIds ctx.world.cloneId list ≤ list.length := card_keysOf_le _ _
  have hsaved := done.saved
  have halready := done.alreadySaved
  have huniform : ∀ p : FileMetadata → Bool, totalSize (list.filter p) =
      size * (list.filter p).length :=
    fun p => totalSize_of_uniform fun fm hfm => uniform fm (List.mem_filter.mp hfm).1
  rw [replacedRecords, huniform, ← replacedRecords, length_replacedRecords_eq] at hsaved
  rw [countedRecords, huniform, ← countedRecords, uniform origin hmem] at halready
  have hcounted := length_countedRecords_add opts list origin.cloneId
  have hkeys := Finset.card_le_card (keysOf_filter_subset FileMetadata.cloneId
    (otherRecords origin.cloneId list) fun fm => !Replaceable opts fm)
  have hexact : SavingsExact size list ctx (deduplicate idealCalls opts list ctx) ↔
      size * (countedRecords opts origin.cloneId list).length =
          size * (list.length - distinctCloneIds ctx.world.cloneId list + 1) ∧
        size * (otherRecords origin.cloneId list).countP (Replaceable opts) =
          size * (distinctCloneIds ctx.world.cloneId list -
            distinctCloneIds (deduplicate idealCalls opts list ctx).world.cloneId list) := by
    rw [savingsExact_iff, Nat.mul_succ]
    omega
  rw [hexact, countedOnce_iff, alone_iff, mul_eq_mul_left_iff, mul_eq_mul_left_iff]
  omega

/-- Without an origin they are exact. -/
theorem savingsExact_of_none (uniform : ∀ fm ∈ list, fm.size = size) {ctx : Context CloneWorld}
    (scan : OfOneScan list ctx.world.cloneId) (horigin : originRecord list = none) :
    SavingsExact size list ctx (deduplicate idealCalls opts list ctx) := by
  rcases @deduplicate_of_none opts list horigin ctx with ⟨hworld, hsaved, halready⟩
  refine ⟨?_, by rw [hsaved, hworld, Nat.sub_self, mul_zero, add_zero]⟩
  rw [halready]
  congr 1
  have hkeys :
      distinctCloneIds ctx.world.cloneId list = (keysOf FileMetadata.cloneId list).card := by
    rw [distinctCloneIds]
    congr 1
    exact keysOf_congr fun fm hfm => (scan.faithful fm hfm).symm
  have hpossible := horigin ▸ possibleOrigin_originRecord list
  rw [hkeys]
  cases hpossible with
  | alreadyCloned _ same =>
      rw [if_pos same]
      cases list with
      | nil => simp [alreadyClonedSize]
      | cons fm rest =>
          -- one clone id for all
          have hone : (keysOf FileMetadata.cloneId (fm :: rest)).card = 1 := by
            rw [Finset.card_eq_one]
            refine ⟨fm.cloneId, Finset.eq_singleton_iff_unique_mem.mpr ⟨?_, ?_⟩⟩
            · exact mem_keysOf.mpr ⟨fm, List.mem_cons_self, rfl⟩
            · intro k hk
              rcases mem_keysOf.mp hk with ⟨other, hother, rfl⟩
              exact same other hother fm List.mem_cons_self
          rw [hone, alreadyClonedSize, uniform fm List.mem_cons_self]
          simp
  | allCompressed _ distinct =>
      rw [← length_eq_card_keysOf_iff.mpr distinct, Nat.sub_self, mul_zero]
      split
      · rename_i same
        exact alreadyClonedSize_of_distinct same distinct
      · rfl

/-! ### The condition -/

theorem FirstOfMostLinks.originRecord_eq (h : FirstOfMostLinks list fm) :
    originRecord list = some fm := by
  rcases h with ⟨before, after, rfl, linked, hbefore, hafter⟩
  exact originRecord_of_firstLinked linked hbefore hafter

theorem exists_firstOfMostLinks (hfm : fm ∈ list) (linked : 1 < fm.nlink) :
    ∃ first, FirstOfMostLinks list first := by
  cases hscan : firstGreatest (fun fm => fm.nlink - 1) list with
  | none =>
      have hzero := (firstGreatest_eq_none_iff _ _).mp hscan fm hfm
      omega
  | some first =>
      rcases firstGreatest_eq_some_iff.mp hscan with ⟨hpos, before, after, hlist, hbefore, hafter⟩
      refine ⟨first, before, after, hlist, by omega, fun other hmem => ?_, fun other hmem => ?_⟩
      · have hlt := hbefore other hmem
        omega
      · have hle := hafter other hmem
        omega

/-- Among single-link files, all are counted once exactly when no clone id but the origin's is
shared. -/
theorem countedOnce_of_single (single : ∀ fm ∈ list, fm.nlink ≤ 1) :
    CountedOnce opts list id ↔ ∀ fm ∈ list, 2 ≤ cloneCount list fm.cloneId → fm.cloneId = id := by
  have hall : (otherRecords id list).countP (fun fm => opts.force || fm.nlink ≤ 1) =
      (otherRecords id list).length := by
    rw [List.countP_eq_length]
    intro fm hfm
    simp [single fm (List.mem_filter.mp hfm).1]
  have hcount : ∀ k, k ≠ id → cloneCount (otherRecords id list) k = cloneCount list k := by
    intro k hne
    rw [cloneCount, otherRecords, List.countP_filter]
    apply List.countP_congr
    intro other _
    simp only [Bool.and_eq_true, decide_eq_true_eq, and_iff_left_iff_imp]
    exact fun heq => heq ▸ hne
  constructor
  · rintro ⟨_, counted⟩ fm hfm hshared
    rw [hall, length_eq_card_keysOf_iff] at counted
    by_contra hne
    have hle := cloneCount_le_one counted fm.cloneId
    rw [hcount _ hne] at hle
    omega
  · intro h
    have hone : ∀ fm ∈ list, fm.cloneId ≠ id → cloneCount list fm.cloneId = 1 := by
      intro fm hfm hne
      have hpos : 0 < cloneCount list fm.cloneId :=
        List.countP_pos_iff.mpr ⟨fm, hfm, by simp⟩
      have hfew := mt (h fm hfm) hne
      omega
    refine ⟨fun fm hfm hne _ => hone fm hfm hne, ?_⟩
    rw [hall, length_eq_card_keysOf_iff, List.nodup_iff_count_le_one]
    intro k
    rw [List.count, List.countP_map]
    by_contra hmany
    obtain ⟨fm, hfm, hk⟩ := List.countP_pos_iff.mp (Nat.lt_trans Nat.one_pos (not_le.mp hmany))
    rcases List.mem_filter.mp hfm with ⟨hin, hne⟩
    have hne : fm.cloneId ≠ id := by simpa using hne
    obtain rfl : fm.cloneId = k := by simpa using hk
    have hsame : cloneCount (otherRecords id list) fm.cloneId = 1 := by
      rw [hcount _ hne, hone fm hin hne]
    exact hmany hsame.le

/-- Against the origin that is chosen, the files are counted once exactly under the condition on
the list. -/
theorem countedOnce_iff_sharedOnce (horigin : originRecord list = some origin) :
    CountedOnce opts list origin.cloneId ↔ SharedOnce opts list := by
  by_cases hsingle : ∀ fm ∈ list, fm.nlink ≤ 1
  · have hnone : ∀ first, ¬FirstOfMostLinks list first := by
      rintro first ⟨before, after, rfl, linked, _⟩
      have hle := hsingle first (by simp)
      omega
    have hshared : SharedOnce opts list ↔ ∀ a ∈ list, ∀ b ∈ list,
        2 ≤ cloneCount list a.cloneId → 2 ≤ cloneCount list b.cloneId → a.cloneId = b.cloneId :=
      ⟨fun h => h.single hsingle, fun h => ⟨fun _ => h, fun first h => absurd h (hnone first)⟩⟩
    have hpossible := horigin ▸ possibleOrigin_originRecord list
    rw [countedOnce_of_single hsingle, hshared]
    constructor
    · intro h a ha b hb haa hbb
      rw [h a ha haa, h b hb hbb]
    · intro h fm hfm htwice
      cases hpossible with
      | mostHardlinks _ mem linked =>
          have hle := hsingle origin mem
          omega
      | firstSeen _ _ _ distinct =>
          have hle := cloneCount_le_one distinct fm.cloneId
          omega
      | mostClones _ mem _ several => exact h fm hfm origin mem htwice several
  · push Not at hsingle
    rcases hsingle with ⟨fm, hfm, linked⟩
    have huniq : ∀ first, FirstOfMostLinks list first → first = origin := fun first hfirst =>
      Option.some.inj (hfirst.originRecord_eq.symm.trans horigin)
    obtain ⟨first, hfirst⟩ := exists_firstOfMostLinks hfm linked
    obtain rfl := huniq first hfirst
    constructor
    · intro h
      refine ⟨fun hsingle => absurd (hsingle fm hfm) (by omega), fun other hother => ?_⟩
      rwa [huniq other hother]
    · exact fun h => h.linked first hfirst

/-- Without an origin the condition holds. -/
theorem sharedOnce_of_none (horigin : originRecord list = none) : SharedOnce opts list := by
  have hpossible := horigin ▸ possibleOrigin_originRecord list
  refine ⟨fun _ a ha b hb htwice _ => ?_, fun first hfirst => ?_⟩
  · cases hpossible with
    | alreadyCloned _ same => exact same a ha b hb
    | allCompressed _ distinct =>
        have hle := cloneCount_le_one distinct a.cloneId
        omega
  · simp [hfirst.originRecord_eq] at horigin

end Savings

/-- The totals of a call are exact exactly when the files have no size, or no storage is shared but
with the origin: among single-link files at most one clone id is shared, and otherwise every file
is counted once against the first one of most links. -/
theorem savings_exact_iff (opts : Options) (mode : CloneMode opts) (list : List FileMetadata)
    (size : Nat) (uniform : ∀ fm ∈ list, fm.size = size) (ctx : Context CloneWorld)
    (scan : OfOneScan list ctx.world.cloneId) :
    SavingsExact size list ctx (deduplicate idealCalls opts list ctx) ↔
      size = 0 ∨ SharedOnce opts list := by
  cases horigin : originRecord list with
  | none =>
      exact iff_of_true (savingsExact_of_none uniform scan horigin)
        (.inr (sharedOnce_of_none horigin))
  | some origin =>
      rw [savingsExact_of_origin mode uniform scan horigin, countedOnce_iff_sharedOnce horigin]

/-- Two pairs of clones, all of one link. -/
def clonePairs : List FileMetadata :=
  [setFile 'a' 1 1, setFile 'b' 1 1, setFile 'c' 1 2, setFile 'd' 1 2]

/-- The clone ids of `clonePairs`. -/
def clonePairsIds (path : Path) : Nat :=
  if path = ['a'] ∨ path = ['b'] then 1 else 2

theorem ofOneScan_clonePairs : OfOneScan clonePairs clonePairsIds where
  faithful := by decide
  path_injective := by decide

/-- Both files of the second pair count as saved, though they shared their storage. -/
theorem savings_counted_twice :
    (∀ fm ∈ clonePairs, fm.size = 1) ∧ OfOneScan clonePairs clonePairsIds ∧
      ¬SavingsExact 1 clonePairs (startVolume clonePairsIds)
        (deduplicate idealCalls plainOptions clonePairs (startVolume clonePairsIds)) := by
  refine ⟨by decide, ofOneScan_clonePairs, fun h => ?_⟩
  exact absurd h.saved (by decide +kernel)

/-- The condition at the two pairs. -/
theorem savings_exact_iff_clonePairs :
    SavingsExact 1 clonePairs (startVolume clonePairsIds)
        (deduplicate idealCalls plainOptions clonePairs (startVolume clonePairsIds)) ↔
      1 = 0 ∨ SharedOnce plainOptions clonePairs :=
  savings_exact_iff plainOptions cloneMode_plainOptions clonePairs 1 (by decide)
    (startVolume clonePairsIds) ofOneScan_clonePairs

end Dedup
