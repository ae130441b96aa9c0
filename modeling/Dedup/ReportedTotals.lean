/-
Module: Dedup.ReportedTotals
Purpose: How the totals that `main` prints depend on the order of the visits.  The first file of a
  class is the reference for `found`, and the order of its list decides which of several possible
  origins is taken.  A class is stable when neither choice changes what is counted.
Imports: Dedup.Lib.Counting, Dedup.IdealClones, Dedup.ParallelScan
Trusted boundary: counters that do not overflow
Main exports: Totals, finalTotals, TotalsFixed, ClassStable, OriginsAgree, originsAgree_iff,
  totalsFixed_iff, totals_depend_on_order
-/
import Dedup.IdealClones
import Dedup.Lib.Counting
import Dedup.ParallelScan

namespace Dedup

open ParallelScan
open OrderedMap

/-! ### The totals -/

/-- The numbers that `main` prints. -/
structure Totals where
  found : Nat
  saved : Nat
  alreadySaved : Nat
deriving DecidableEq, Repr

/-- The lists that `main` passes to `deduplicate`, in the order of their digests. -/
def duplicateSets (tree : DuplicateTree) : List (List FileMetadata) :=
  tree.toList.map Prod.snd

/-- The totals after `deduplicate` ran on every list in clone mode, where every replacement
succeeds. -/
def finalTotals (env : ScanEnv) (opts : Options) (ctx : ScanContext) : Totals :=
  let final := deduplicateAll idealCalls opts (duplicateSets ctx.duplicates)
    { saved := 0, alreadySaved := 0, reports := [],
      world := { cloneId := env.getCloneId, calls := [] } }
  { found := ctx.found, saved := final.saved, alreadySaved := final.alreadySaved }

/-- Any two scans of the files, with any workers and in any order, end with the same totals. -/
def TotalsFixed (env : ScanEnv) (opts : Options) (fes : List FileEntry) : Prop :=
  ∀ (n n' : Nat) (todo : Fin n → List FileEntry) (todo' : Fin n' → List FileEntry)
    (s : State n) (s' : State n') (labels : List (Label n)) (labels' : List (Label n')),
    (∑ i, (todo i : Multiset FileEntry)) = fes → (∑ i, (todo' i : Multiset FileEntry)) = fes →
    Run (Step env) (State.init todo) labels s → Run (Step env) (State.init todo') labels' s' →
    s.Finished → s'.Finished → finalTotals env opts s.ctx = finalTotals env opts s'.ctx

/-- How many files with a clone id are passed over neither for their links nor as origins. -/
def eligibleWith (opts : Options) (list : List FileMetadata) (id : Nat) : Nat :=
  list.countP fun fm => (opts.force || fm.nlink ≤ 1) && fm.cloneId = id

/-- How many replaceable files have a clone id. -/
def replaceableWith (opts : Options) (list : List FileMetadata) (id : Nat) : Nat :=
  list.countP fun fm => Replaceable opts fm && fm.cloneId = id

/-- No choice that the order of a class leaves open changes what is counted: its clone ids occur
equally often; as many eligible and as many replaceable files share the clone id of each file of
most links; and where all files have one link and the clone ids differ, the uncompressed ones are
all immutable or all not. -/
structure ClassStable (opts : Options) (list : List FileMetadata) : Prop where
  found : ∀ a ∈ list, ∀ b ∈ list, cloneCount list a.cloneId = cloneCount list b.cloneId
  linked : ∀ a ∈ list, ∀ b ∈ list, 1 < a.nlink → (∀ other ∈ list, other.nlink ≤ a.nlink) →
    b.nlink = a.nlink →
      eligibleWith opts list a.cloneId = eligibleWith opts list b.cloneId ∧
        replaceableWith opts list a.cloneId = replaceableWith opts list b.cloneId
  uncompressed : (∀ fm ∈ list, fm.nlink ≤ 1) → (list.map FileMetadata.cloneId).Nodup →
    ∀ a ∈ list, ∀ b ∈ list, a.compressed = false → b.compressed = false →
      a.immutable = b.immutable

/-! ### One class -/

section Class

variable {opts : Options} {list list' : List FileMetadata}

/-- The possible origins of a list lead to the same numbers of replaced and of counted files. -/
def OriginsAgree (opts : Options) (list : List FileMetadata) : Prop :=
  ∀ a b : FileMetadata, PossibleOrigin list (some a) → PossibleOrigin list (some b) →
    (replacedRecords opts a.cloneId list).length = (replacedRecords opts b.cloneId list).length ∧
      (countedRecords opts a.cloneId list).length = (countedRecords opts b.cloneId list).length

/-- A replaceable file is replaced unless it has the origin's clone id. -/
theorem length_replacedRecords (opts : Options) (list : List FileMetadata) (id : Nat) :
    (replacedRecords opts id list).length + replaceableWith opts list id =
      list.countP (Replaceable opts) := by
  rw [replacedRecords, ← List.countP_eq_length_filter,
    ← countP_and_add_countP_and_not (Replaceable opts) (fun fm => fm.cloneId = id), add_comm]
  simp only [replaceableWith, decide_not]

/-- A hard-linked file counts, and so does an eligible one of the origin's clone id. -/
theorem length_countedRecords (opts : Options) (list : List FileMetadata) (id : Nat) :
    (countedRecords opts id list).length =
      list.countP (fun fm => !opts.force && fm.nlink > 1) + eligibleWith opts list id := by
  rw [countedRecords, ← List.countP_eq_length_filter, eligibleWith]
  simp only [Counted, countP_or]
  congr 2
  funext fm
  cases opts.force <;> simp [← decide_not]

/-- Among distinct clone ids a replaceable file is alone with its own. -/
theorem replaceableWith_of_distinct (distinct : (list.map FileMetadata.cloneId).Nodup)
    {fm : FileMetadata} (hmem : fm ∈ list) :
    replaceableWith opts list fm.cloneId = if Replaceable opts fm then 1 else 0 := by
  have hle : replaceableWith opts list fm.cloneId ≤ 1 := by
    apply le_trans _ (cloneCount_le_one distinct fm.cloneId)
    apply List.countP_mono_left
    intro other _ hother
    exact (Bool.and_eq_true_iff.mp hother).2
  have hpos : 0 < replaceableWith opts list fm.cloneId ↔ Replaceable opts fm = true := by
    rw [replaceableWith, List.countP_pos_iff]
    constructor
    · rintro ⟨other, hother, hboth⟩
      rcases Bool.and_eq_true_iff.mp hboth with ⟨hreplace, hid⟩
      rwa [← List.inj_on_of_nodup_map distinct hother hmem (by simpa using hid)]
    · intro hreplace
      exact ⟨fm, hmem, by simp [hreplace]⟩
  split
  · rename_i hreplace
    have := hpos.mpr hreplace
    omega
  · rename_i hreplace
    have := mt hpos.mp hreplace
    omega

/-- Among single-link files all are eligible. -/
theorem eligibleWith_of_single (single : ∀ fm ∈ list, fm.nlink ≤ 1) (id : Nat) :
    eligibleWith opts list id = cloneCount list id := by
  apply List.countP_congr
  intro fm hfm
  simp [single fm hfm]

/-- In a stable class the origins that are left open agree. -/
theorem ClassStable.originsAgree (stable : ClassStable opts list) : OriginsAgree opts list := by
  intro a b ha hb
  have hmemA := ha.mem
  have hmemB := hb.mem
  have hrepA := length_replacedRecords opts list a.cloneId
  have hrepB := length_replacedRecords opts list b.cloneId
  rw [length_countedRecords, length_countedRecords]
  rcases ha.same_rule hb with ⟨linked, most, heq⟩ |
    ⟨single, distinct, uncompressedA, uncompressedB⟩ | hid
  · rcases stable.linked a hmemA b hmemB linked most heq with ⟨heligible, hreplaceable⟩
    omega
  · have himmutable := stable.uncompressed single distinct a hmemA b hmemB uncompressedA
      uncompressedB
    have hsame : Replaceable opts a = Replaceable opts b := by
      simp [Replaceable, himmutable, single a hmemA, single b hmemB]
    rw [replaceableWith_of_distinct distinct hmemA, hsame] at hrepA
    rw [replaceableWith_of_distinct distinct hmemB] at hrepB
    rw [eligibleWith_of_single single, eligibleWith_of_single single,
      stable.found a hmemA b hmemB]
    omega
  · rw [hid] at hrepA ⊢
    omega

/-- The choices left open agree exactly under the conditions on links and on compression. -/
theorem originsAgree_iff (hseveral : 2 ≤ list.length)
    (found : ∀ a ∈ list, ∀ b ∈ list, cloneCount list a.cloneId = cloneCount list b.cloneId) :
    OriginsAgree opts list ↔ ClassStable opts list := by
  constructor
  · intro hagree
    refine ⟨found, ?_, ?_⟩
    · intro a ha b hb linked most heq
      have most' : ∀ other ∈ list, other.nlink ≤ b.nlink := fun other h => heq ▸ most other h
      obtain ⟨hreplaced, hcounted⟩ := hagree a b (.mostHardlinks a ha linked most)
        (.mostHardlinks b hb (heq ▸ linked) most')
      have hrepA := length_replacedRecords opts list a.cloneId
      have hrepB := length_replacedRecords opts list b.cloneId
      rw [length_countedRecords, length_countedRecords] at hcounted
      omega
    · intro single distinct a ha b hb hcompressedA hcompressedB
      obtain ⟨hreplaced, _⟩ := hagree a b
        (.firstSeen a ha single distinct (by omega) hcompressedA)
        (.firstSeen b hb single distinct (by omega) hcompressedB)
      have hrepA := length_replacedRecords opts list a.cloneId
      have hrepB := length_replacedRecords opts list b.cloneId
      rw [replaceableWith_of_distinct distinct ha] at hrepA
      rw [replaceableWith_of_distinct distinct hb] at hrepB
      have hsingleA := single a ha
      have hsingleB := single b hb
      cases hA : a.immutable <;> cases hB : b.immutable <;> simp_all [Replaceable]
  · exact fun stable => stable.originsAgree

/-- What an order of a class adds to the totals, told by its origin. -/
theorem savedBy_of_origin (opts : Options) {size : Nat} (uniform : ∀ fm ∈ list, fm.size = size)
    {order : List FileMetadata} (hperm : order.Perm list) {origin : FileMetadata}
    (horigin : originRecord order = some origin) :
    savedBy opts order = size * (replacedRecords opts origin.cloneId list).length ∧
      alreadySavedBy opts order + size =
        size * (countedRecords opts origin.cloneId list).length := by
  have hmem := mem_of_originRecord horigin
  have hself : origin ∈ countedRecords opts origin.cloneId list :=
    List.mem_filter.mpr ⟨hperm.subset hmem, by simp [Counted]⟩
  have hreplaced : totalSize (replacedRecords opts origin.cloneId order) =
      size * (replacedRecords opts origin.cloneId list).length := by
    have hlength : (replacedRecords opts origin.cloneId order).length =
        (replacedRecords opts origin.cloneId list).length := (hperm.filter _).length_eq
    rw [← hlength]
    apply totalSize_of_uniform
    exact fun fm hfm => uniform fm (hperm.subset (List.mem_filter.mp hfm).1)
  have hcounted : totalSize (countedRecords opts origin.cloneId order) =
      size * (countedRecords opts origin.cloneId list).length := by
    have hlength : (countedRecords opts origin.cloneId order).length =
        (countedRecords opts origin.cloneId list).length := (hperm.filter _).length_eq
    rw [← hlength]
    apply totalSize_of_uniform
    exact fun fm hfm => uniform fm (hperm.subset (List.mem_filter.mp hfm).1)
  have hpos : size ≤ size * (countedRecords opts origin.cloneId list).length :=
    Nat.le_mul_of_pos_right size (List.length_pos_of_mem hself)
  simp only [savedBy, alreadySavedBy, horigin, hreplaced, hcounted,
    uniform origin (hperm.subset hmem), true_and]
  omega

/-- Without an origin the order does not matter. -/
theorem savedBy_of_none (opts : Options) {size : Nat} (uniform : ∀ fm ∈ list, fm.size = size)
    {order : List FileMetadata} (hperm : order.Perm list) (horigin : originRecord order = none) :
    savedBy opts order = 0 ∧ alreadySavedBy opts order =
      if ∀ a ∈ list, ∀ b ∈ list, a.cloneId = b.cloneId then size * (list.length - 1) else 0 := by
  have hsame : (∀ a ∈ order, ∀ b ∈ order, a.cloneId = b.cloneId) ↔
      ∀ a ∈ list, ∀ b ∈ list, a.cloneId = b.cloneId := by
    simp only [hperm.mem_iff]
  have hsize : alreadyClonedSize order = size * (list.length - 1) := by
    rw [← hperm.length_eq]
    cases order with
    | nil => rfl
    | cons fm rest =>
        simp [alreadyClonedSize, uniform fm (hperm.subset List.mem_cons_self)]
  simp only [savedBy, alreadySavedBy, horigin, hsame, hsize, and_self]

/-- All orders of a class add the same to the totals exactly when its possible origins agree. -/
theorem orders_agree_iff {size : Nat} (hsize : 0 < size)
    (uniform : ∀ fm ∈ list, fm.size = size) :
    (∀ order order' : List FileMetadata, order.Perm list → order'.Perm list →
      savedBy opts order = savedBy opts order' ∧
        alreadySavedBy opts order = alreadySavedBy opts order') ↔ OriginsAgree opts list := by
  constructor
  · intro h a b ha hb
    obtain ⟨order, hperm, horigin⟩ := (possibleOrigin_iff list a).mp ha
    obtain ⟨order', hperm', horigin'⟩ := (possibleOrigin_iff list b).mp hb
    rcases h order order' hperm hperm' with ⟨hsaved, halready⟩
    rcases savedBy_of_origin opts uniform hperm horigin with ⟨hsavedA, halreadyA⟩
    rcases savedBy_of_origin opts uniform hperm' horigin' with ⟨hsavedB, halreadyB⟩
    constructor
    · apply Nat.eq_of_mul_eq_mul_left hsize
      omega
    · apply Nat.eq_of_mul_eq_mul_left hsize
      omega
  · intro h order order' hperm hperm'
    have hpossible := (possibleOrigin_originRecord order).perm hperm
    have hpossible' := (possibleOrigin_originRecord order').perm hperm'
    cases horigin : originRecord order with
    | none =>
        rw [horigin] at hpossible
        cases horigin' : originRecord order' with
        | none =>
            rcases savedBy_of_none opts uniform hperm horigin with ⟨hsaved, halready⟩
            rcases savedBy_of_none opts uniform hperm' horigin' with ⟨hsaved', halready'⟩
            exact ⟨hsaved.trans hsaved'.symm, halready.trans halready'.symm⟩
        | some b =>
            rw [horigin'] at hpossible'
            exact absurd hpossible hpossible'.not_none
    | some a =>
        rw [horigin] at hpossible
        cases horigin' : originRecord order' with
        | none =>
            rw [horigin'] at hpossible'
            exact absurd hpossible' hpossible.not_none
        | some b =>
            rw [horigin'] at hpossible'
            rcases h a b hpossible hpossible' with ⟨hreplaced, hcounted⟩
            rcases savedBy_of_origin opts uniform hperm horigin with ⟨hsaved, halready⟩
            rcases savedBy_of_origin opts uniform hperm' horigin' with ⟨hsaved', halready'⟩
            rw [hreplaced] at hsaved
            rw [hcounted] at halready
            omega

end Class

/-! ### Matches of different clone ids -/

section Found

variable {files : List (VisitedKey × FileMetadata)}

/-- The matches of a class that count for `found`. -/
def classFound (files : List (VisitedKey × FileMetadata)) (key : VisitedKey) : Nat :=
  ((FirstWins.matched files).filter fun entry => entry.1 = key).countP differs

/-- In a class all files count but those with the clone id of the first one. -/
theorem classFound_add {key : VisitedKey} {first : VisitedKey × FileMetadata}
    {rest : List (VisitedKey × FileMetadata)}
    (hclass : (files.filter fun binding => binding.1 = key) = first :: rest) :
    classFound files key + cloneCount ((first :: rest).map Prod.snd) first.2.cloneId =
      (first :: rest).length := by
  rw [classFound, FirstWins.matched_filter, hclass]
  simp only [List.countP_map, List.map_cons, cloneCount, List.countP_cons_of_pos, List.length_cons,
    decide_true]
  rw [List.length_eq_countP_add_countP
    (fun binding : VisitedKey × FileMetadata => differs (key, first.2, binding.2)) (l := rest)]
  have hcount : rest.countP (fun binding => decide ¬differs (key, first.2, binding.2) = true) =
      rest.countP ((fun fm => decide (fm.cloneId = first.2.cloneId)) ∘ Prod.snd) := by
    apply List.countP_congr
    intro binding _
    simp [differs]
  rw [hcount]
  simp only [Function.comp_def]
  omega

/-- A class without files has no matches. -/
theorem classFound_of_nil {key : VisitedKey}
    (hclass : (files.filter fun binding => binding.1 = key) = []) : classFound files key = 0 := by
  rw [classFound, FirstWins.matched_filter, hclass]
  rfl

/-- `found`, class by class. -/
theorem countP_differs_matched (files : List (VisitedKey × FileMetadata)) (keys : Finset VisitedKey)
    (h : ∀ binding ∈ files, binding.1 ∈ keys) :
    (FirstWins.matched files).countP differs = ∑ key ∈ keys, classFound files key := by
  apply countP_eq_sum
  rintro ⟨key, old, fm⟩ hmem
  rcases FirstWins.mem_matched hmem with ⟨rest, hfilter, hrest⟩
  have hin : (key, fm) ∈ files.filter fun binding => binding.1 = key := by
    rw [hfilter]
    exact List.mem_cons_of_mem _ hrest
  exact h _ (List.mem_filter.mp hin).1

/-- Two orders of the files find the same number of matches in a class whose clone ids occur
equally often. -/
theorem classFound_perm {files' : List (VisitedKey × FileMetadata)} (hperm : files.Perm files')
    {key : VisitedKey} {list : List FileMetadata}
    (hlist : ((files.filter fun binding => binding.1 = key).map Prod.snd).Perm list)
    (found : 2 ≤ list.length →
      ∀ a ∈ list, ∀ b ∈ list, cloneCount list a.cloneId = cloneCount list b.cloneId) :
    classFound files key = classFound files' key := by
  have hclasses := hperm.filter fun binding => binding.1 = key
  cases hclass : files.filter fun binding => binding.1 = key with
  | nil =>
      rw [hclass] at hclasses
      rw [classFound_of_nil hclass, classFound_of_nil (List.nil_perm.mp hclasses)]
  | cons first rest =>
      cases hclass' : files'.filter fun binding => binding.1 = key with
      | nil =>
          rw [hclass, hclass'] at hclasses
          simp at hclasses
      | cons first' rest' =>
          rw [hclass, hclass'] at hclasses
          rw [hclass] at hlist
          have hlist' := (hclasses.map Prod.snd).symm.trans hlist
          have hfound := classFound_add hclass
          have hfound' := classFound_add hclass'
          have hcount : ∀ id, cloneCount ((first :: rest).map Prod.snd) id = cloneCount list id :=
            fun id => hlist.countP_eq _
          have hcount' : ∀ id,
              cloneCount ((first' :: rest').map Prod.snd) id = cloneCount list id :=
            fun id => hlist'.countP_eq _
          have hmem : first.2 ∈ list := hlist.subset (by simp)
          have hmem' : first'.2 ∈ list := hlist'.subset (by simp)
          have hsame : cloneCount list first.2.cloneId = cloneCount list first'.2.cloneId := by
            rcases Nat.lt_or_ge list.length 2 with hshort | hlong
            · match list, hmem, hmem', hshort with
              | [_], hmem, hmem', _ =>
                  rw [List.mem_singleton.mp hmem, List.mem_singleton.mp hmem']
            · exact found hlong _ hmem _ hmem'
          have hlength := hclasses.length_eq
          rw [hcount] at hfound
          rw [hcount'] at hfound'
          omega

end Found

/-! ### All classes of a volume -/

section Volume

variable {env : ScanEnv} {fes : List FileEntry} {device : Int} {opts : Options}

/-- The files of a class have one size, and it is not zero. -/
theorem ParallelScan.OneVolume.uniform (h : OneVolume env fes device) (key : VisitedKey) :
    ∀ fm ∈ filesUnder env fes key, fm.size = key.1.size ∧ 0 < key.1.size := by
  intro fm hfm
  rcases List.mem_map.mp hfm with ⟨⟨key', fm'⟩, hfilter, rfl⟩
  rcases List.mem_filter.mp hfilter with ⟨hmem, hkey⟩
  obtain rfl : key' = key := by simpa using hkey
  rcases List.mem_filterMap.mp hmem with ⟨fe, hfe, hrecord⟩
  rcases scanRecord_leafKey hrecord with ⟨_, hsize, hfirst, _⟩
  have hleaf := (scanRecord_keys hrecord).1
  refine ⟨congrArg LeafKey.size hleaf, ?_⟩
  rw [hsize, h.size_eq fe hfe]
  apply List.length_pos_iff.mpr
  intro hnil
  simp [hnil] at hfirst

/-- The totals, told by the lists of the tree. -/
theorem finalTotals_eq (env : ScanEnv) (mode : CloneMode opts) (ctx : ScanContext) :
    finalTotals env opts ctx =
      { found := ctx.found
        saved := (ctx.duplicates.toList.map fun entry => savedBy opts entry.2).sum
        alreadySaved :=
          (ctx.duplicates.toList.map fun entry => alreadySavedBy opts entry.2).sum } := by
  unfold finalTotals
  obtain ⟨hsaved, halready⟩ := deduplicateAll_totals mode (duplicateSets ctx.duplicates)
    { saved := 0, alreadySaved := 0, reports := [],
      world := { cloneId := env.getCloneId, calls := [] } }
  simp only [hsaved, halready]
  simp [duplicateSets, Function.comp_def]

/-- Two trees that hold the classes hold, under each digest, two orders of one class or
nothing. -/
theorem ParallelScan.HoldsClasses.same {tree tree' : DuplicateTree} (h : HoldsClasses env fes tree)
    (h' : HoldsClasses env fes tree') (digest : Digest) :
    (tree[digest]? = none ∧ tree'[digest]? = none) ∨
      ∃ (key : VisitedKey) (list list' : List FileMetadata),
        2 ≤ (filesUnder env fes key).length ∧
        tree[digest]? = some list ∧ tree'[digest]? = some list' ∧
        list.Perm (filesUnder env fes key) ∧ list'.Perm (filesUnder env fes key) := by
  cases hget : tree[digest]? with
  | some list =>
      right
      rcases h.class_of_list digest list hget with ⟨key, rfl, hkey, hperm⟩
      rcases h'.list_of_class key hkey with ⟨list', hget', hperm'⟩
      exact ⟨key, list, list', hkey, rfl, hget', hperm, hperm'⟩
  | none =>
      left
      refine ⟨rfl, ?_⟩
      cases hget' : tree'[digest]? with
      | none => rfl
      | some list' =>
          rcases h'.class_of_list digest list' hget' with ⟨key, rfl, hkey, _⟩
          rcases h.list_of_class key hkey with ⟨list, hget'', _⟩
          simp [hget] at hget''

/-- A sum over the lists of two trees that agree under each digest. -/
theorem sum_lists_congr {tree tree' : DuplicateTree} (f : List FileMetadata → Nat)
    (h : ∀ digest : Digest, tree[digest]?.map f = tree'[digest]?.map f) :
    (tree.toList.map fun entry => f entry.2).sum =
      (tree'.toList.map fun entry => f entry.2).sum := by
  have hcover : ∀ digest ∈ tree, digest ∈ (tree.keys ++ tree'.keys).toFinset := by
    intro digest hmem
    simp [hmem]
  have hcover' : ∀ digest ∈ tree', digest ∈ (tree.keys ++ tree'.keys).toFinset := by
    intro digest hmem
    simp [hmem]
  rw [sum_toList tree f _ hcover, sum_toList tree' f _ hcover']
  exact Finset.sum_congr rfl fun digest _ => by rw [h]

/-- Where the classes are stable all scans end with the same totals. -/
theorem totalsFixed_of_stable (volume : OneVolume env fes device) (mode : CloneMode opts)
    (stable : ∀ key : VisitedKey, 2 ≤ (filesUnder env fes key).length →
      ClassStable opts (filesUnder env fes key)) : TotalsFixed env opts fes := by
  intro n n' todo todo' s s' labels labels' distributed distributed' run run' finished finished'
  rcases closed_of_finished distributed run finished with ⟨files, log, hfiles, hlog, htree, hfound⟩
  obtain ⟨files', log', hfiles', hlog', htree', hfound'⟩ :=
    closed_of_finished distributed' run' finished'
  have holds := volume.holdsClasses hfiles hlog htree
  have holds' := volume.holdsClasses hfiles' hlog' htree'
  have hagree : ∀ digest : Digest,
      (s.ctx.duplicates[digest]?.map (savedBy opts) =
        s'.ctx.duplicates[digest]?.map (savedBy opts)) ∧
      (s.ctx.duplicates[digest]?.map (alreadySavedBy opts) =
        s'.ctx.duplicates[digest]?.map (alreadySavedBy opts)) := by
    intro digest
    rcases holds.same holds' digest with ⟨hnone, hnone'⟩ |
      ⟨key, list, list', hkey, hget, hget', hperm, hperm'⟩
    · simp [hnone, hnone']
    · have hclass := stable key hkey
      have hpos : 0 < key.1.size := by
        obtain ⟨fm, hfm⟩ := List.exists_mem_of_length_pos
          (by omega : 0 < (filesUnder env fes key).length)
        exact (volume.uniform key fm hfm).2
      have horders := (orders_agree_iff hpos fun fm hfm => (volume.uniform key fm hfm).1).mpr
        ((originsAgree_iff hkey hclass.found).mpr hclass)
      rcases horders list list' hperm hperm' with ⟨hsaved, halready⟩
      simp [hget, hget', hsaved, halready]
  rw [finalTotals_eq env mode, finalTotals_eq env mode,
    sum_lists_congr _ fun digest => (hagree digest).1,
    sum_lists_congr _ fun digest => (hagree digest).2]
  congr 1
  rw [hfound, hfound', hlog.countP_eq, hlog'.countP_eq]
  have hcover : ∀ binding ∈ bindings env fes,
      binding.1 ∈ ((bindings env fes).map Prod.fst).toFinset := by
    intro binding hmem
    exact List.mem_toFinset.mpr (List.mem_map_of_mem hmem)
  rw [countP_differs_matched files _ fun binding hmem => hcover binding (hfiles.subset hmem),
    countP_differs_matched files' _ fun binding hmem => hcover binding (hfiles'.subset hmem)]
  apply Finset.sum_congr rfl
  intro key _
  exact classFound_perm (hfiles.trans hfiles'.symm) ((hfiles.filter _).map _)
    fun hkey => (stable key hkey).found

/-- A list whose images stand in another order comes from the list in another order. -/
theorem exists_perm_filterMap {α β : Type} (f : α → Option β) {images images' : List β}
    (hperm : images.Perm images') :
    ∀ items : List α, items.filterMap f = images' →
      ∃ items' : List α, items'.Perm items ∧ items'.filterMap f = images := by
  induction hperm with
  | nil => exact fun items hitems => ⟨items, List.Perm.refl _, hitems⟩
  | cons image _ ih =>
      intro items hitems
      obtain ⟨before, item, after, rfl, hbefore, hitem, hafter⟩ :=
        List.filterMap_eq_cons_iff.mp hitems
      rcases ih after hafter with ⟨after', hperm', hafter'⟩
      refine ⟨before ++ item :: after', (hperm'.cons item).append_left before, ?_⟩
      rw [List.filterMap_append, List.filterMap_eq_nil_iff.mpr hbefore,
        List.filterMap_cons_some hitem, hafter', List.nil_append]
  | swap image image' rest =>
      intro items hitems
      obtain ⟨before, item, after, rfl, hbefore, hitem, hafter⟩ :=
        List.filterMap_eq_cons_iff.mp hitems
      obtain ⟨before', item', after', rfl, hbefore', hitem', hafter'⟩ :=
        List.filterMap_eq_cons_iff.mp hafter
      refine ⟨before ++ (item' :: item :: (before' ++ after')), ?_, ?_⟩
      · apply List.Perm.append_left
        exact (List.Perm.swap item item' _).trans (List.perm_middle.symm.cons item)
      · rw [List.filterMap_append, List.filterMap_eq_nil_iff.mpr hbefore,
          List.filterMap_cons_some hitem', List.filterMap_cons_some hitem, List.filterMap_append,
          List.filterMap_eq_nil_iff.mpr hbefore', hafter']
        rfl
  | trans _ _ ih ih' =>
      intro items hitems
      rcases ih' items hitems with ⟨middle, hperm, hmiddle⟩
      rcases ih middle hmiddle with ⟨items', hperm', hitems'⟩
      exact ⟨items', hperm'.trans hperm, hitems'⟩

/-- The files may be visited in any other order. -/
theorem ParallelScan.OneVolume.perm (h : OneVolume env fes device) {order : List FileEntry}
    (hperm : order.Perm fes) : OneVolume env order device where
  device_eq := fun fe hfe => h.device_eq fe (hperm.subset hfe)
  size_eq := fun fe hfe => h.size_eq fe (hperm.subset hfe)
  faithful := fun a ha b hb => h.faithful a (hperm.subset ha) b (hperm.subset hb)

/-- The bindings of the other classes. -/
def otherBindings (env : ScanEnv) (fes : List FileEntry) (key : VisitedKey) :
    List (VisitedKey × FileMetadata) :=
  (bindings env fes).filter fun binding => binding.1 ≠ key

/-- The bindings of a class. -/
def classBindings (key : VisitedKey) (list : List FileMetadata) :
    List (VisitedKey × FileMetadata) :=
  list.map fun fm => (key, fm)

theorem classBindings_filesUnder (env : ScanEnv) (fes : List FileEntry) (key : VisitedKey) :
    classBindings key (filesUnder env fes key) =
      (bindings env fes).filter fun binding => binding.1 = key := by
  rw [classBindings, filesUnder, List.map_map]
  conv_rhs => rw [← List.map_id ((bindings env fes).filter fun binding => binding.1 = key)]
  apply List.map_congr_left
  rintro ⟨key', fm⟩ hmem
  obtain rfl : key' = key := by simpa using (List.mem_filter.mp hmem).2
  rfl

/-- One class in a given order, and then the others. -/
theorem exists_order {key : VisitedKey} {list : List FileMetadata}
    (hlist : list.Perm (filesUnder env fes key)) :
    ∃ order : List FileEntry, order.Perm fes ∧
      bindings env order = classBindings key list ++ otherBindings env fes key := by
  apply exists_perm_filterMap (scanRecord env) _ fes rfl
  have hclass : (classBindings key list).Perm
      ((bindings env fes).filter fun binding => binding.1 = key) := by
    rw [← classBindings_filesUnder]
    exact hlist.map _
  refine (hclass.append_right _).trans ?_
  have hsplit :=
    List.filter_append_perm (fun binding => decide (binding.1 = key)) (bindings env fes)
  have hothers : otherBindings env fes key =
      (bindings env fes).filter fun binding => !decide (binding.1 = key) := by
    simp [otherBindings]
  rw [hothers]
  exact hsplit

theorem filter_classBindings (key key' : VisitedKey) (list : List FileMetadata) :
    (classBindings key list).filter (fun binding => binding.1 = key') =
      if key = key' then classBindings key list else [] := by
  split
  · rename_i hkey
    apply List.filter_eq_self.mpr
    intro binding hmem
    rcases List.mem_map.mp hmem with ⟨fm, _, rfl⟩
    simp [hkey]
  · rename_i hkey
    apply List.filter_eq_nil_iff.mpr
    intro binding hmem
    rcases List.mem_map.mp hmem with ⟨fm, _, rfl⟩
    simp [hkey]

theorem filter_otherBindings_self (key : VisitedKey) :
    (otherBindings env fes key).filter (fun binding => binding.1 = key) = [] := by
  rw [otherBindings, List.filter_filter, List.filter_eq_nil_iff]
  intro binding _
  simp

/-- A serial scan that visits one class in a given order, and then the others: what is found in
the other classes, and the other lists, do not depend on the order. -/
structure ClassFirst (env : ScanEnv) (fes : List FileEntry) (key : VisitedKey)
    (list : List FileMetadata) (ctx : ScanContext) : Prop where
  found : ∀ keys : Finset VisitedKey, (∀ binding ∈ bindings env fes, binding.1 ∈ keys) →
    ctx.found = ∑ key' ∈ keys,
      classFound (classBindings key list ++ otherBindings env fes key) key'
  own : ctx.duplicates[key.2]? = some list
  others : ∀ digest : Digest, digest ≠ key.2 → ctx.duplicates[digest]? =
    ((bindings env fes).find? fun binding => binding.1.2 = digest).bind fun binding =>
      joined (((FirstWins.matched (otherBindings env fes key)).filter fun entry =>
        entry.1 = binding.1).map Prod.snd)

/-- The matches of a key read the bindings of that key only. -/
theorem matched_filter_congr {files files' : List (VisitedKey × FileMetadata)} {key : VisitedKey}
    (h : files.filter (fun binding => binding.1 = key) =
      files'.filter fun binding => binding.1 = key) :
    (FirstWins.matched files).filter (fun entry => entry.1 = key) =
      (FirstWins.matched files').filter fun entry => entry.1 = key := by
  rw [FirstWins.matched_filter, FirstWins.matched_filter, h]

/-- Such a scan exists, for every order of the class. -/
theorem exists_classFirst (volume : OneVolume env fes device) {key : VisitedKey}
    {list : List FileMetadata} (hlist : list.Perm (filesUnder env fes key))
    (hseveral : 2 ≤ list.length) :
    ∃ order : List FileEntry, order.Perm fes ∧
      ClassFirst env fes key list (visitAll env order) := by
  rcases exists_order hlist with ⟨order, hperm, hbindings⟩
  have hdescribes := describes_visitAll env order
  have hvolume := volume.perm hperm
  have hbindingsPerm : (bindings env order).Perm (bindings env fes) := hperm.filterMap _
  refine ⟨order, hperm, ?_, ?_, ?_⟩
  · intro keys hcover
    rw [hdescribes.found, ← hbindings]
    exact countP_differs_matched _ keys fun binding hmem =>
      hcover binding (hbindingsPerm.subset hmem)
  · match list, hseveral with
    | first :: second :: rest, _ =>
        have hmem : (key, first) ∈ bindings env order := by
          rw [hbindings]
          simp [classBindings]
        rw [hvolume.getElem?_eq_joined (List.Perm.refl _) (List.Perm.refl _)
          hdescribes.duplicates hmem, FirstWins.matched_filter, hbindings,
          List.filter_append, filter_classBindings, if_pos rfl, filter_otherBindings_self]
        simp [classBindings, joined, Function.comp_def]
  · intro digest hdigest
    cases hfind : (bindings env fes).find? fun binding => binding.1.2 = digest with
    | none =>
        -- no file has the digest
        cases hget : (visitAll env order).duplicates[digest]? with
        | none => rfl
        | some other =>
            have holds := hvolume.holdsClasses (List.Perm.refl _) (List.Perm.refl _)
              hdescribes.duplicates
            rcases holds.class_of_list digest other hget with ⟨key', rfl, hkey', _⟩
            obtain ⟨fm, hmem⟩ := exists_binding_of_length_pos
              (by omega : 0 < (filesUnder env order key').length)
            have hnone := List.find?_eq_none.mp hfind _ (hbindingsPerm.subset hmem)
            simp at hnone
    | some binding =>
        rcases binding with ⟨key', fm⟩
        obtain rfl : key'.2 = digest := by simpa using List.find?_some hfind
        have hmem := List.mem_of_find?_eq_some hfind
        have hkey : key' ≠ key := by
          rintro rfl
          exact hdigest rfl
        rw [hvolume.getElem?_eq_joined (List.Perm.refl _) (List.Perm.refl _)
          hdescribes.duplicates (hbindingsPerm.symm.subset hmem), hbindings,
          Option.bind_some]
        congr 2
        apply matched_filter_congr
        rw [List.filter_append, filter_classBindings, if_neg hkey.symm, List.nil_append]

/-- A serial scan is one of the scans of the files. -/
theorem TotalsFixed.serial (h : TotalsFixed env opts fes) {order order' : List FileEntry}
    (hperm : order.Perm fes) (hperm' : order'.Perm fes) :
    finalTotals env opts (visitAll env order) = finalTotals env opts (visitAll env order') := by
  rcases run_visitAll env order with ⟨s, labels, run, finished, hctx⟩
  rcases run_visitAll env order' with ⟨s', labels', run', finished', hctx'⟩
  rw [← hctx, ← hctx']
  apply h 1 1 (fun _ => order) (fun _ => order') s s' labels labels' _ _ run run' finished finished'
  · simpa using Multiset.coe_eq_coe.mpr hperm
  · simpa using Multiset.coe_eq_coe.mpr hperm'

/-- Trees that agree except under one digest have equal sums only if they agree there. -/
theorem eq_of_sum_lists_eq {tree tree' : DuplicateTree} (f : List FileMetadata → Nat)
    {digest : Digest} {list list' : List FileMetadata} (hget : tree[digest]? = some list)
    (hget' : tree'[digest]? = some list')
    (hothers : ∀ other : Digest, other ≠ digest → tree[other]? = tree'[other]?)
    (hsum : (tree.toList.map fun entry => f entry.2).sum =
      (tree'.toList.map fun entry => f entry.2).sum) : f list = f list' := by
  have hcover : ∀ other ∈ tree, other ∈ insert digest (tree.keys ++ tree'.keys).toFinset := by
    intro other hmem
    simp [hmem]
  have hcover' : ∀ other ∈ tree', other ∈ insert digest (tree.keys ++ tree'.keys).toFinset := by
    intro other hmem
    simp [hmem]
  have hmem : digest ∈ insert digest (tree.keys ++ tree'.keys).toFinset :=
    Finset.mem_insert_self ..
  rw [sum_toList tree f _ hcover, sum_toList tree' f _ hcover',
    ← Finset.add_sum_erase _ _ hmem, ← Finset.add_sum_erase _ _ hmem] at hsum
  have hrest : ∑ other ∈ (insert digest (tree.keys ++ tree'.keys).toFinset).erase digest,
        (tree[other]?.map f).getD 0 =
      ∑ other ∈ (insert digest (tree.keys ++ tree'.keys).toFinset).erase digest,
        (tree'[other]?.map f).getD 0 :=
    Finset.sum_congr rfl fun other hother => by rw [hothers other (Finset.ne_of_mem_erase hother)]
  rw [hrest, hget, hget'] at hsum
  simpa using hsum

/-- Two orders of one class, with the other classes visited alike, find the same number of
duplicates in it and add the same to the totals. -/
theorem TotalsFixed.class_eq (fixed : TotalsFixed env opts fes)
    (volume : OneVolume env fes device) (mode : CloneMode opts) {key : VisitedKey}
    (hseveral : 2 ≤ (filesUnder env fes key).length) {list list' : List FileMetadata}
    (hlist : list.Perm (filesUnder env fes key)) (hlist' : list'.Perm (filesUnder env fes key)) :
    classFound (classBindings key list ++ otherBindings env fes key) key =
        classFound (classBindings key list' ++ otherBindings env fes key) key ∧
      savedBy opts list = savedBy opts list' ∧
        alreadySavedBy opts list = alreadySavedBy opts list' := by
  obtain ⟨order, hperm, hfirst⟩ := exists_classFirst volume hlist (hlist.length_eq ▸ hseveral)
  obtain ⟨order', hperm', hfirst'⟩ :=
    exists_classFirst volume hlist' (hlist'.length_eq ▸ hseveral)
  have hsame := fixed.serial hperm hperm'
  rw [finalTotals_eq env mode, finalTotals_eq env mode, Totals.mk.injEq] at hsame
  rcases hsame with ⟨hfound, hsaved, halready⟩
  have hothers : ∀ digest : Digest, digest ≠ key.2 →
      (visitAll env order).duplicates[digest]? = (visitAll env order').duplicates[digest]? :=
    fun digest hdigest =>
      (hfirst.others digest hdigest).trans (hfirst'.others digest hdigest).symm
  refine ⟨?_, eq_of_sum_lists_eq _ hfirst.own hfirst'.own hothers hsaved,
    eq_of_sum_lists_eq _ hfirst.own hfirst'.own hothers halready⟩
  obtain ⟨fm, hmem⟩ := exists_binding_of_length_pos
    (by omega : 0 < (filesUnder env fes key).length)
  have hkey : key ∈ ((bindings env fes).map Prod.fst).toFinset :=
    List.mem_toFinset.mpr (List.mem_map_of_mem hmem)
  have hcover : ∀ binding ∈ bindings env fes,
      binding.1 ∈ ((bindings env fes).map Prod.fst).toFinset :=
    fun binding hmem => List.mem_toFinset.mpr (List.mem_map_of_mem hmem)
  rw [hfirst.found _ hcover, hfirst'.found _ hcover, ← Finset.add_sum_erase _ _ hkey,
    ← Finset.add_sum_erase _ _ hkey] at hfound
  have hrest : ∀ key' ∈ ((bindings env fes).map Prod.fst).toFinset.erase key,
      classFound (classBindings key list ++ otherBindings env fes key) key' =
        classFound (classBindings key list' ++ otherBindings env fes key) key' := by
    intro key' hkey'
    have hne := Finset.ne_of_mem_erase hkey'
    unfold classFound
    rw [matched_filter_congr]
    simp only [List.filter_append, filter_classBindings, if_neg hne.symm]
  rw [Finset.sum_congr rfl hrest] at hfound
  exact Nat.add_right_cancel hfound

/-- With a file first, all files of its class are found but those of its clone id. -/
theorem classFound_head (fes : List FileEntry) {key : VisitedKey} {a : FileMetadata}
    (ha : a ∈ filesUnder env fes key) :
    classFound (classBindings key (a :: (filesUnder env fes key).erase a) ++
        otherBindings env fes key) key + cloneCount (filesUnder env fes key) a.cloneId =
      (filesUnder env fes key).length := by
  have hlist : (a :: (filesUnder env fes key).erase a).Perm (filesUnder env fes key) :=
    (List.perm_cons_erase ha).symm
  have hclass : (classBindings key (a :: (filesUnder env fes key).erase a) ++
      otherBindings env fes key).filter (fun binding => binding.1 = key) =
      (key, a) :: classBindings key ((filesUnder env fes key).erase a) := by
    rw [List.filter_append, filter_classBindings, if_pos rfl, filter_otherBindings_self,
      List.append_nil]
    rfl
  have hadd := classFound_add hclass
  have hmap : ((key, a) :: classBindings key ((filesUnder env fes key).erase a)).map Prod.snd =
      a :: (filesUnder env fes key).erase a := by
    simp [classBindings, Function.comp_def]
  rw [hmap, cloneCount, hlist.countP_eq, ← List.length_map (f := Prod.snd), hmap,
    hlist.length_eq] at hadd
  exact hadd

/-- Where all scans end with the same totals the classes are stable. -/
theorem stable_of_totalsFixed (volume : OneVolume env fes device) (mode : CloneMode opts)
    (fixed : TotalsFixed env opts fes) {key : VisitedKey}
    (hseveral : 2 ≤ (filesUnder env fes key).length) :
    ClassStable opts (filesUnder env fes key) := by
  have hpos : 0 < key.1.size := by
    obtain ⟨fm, hfm⟩ := List.exists_mem_of_length_pos
      (by omega : 0 < (filesUnder env fes key).length)
    exact (volume.uniform key fm hfm).2
  have hagree : OriginsAgree opts (filesUnder env fes key) :=
    (orders_agree_iff hpos fun fm hfm => (volume.uniform key fm hfm).1).mp
      fun list list' hlist hlist' => (fixed.class_eq volume mode hseveral hlist hlist').2
  refine (originsAgree_iff hseveral ?_).mp hagree
  intro a ha b hb
  have hfound := (fixed.class_eq volume mode hseveral (List.perm_cons_erase ha).symm
    (List.perm_cons_erase hb).symm).1
  have hcountA := classFound_head fes ha
  have hcountB := classFound_head fes hb
  omega

end Volume

/-- The totals that `main` prints are the same for all scans of the files of one volume, in clone
mode with every replacement succeeding, exactly when every class of at least two files is
stable. -/
theorem totalsFixed_iff (env : ScanEnv) (fes : List FileEntry) (device : Int)
    (volume : OneVolume env fes device) (opts : Options) (mode : CloneMode opts) :
    TotalsFixed env opts fes ↔
      ∀ key : VisitedKey, 2 ≤ (filesUnder env fes key).length →
        ClassStable opts (filesUnder env fes key) :=
  ⟨fun fixed _ hseveral => stable_of_totalsFixed volume mode fixed hseveral,
    totalsFixed_of_stable volume mode⟩

/-- Two files that are clones of each other, and a third one that is not. -/
def clonedPair : List FileEntry :=
  [oneByteFile 1 ['a'], oneByteFile 1 ['b'], oneByteFile 1 ['c']]

/-- The content and the clone ids of `clonedPair`. -/
def clonedPairEnv : ScanEnv :=
  { oneByteEnv with cloneId := fun path => some (if path = ['c'] then 2 else 1) }

theorem oneVolume_clonedPair : OneVolume clonedPairEnv clonedPair 1 where
  device_eq := by simp [clonedPair, oneByteFile]
  size_eq := by simp [clonedPair, clonedPairEnv, oneByteFile, oneByteEnv]
  faithful := by simp [clonedPair, clonedPairEnv, oneByteEnv]

/-- One duplicate is found when the pair is visited first, and two when the third file is. -/
theorem totals_depend_on_order : ¬TotalsFixed clonedPairEnv plainOptions clonedPair := by
  intro fixed
  have hsame := fixed.serial (List.Perm.refl clonedPair)
    (by decide : [oneByteFile 1 ['c'], oneByteFile 1 ['a'], oneByteFile 1 ['b']].Perm clonedPair)
  have hfound : (1 : Nat) = 2 := congrArg Totals.found hsame
  exact absurd hfound (by decide)

/-- The condition at the three files. -/
theorem totalsFixed_iff_clonedPair :
    TotalsFixed clonedPairEnv plainOptions clonedPair ↔
      ∀ key : VisitedKey, 2 ≤ (filesUnder clonedPairEnv clonedPair key).length →
        ClassStable plainOptions (filesUnder clonedPairEnv clonedPair key) :=
  totalsFixed_iff clonedPairEnv clonedPair 1 oneVolume_clonedPair plainOptions
    cloneMode_plainOptions

end Dedup
