/-
Module: Dedup.SecondRun
Purpose: What a second run in clone mode finds to do.  The first run leaves every replaceable
  file with the clone id of its origin, so the second run has nothing to do unless it takes an
  origin of another clone id.  Two choices do not settle: among the elements of most hard links,
  and among distinct uncompressed files of which one alone can be replaced.
Imports: Dedup.IdealClones
Trusted boundary: none
Main exports: rescan, runOnce, SecondRunIdle, TiedHardLinks, LoneMutable, secondRun_idle_iff,
  secondRun_replaces_again
-/
import Dedup.IdealClones

namespace Dedup

/-- The record of a file read again, when nothing but its clone id may have changed. -/
def rescan (ids : Path → Nat) (fm : FileMetadata) : FileMetadata :=
  { fm with cloneId := ids fm.path }

/-- The clone ids after `deduplicate` on one list, with the calls it made. -/
def runOnce (opts : Options) (list : List FileMetadata) (ids : Path → Nat) : CloneWorld :=
  (deduplicate idealCalls opts list
    { saved := 0, alreadySaved := 0, reports := [],
      world := { cloneId := ids, calls := [] } }).world

/-- Whatever the orders of the list in the two runs, the second one replaces nothing. -/
def SecondRunIdle (opts : Options) (set : List FileMetadata) (ids : Path → Nat) : Prop :=
  ∀ first second : List FileMetadata, first.Perm set →
    second.Perm (set.map (rescan (runOnce opts first ids).cloneId)) →
      (runOnce opts second (runOnce opts first ids).cloneId).calls = []

/-- The records of a duplicate set carry the present clone ids, and a path has one record. -/
structure OfOneScan (set : List FileMetadata) (ids : Path → Nat) : Prop where
  faithful : ∀ fm ∈ set, fm.cloneId = ids fm.path
  path_injective : ∀ a ∈ set, ∀ b ∈ set, a.path = b.path → a = b

/-- Two files of most hard links differ in clone id, the first run can leave one of them as it is,
and some file can be replaced. -/
def TiedHardLinks (opts : Options) (set : List FileMetadata) : Prop :=
  ∃ a ∈ set, ∃ b ∈ set, 1 < a.nlink ∧ (∀ other ∈ set, other.nlink ≤ a.nlink) ∧
    b.nlink = a.nlink ∧ a.cloneId ≠ b.cloneId ∧ Replaceable opts b = false ∧
    ∃ fm ∈ set, Replaceable opts fm = true

/-- Single-link files of distinct clone ids, of which exactly one can be replaced; it is not
compressed, and neither is some other one. -/
def LoneMutable (opts : Options) (set : List FileMetadata) : Prop :=
  (∀ fm ∈ set, fm.nlink ≤ 1) ∧ (set.map FileMetadata.cloneId).Nodup ∧
    ∃ lone ∈ set, Replaceable opts lone = true ∧
      (∀ fm ∈ set, Replaceable opts fm = true → fm = lone) ∧ lone.compressed = false ∧
      ∃ other ∈ set, other ≠ lone ∧ other.compressed = false

/-- A record after a first run whose origin had the clone id `id`. -/
def settled (opts : Options) (id : Nat) (fm : FileMetadata) : FileMetadata :=
  { fm with cloneId := if Replaceable opts fm then id else fm.cloneId }

section Runs

variable {opts : Options} {set : List FileMetadata} {ids : Path → Nat} {id : Nat}
  {fm origin : FileMetadata}

@[simp] theorem settled_nlink : (settled opts id fm).nlink = fm.nlink := rfl

@[simp] theorem replaceable_settled :
    Replaceable opts (settled opts id fm) = Replaceable opts fm := rfl

theorem settled_cloneId :
    (settled opts id fm).cloneId = if Replaceable opts fm then id else fm.cloneId := rfl

@[simp] theorem settled_cloneId_self :
    (settled opts origin.cloneId origin).cloneId = origin.cloneId := by
  simp [settled_cloneId]

theorem settled_cloneId_of_kept (h : Replaceable opts fm = false) :
    (settled opts id fm).cloneId = fm.cloneId := by
  simp [settled_cloneId, h]

/-- A run calls no replacement exactly when all replaceable files have the origin's clone id. -/
theorem runOnce_calls_eq_nil_iff (hmode : CloneMode opts) (list : List FileMetadata)
    (ids : Path → Nat) :
    (runOnce opts list ids).calls = [] ↔ ∀ origin, originRecord list = some origin →
      ∀ fm ∈ list, Replaceable opts fm = true → fm.cloneId = origin.cloneId := by
  unfold runOnce
  cases horigin : originRecord list with
  | none => simp [(deduplicate_of_none horigin _).1]
  | some origin =>
      rw [(deduplicate_of_origin hmode horigin _).calls]
      simp [replacedRecords]

theorem OfOneScan.perm (scan : OfOneScan set ids) {list : List FileMetadata}
    (hperm : list.Perm set) : OfOneScan list ids where
  faithful other h := scan.faithful other (hperm.subset h)
  path_injective a ha b hb := scan.path_injective a (hperm.subset ha) b (hperm.subset hb)

/-- What a call leaves of a clone id, where it has an origin. -/
theorem RecordsDone.cloneId_settled {before after : Context CloneWorld}
    (done : RecordsDone opts origin set before after)
    (scan : OfOneScan set before.world.cloneId) (hmem : origin ∈ set) (hfm : fm ∈ set) :
    after.world.cloneId fm.path = (settled opts origin.cloneId fm).cloneId := by
  rw [done.cloneId, settled_cloneId, ← scan.faithful origin hmem, ← scan.faithful fm hfm]
  split
  · rename_i hreplaced
    rcases hreplaced with ⟨other, hother, hpath⟩
    rcases List.mem_filter.mp hother with ⟨hin, hboth⟩
    obtain rfl := scan.path_injective other hin fm hfm hpath
    have hboth := Bool.and_eq_true_iff.mp hboth
    rw [if_pos hboth.1]
  · rename_i hkept
    split
    · rename_i hreplaceable
      -- a replaceable file that was not replaced has the origin's clone id
      by_contra hne
      refine hkept ⟨fm, List.mem_filter.mpr ⟨hfm, ?_⟩, rfl⟩
      simpa [hreplaceable] using hne
    · rfl

/-- What the first run leaves of a record, where it has an origin. -/
theorem rescan_runOnce (hmode : CloneMode opts) (scan : OfOneScan set ids)
    {first : List FileMetadata} (hperm : first.Perm set)
    (horigin : originRecord first = some origin)
    (hfm : fm ∈ set) :
    rescan (runOnce opts first ids).cloneId fm = settled opts origin.cloneId fm := by
  have hcloneId : (runOnce opts first ids).cloneId fm.path =
      (settled opts origin.cloneId fm).cloneId :=
    (deduplicate_of_origin hmode horigin _).cloneId_settled (scan.perm hperm)
      (mem_of_originRecord horigin) (hperm.symm.subset hfm)
  rw [rescan, hcloneId]
  rfl

theorem map_rescan_runOnce (hmode : CloneMode opts) (scan : OfOneScan set ids)
    {first : List FileMetadata} (hperm : first.Perm set)
    (horigin : originRecord first = some origin) :
    set.map (rescan (runOnce opts first ids).cloneId) =
      set.map (settled opts origin.cloneId) :=
  List.map_congr_left fun _ hfm => rescan_runOnce hmode scan hperm horigin hfm

/-- Without an origin the first run leaves the records as they are. -/
theorem map_rescan_of_none (scan : OfOneScan set ids) {first : List FileMetadata}
    (horigin : originRecord first = none) :
    set.map (rescan (runOnce opts first ids).cloneId) = set := by
  rw [runOnce, (deduplicate_of_none horigin _).1]
  conv_rhs => rw [← List.map_id set]
  apply List.map_congr_left
  intro fm hfm
  simp [rescan, ← scan.faithful fm hfm]

/-! ### Clone counts after the first run -/

/-- No clone id but the origin's gains files. -/
theorem cloneCount_settled_le (opts : Options) (set : List FileMetadata) {other : Nat}
    (h : other ≠ id) :
    cloneCount (set.map (settled opts id)) other ≤ cloneCount set other := by
  rw [cloneCount, List.countP_map]
  apply List.countP_mono_left
  intro fm _ hother
  have hother : (settled opts id fm).cloneId = other := by simpa using hother
  rw [settled_cloneId] at hother
  split at hother
  · exact absurd hother.symm h
  · simpa using hother

/-- The origin's clone id loses none. -/
theorem le_cloneCount_settled (opts : Options) (set : List FileMetadata) (id : Nat) :
    cloneCount set id ≤ cloneCount (set.map (settled opts id)) id := by
  rw [cloneCount, cloneCount, List.countP_map]
  apply List.countP_mono_left
  intro fm _ hid
  have hid : fm.cloneId = id := by simpa using hid
  simp [settled_cloneId, hid]

/-! ### The second choice -/

/-- If the clone ids are still distinct after the first run, no file but its origin was
replaceable. -/
theorem replaceable_eq_of_distinct
    (distinct : ((set.map (settled opts origin.cloneId)).map FileMetadata.cloneId).Nodup)
    (mem : origin ∈ set) (hfm : fm ∈ set) (hreplace : Replaceable opts fm = true) :
    fm = origin := by
  rw [List.map_map] at distinct
  apply List.inj_on_of_nodup_map distinct hfm mem
  simp [settled_cloneId, hreplace]

/-- Where no two choices of the second run are left open, it takes an origin of the same clone
id, or nothing can be replaced. -/
theorem second_origin_cloneId (tied : ¬TiedHardLinks opts set) (lone : ¬LoneMutable opts set)
    (hfirst : PossibleOrigin set (some origin)) {next : FileMetadata}
    (hnext : PossibleOrigin (set.map (settled opts origin.cloneId)) (some next))
    (hreplaceable : ∃ fm ∈ set, Replaceable opts fm = true) :
    next.cloneId = origin.cloneId := by
  obtain ⟨second, hsecond, rfl⟩ := List.mem_map.mp hnext.mem
  have mem := hfirst.mem
  rw [settled_cloneId]
  split
  · rfl
  · rename_i hkept
    have hkept : Replaceable opts second = false := by simpa using hkept
    -- a file that was not replaced was chosen: show that its clone id is the origin's
    by_contra hne
    have hsingle : (∀ fm ∈ set.map (settled opts origin.cloneId), fm.nlink ≤ 1) →
        origin.nlink ≤ 1 :=
      fun h => h (settled opts origin.cloneId origin) (List.mem_map_of_mem mem)
    cases hfirst with
    | mostHardlinks _ _ linked most =>
        cases hnext with
        | mostHardlinks _ _ _ most' =>
            have hle := most second hsecond
            have hge := most' _ (List.mem_map_of_mem mem)
            simp only [settled_nlink] at hge
            exact tied ⟨origin, mem, second, hsecond, linked, most, by omega, Ne.symm hne, hkept,
              hreplaceable⟩
        | firstSeen _ _ single =>
            have hle := hsingle single
            omega
        | mostClones _ _ single =>
            have hle := hsingle single
            omega
    | firstSeen _ _ single distinct several uncompressed =>
        cases hnext with
        | mostHardlinks _ _ linked =>
            have hle := single second hsecond
            simp only [settled_nlink] at linked
            omega
        | firstSeen _ _ _ distinct' _ uncompressed' =>
            -- then nothing was replaced, so the origin alone can be
            have honly : ∀ fm ∈ set, Replaceable opts fm = true → fm = origin :=
              fun fm hfm hreplace => replaceable_eq_of_distinct distinct' mem hfm hreplace
            rcases hreplaceable with ⟨fm, hfm, hreplace⟩
            obtain rfl := honly fm hfm hreplace
            refine lone ⟨single, distinct, fm, mem, hreplace, honly, uncompressed, second, hsecond,
              ?_, uncompressed'⟩
            rintro rfl
            exact hne rfl
        | mostClones _ _ _ several' =>
            rw [settled_cloneId_of_kept hkept] at several'
            have hle := cloneCount_settled_le opts set hne
            have hone := cloneCount_le_one distinct second.cloneId
            omega
    | mostClones _ _ single several differ most =>
        have hgain := le_cloneCount_settled opts set origin.cloneId
        cases hnext with
        | mostHardlinks _ _ linked =>
            have hle := single second hsecond
            simp only [settled_nlink] at linked
            omega
        | firstSeen _ _ _ distinct' =>
            have hone := cloneCount_le_one distinct' origin.cloneId
            omega
        | mostClones _ _ _ _ _ most' =>
            have hloss := cloneCount_settled_le opts set hne
            have hmost := most second hsecond
            have hmost' := most' _ (List.mem_map_of_mem mem)
            rw [settled_cloneId_of_kept hkept, settled_cloneId_self] at hmost'
            omega

/-- Where the second run stays idle, its origin has the clone id of the first one's, whatever the
two origins, as soon as some file can be replaced. -/
theorem SecondRunIdle.cloneId_eq (idle : SecondRunIdle opts set ids) (hmode : CloneMode opts)
    (scan : OfOneScan set ids) {next : FileMetadata} (hfirst : PossibleOrigin set (some origin))
    (hnext : PossibleOrigin (set.map (settled opts origin.cloneId)) (some next)) (hfm : fm ∈ set)
    (hreplace : Replaceable opts fm = true) : origin.cloneId = next.cloneId := by
  -- an order of the first run that has the given origin, and then one of the second
  obtain ⟨first, hperm, horigin⟩ := (possibleOrigin_iff set origin).mp hfirst
  obtain ⟨second, hperm', hnext⟩ := (possibleOrigin_iff _ next).mp hnext
  have hmap := map_rescan_runOnce hmode scan hperm horigin
  have hcalls := idle first second hperm (hmap ▸ hperm')
  rw [runOnce_calls_eq_nil_iff hmode] at hcalls
  have hsame := hcalls next hnext (settled opts origin.cloneId fm)
    (hperm'.symm.subset (List.mem_map_of_mem hfm)) hreplace
  rwa [settled_cloneId, if_pos hreplace] at hsame

/-- With two files of most hard links left open, some order of the second run takes the other. -/
theorem SecondRunIdle.not_tiedHardLinks (idle : SecondRunIdle opts set ids)
    (hmode : CloneMode opts) (scan : OfOneScan set ids) : ¬TiedHardLinks opts set := by
  rintro ⟨a, ha, b, hb, linked, most, heq, hne, hkept, fm, hfm, hreplace⟩
  have hnext : PossibleOrigin (set.map (settled opts a.cloneId))
      (some (settled opts a.cloneId b)) := by
    apply PossibleOrigin.mostHardlinks _ (List.mem_map_of_mem hb)
    · simp only [settled_nlink]
      omega
    · intro other hother
      rcases List.mem_map.mp hother with ⟨other, hmem, rfl⟩
      have hle := most other hmem
      simp only [settled_nlink]
      omega
  have hsame := idle.cloneId_eq hmode scan (.mostHardlinks a ha linked most) hnext hfm hreplace
  rw [settled_cloneId, hkept] at hsame
  exact hne hsame

/-- Replacing the only replaceable file by a clone of itself changes no record. -/
theorem map_settled_self {lone : FileMetadata}
    (honly : ∀ fm ∈ set, Replaceable opts fm = true → fm = lone) :
    set.map (settled opts lone.cloneId) = set := by
  conv_rhs => rw [← List.map_id set]
  apply List.map_congr_left
  intro fm hfm
  unfold settled
  split
  · rename_i hreplace
    rw [honly fm hfm hreplace]
    rfl
  · rfl

/-- With one replaceable file next to another one seen first, the second run replaces it. -/
theorem SecondRunIdle.not_loneMutable (idle : SecondRunIdle opts set ids)
    (hmode : CloneMode opts) (scan : OfOneScan set ids) : ¬LoneMutable opts set := by
  rintro ⟨single, distinct, lone, hlone, hreplace, honly, hcompressed, other, hother, hne,
    hcompressed'⟩
  have hseveral : set.length ≠ 1 := by
    intro hlength
    rcases List.length_eq_one_iff.mp hlength with ⟨fm, rfl⟩
    simp only [List.mem_singleton] at hlone hother
    exact hne (hother.trans hlone.symm)
  have hnext : PossibleOrigin (set.map (settled opts lone.cloneId)) (some other) := by
    rw [map_settled_self honly]
    exact .firstSeen other hother single distinct hseveral hcompressed'
  have hsame := idle.cloneId_eq hmode scan
    (.firstSeen lone hlone single distinct hseveral hcompressed) hnext hlone hreplace
  exact hne (List.inj_on_of_nodup_map distinct hother hlone hsame.symm)

end Runs

/-- The second run has nothing to do, for every two orders of the list, exactly when neither of
the two choices is left open: no two files of most hard links with different clone ids, one of
which stays as it is while some file can be replaced; and no set of single-link files of distinct
clone ids whose only replaceable file is uncompressed next to another uncompressed one. -/
theorem secondRun_idle_iff (opts : Options) (mode : CloneMode opts) (set : List FileMetadata)
    (ids : Path → Nat) (scan : OfOneScan set ids) :
    SecondRunIdle opts set ids ↔ ¬TiedHardLinks opts set ∧ ¬LoneMutable opts set := by
  constructor
  · intro idle
    exact ⟨idle.not_tiedHardLinks mode scan, idle.not_loneMutable mode scan⟩
  · rintro ⟨tied, lone⟩ first second hperm hperm'
    rw [runOnce_calls_eq_nil_iff mode]
    intro next hnext fm hfm hreplace
    have hpossible := hnext ▸ possibleOrigin_originRecord second
    cases horigin : originRecord first with
    | none =>
        rw [map_rescan_of_none scan horigin] at hperm'
        have hfirst := (horigin ▸ possibleOrigin_originRecord first).perm hperm
        exact absurd hfirst (hpossible.perm hperm').not_none
    | some origin =>
        rw [map_rescan_runOnce mode scan hperm horigin] at hperm'
        have hfirst := (horigin ▸ possibleOrigin_originRecord first).perm hperm
        obtain ⟨fm, hmem, rfl⟩ := List.mem_map.mp (hperm'.subset hfm)
        rw [settled_cloneId, if_pos (by simpa using hreplace)]
        exact (second_origin_cloneId tied lone hfirst (hpossible.perm hperm')
          ⟨fm, hmem, hreplace⟩).symm

/-- A file of a duplicate set, on one device and with one digest. -/
def setFile (name : Char) (nlink cloneId : Nat) : FileMetadata where
  device := 1
  inode := name.toNat
  nlink := nlink
  flags := 0
  cloneId := cloneId
  size := 1
  path := [name]
  sha256 := 1
  first := 97
  last := 97

/-- The start of a run over a volume. -/
def startVolume (ids : Path → Nat) : Context CloneWorld where
  saved := 0
  alreadySaved := 0
  reports := []
  world := { cloneId := ids, calls := [] }

/-- Two files of two links each and one of a single link, all of different clone ids. -/
def twoLinked : List FileMetadata :=
  [setFile 'a' 2 1, setFile 'b' 2 2, setFile 'c' 1 3]

/-- The clone ids of `twoLinked`. -/
def twoLinkedIds (path : Path) : Nat :=
  if path = ['a'] then 1 else if path = ['b'] then 2 else 3

/-- The first run clones `c` from `a`; the second one meets `b` first and clones `c` from it. -/
theorem secondRun_replaces_again : ¬SecondRunIdle plainOptions twoLinked twoLinkedIds := by
  intro idle
  have hcalls := idle twoLinked [setFile 'b' 2 2, setFile 'a' 2 1, setFile 'c' 1 1]
    (List.Perm.refl _) (by decide)
  exact absurd hcalls (by decide)

theorem ofOneScan_twoLinked : OfOneScan twoLinked twoLinkedIds where
  faithful := by decide
  path_injective := by decide

/-- The condition at the two linked files. -/
theorem secondRun_idle_iff_twoLinked :
    SecondRunIdle plainOptions twoLinked twoLinkedIds ↔
      ¬TiedHardLinks plainOptions twoLinked ∧ ¬LoneMutable plainOptions twoLinked :=
  secondRun_idle_iff plainOptions cloneMode_plainOptions twoLinked twoLinkedIds ofOneScan_twoLinked

end Dedup
