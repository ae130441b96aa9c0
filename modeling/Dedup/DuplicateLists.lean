/-
Module: Dedup.DuplicateLists
Purpose: What the lists of the duplicate tree mix.  The visited tree separates files by device,
  size, first, last and SHA-256, but `duplicate_tree_find` builds its lists by SHA-256 alone: two
  groups of matching files with one digest share a list, and only the group that is recorded
  first has its earlier file in it.
Imports: Dedup.Duplicates
Trusted boundary: none
Main exports: Compatible, NeverMixes, filesUnder, NoSharedDigest, duplicateLists_compatible_iff,
  duplicateLists_mix_devices
-/
import Dedup.Duplicates

namespace Dedup

/-- All members agree in device, size, first, last and SHA-256. -/
def Compatible (list : List FileMetadata) : Prop :=
  ∀ a ∈ list, ∀ b ∈ list, a.leafKey = b.leafKey ∧ a.sha256 = b.sha256

/-- After every visit of the sequence all lists are compatible, and the two files of a match are
members of the list the later one joined. -/
def NeverMixes (env : ScanEnv) (fes : List FileEntry) : Prop :=
  ∀ before fe after, fes = before ++ fe :: after →
    (∀ (digest : Digest) (list : List FileMetadata),
      (visitEntry env (visitAll env before) fe).duplicates[digest]? = some list →
        Compatible list) ∧
    ∀ old fm, matchOfVisit env (visitAll env before) fe = some (old, fm) →
      old ∈ duplicateTreeFind (visitEntry env (visitAll env before) fe).duplicates fm ∧
      fm ∈ duplicateTreeFind (visitEntry env (visitAll env before) fe).duplicates fm

/-- The readable files of a list that have the five keys, with their digests written. -/
def filesUnder (env : ScanEnv) (fes : List FileEntry) (key : VisitedKey) : List FileMetadata :=
  ((bindings env fes).filter fun binding => binding.1 = key).map Prod.snd

/-- No two groups of at least two files that differ in device, size, first or last have one
digest. -/
def NoSharedDigest (env : ScanEnv) (fes : List FileEntry) : Prop :=
  ∀ key key' : VisitedKey, 2 ≤ (filesUnder env fes key).length →
    2 ≤ (filesUnder env fes key').length → key.2 = key'.2 → key.1 = key'.1

section Lists

variable {env : ScanEnv} {fes : List FileEntry}

theorem visitAll_append_singleton (env : ScanEnv) (fes : List FileEntry) (fe : FileEntry) :
    visitAll env (fes ++ [fe]) = visitEntry env (visitAll env fes) fe := by
  simp [visitAll, List.foldl_append]

/-- A key has a match exactly when two of its files were visited. -/
theorem exists_match_iff (key : VisitedKey) :
    (∃ old fm, (key, old, fm) ∈ matchesOf env fes) ↔ 2 ≤ (filesUnder env fes key).length := by
  rw [filesUnder, List.length_map]
  exact FirstWins.exists_mem_matched_iff (bindings env fes) key

/-- Both records of a match carry its keys, and the earlier one is what the naive map holds. -/
theorem mem_matchesOf {key : VisitedKey} {old fm : FileMetadata}
    (h : (key, old, fm) ∈ matchesOf env fes) :
    (old.leafKey = key.1 ∧ old.sha256 = key.2) ∧ (fm.leafKey = key.1 ∧ fm.sha256 = key.2) ∧
      FirstWins.run (bindings env fes) key = some old := by
  rcases FirstWins.mem_matched h with ⟨rest, hfilter, hrest⟩
  have hkeys : ∀ value, (key, value) ∈ (key, old) :: rest →
      value.leafKey = key.1 ∧ value.sha256 = key.2 := by
    intro value hmem
    rw [← hfilter] at hmem
    obtain ⟨fe, _, hfe⟩ := List.mem_filterMap.mp (List.mem_filter.mp hmem).1
    exact scanRecord_keys hfe
  refine ⟨hkeys old List.mem_cons_self, hkeys fm (List.mem_cons_of_mem _ hrest), ?_⟩
  rw [FirstWins.run_apply, ← List.head?_filter, hfilter]
  rfl

/-- The matches recorded under a digest. -/
def matchesUnder (env : ScanEnv) (fes : List FileEntry) (digest : Digest) :
    List (VisitedKey × FileMetadata × FileMetadata) :=
  (matchesOf env fes).filter fun entry => entry.1.2 = digest

/-- The list under a digest joins the matches recorded there. -/
theorem getElem?_duplicates (env : ScanEnv) (fes : List FileEntry) (digest : Digest) :
    (visitAll env fes).duplicates[digest]? =
      joined ((matchesUnder env fes digest).map Prod.snd) := by
  rw [(describes_visitAll env fes).duplicates digest, List.filter_map, matchesUnder]
  congr 2
  apply List.filter_congr
  rintro ⟨key, old, fm⟩ hmem
  have hsha : fm.sha256 = key.2 := (mem_matchesOf hmem).2.1.2
  simp [hsha]

/-- A member of a list is one of the two records of a match recorded there. -/
theorem mem_joined {log : List (FileMetadata × FileMetadata)} {list : List FileMetadata}
    {fm : FileMetadata} (hlist : joined log = some list) (hmem : fm ∈ list) :
    ∃ entry ∈ log, fm = entry.1 ∨ fm = entry.2 := by
  cases log with
  | nil => simp [joined] at hlist
  | cons first log =>
      obtain rfl := Option.some.inj hlist
      rcases List.mem_cons.mp hmem with rfl | hmem
      · exact ⟨first, List.mem_cons_self, Or.inl rfl⟩
      · rcases List.mem_cons.mp hmem with rfl | hmem
        · exact ⟨first, List.mem_cons_self, Or.inr rfl⟩
        · rcases List.mem_map.mp hmem with ⟨entry, hentry, rfl⟩
          exact ⟨entry, List.mem_cons_of_mem _ hentry, Or.inr rfl⟩

/-- The later record of every match is in the list. -/
theorem later_mem_joined {log : List (FileMetadata × FileMetadata)}
    {entry : FileMetadata × FileMetadata} (hmem : entry ∈ log) :
    ∃ list, joined log = some list ∧ entry.2 ∈ list := by
  cases log with
  | nil => simp at hmem
  | cons first log =>
      refine ⟨_, rfl, ?_⟩
      rcases List.mem_cons.mp hmem with rfl | hmem
      · simp
      · exact List.mem_cons_of_mem _ (List.mem_cons_of_mem _ (List.mem_map_of_mem hmem))

/-- The earlier record of the first match is in the list. -/
theorem exists_earlier_mem_joined {log : List (FileMetadata × FileMetadata)}
    {list : List FileMetadata} (hlist : joined log = some list) :
    ∃ entry ∈ log, entry.1 ∈ list := by
  cases log with
  | nil => simp [joined] at hlist
  | cons first log =>
      obtain rfl := Option.some.inj hlist
      exact ⟨first, List.mem_cons_self, List.mem_cons_self⟩

/-- Without a shared digest the matches under a digest have one key. -/
theorem NoSharedDigest.key_eq (h : NoSharedDigest env fes) {digest : Digest}
    {entry entry' : VisitedKey × FileMetadata × FileMetadata}
    (hentry : entry ∈ matchesUnder env fes digest)
    (hentry' : entry' ∈ matchesUnder env fes digest) : entry.1 = entry'.1 := by
  rcases entry with ⟨⟨leafKey, digest₁⟩, old, fm⟩
  rcases entry' with ⟨⟨leafKey', digest₂⟩, old', fm'⟩
  rcases List.mem_filter.mp hentry with ⟨hmem, hdigest⟩
  rcases List.mem_filter.mp hentry' with ⟨hmem', hdigest'⟩
  obtain rfl : digest₁ = digest := by simpa using hdigest
  obtain rfl : digest₂ = digest₁ := by simpa using hdigest'
  have hleaf : leafKey = leafKey' :=
    h _ _ ((exists_match_iff _).mp ⟨old, fm, hmem⟩) ((exists_match_iff _).mp ⟨old', fm', hmem'⟩)
      rfl
  rw [hleaf]

/-- Without a shared digest every list is compatible. -/
theorem NoSharedDigest.compatible (h : NoSharedDigest env fes) {digest : Digest}
    {list : List FileMetadata} (hlist : (visitAll env fes).duplicates[digest]? = some list) :
    Compatible list := by
  rw [getElem?_duplicates] at hlist
  have hkeys : ∀ fm ∈ list, ∃ entry ∈ matchesUnder env fes digest,
      fm.leafKey = entry.1.1 ∧ fm.sha256 = entry.1.2 := by
    intro fm hmem
    rcases mem_joined hlist hmem with ⟨pair, hpair, hfm⟩
    rcases List.mem_map.mp hpair with ⟨entry, hentry, rfl⟩
    have hkeys := mem_matchesOf (List.mem_filter.mp hentry).1
    refine ⟨entry, hentry, ?_⟩
    rcases hfm with rfl | rfl
    · exact hkeys.1
    · exact hkeys.2.1
  intro a ha b hb
  rcases hkeys a ha with ⟨entry, hentry, hleaf, hsha⟩
  rcases hkeys b hb with ⟨entry', hentry', hleaf', hsha'⟩
  rw [hleaf, hsha, hleaf', hsha', h.key_eq hentry hentry']
  exact ⟨rfl, rfl⟩

/-- Without a shared digest the two files of a match are in the list the later one joined. -/
theorem NoSharedDigest.both_mem (h : NoSharedDigest env fes) {key : VisitedKey}
    {old fm : FileMetadata} (hmem : (key, old, fm) ∈ matchesOf env fes) :
    old ∈ duplicateTreeFind (visitAll env fes).duplicates fm ∧
      fm ∈ duplicateTreeFind (visitAll env fes).duplicates fm := by
  rcases mem_matchesOf hmem with ⟨_, ⟨_, hsha⟩, hrun⟩
  have hunder : (key, old, fm) ∈ matchesUnder env fes fm.sha256 :=
    List.mem_filter.mpr ⟨hmem, by simp [hsha]⟩
  obtain ⟨list, hlist, hfm⟩ := later_mem_joined (List.mem_map_of_mem (f := Prod.snd) hunder)
  have hfind : duplicateTreeFind (visitAll env fes).duplicates fm = list := by
    rw [duplicateTreeFind, getElem?_duplicates, hlist]
    rfl
  rw [hfind]
  refine ⟨?_, hfm⟩
  rcases exists_earlier_mem_joined hlist with ⟨pair, hpair, hfirst⟩
  rcases List.mem_map.mp hpair with ⟨⟨key', old', fm'⟩, hentry, rfl⟩
  obtain rfl : key' = key := h.key_eq hentry hunder
  -- the list starts with what the naive map holds under the key, which is the earlier file
  have hrun' := (mem_matchesOf (List.mem_filter.mp hentry).1).2.2
  obtain rfl : old' = old := Option.some.inj (hrun'.symm.trans hrun)
  exact hfirst

/-- A prefix of the visits shares no digest that all of them do not share. -/
theorem NoSharedDigest.of_append {more : List FileEntry} (h : NoSharedDigest env (fes ++ more)) :
    NoSharedDigest env fes := by
  have hmono : ∀ key, (filesUnder env fes key).length ≤
      (filesUnder env (fes ++ more) key).length := by
    intro key
    simp [filesUnder, bindings, List.filterMap_append, List.filter_append]
  intro key key' hkey hkey'
  exact h key key' (hkey.trans (hmono key)) (hkey'.trans (hmono key'))

/-- Two groups whose lists are all compatible do not share a digest. -/
theorem leafKey_eq_of_compatible {key key' : VisitedKey}
    (hcompatible : ∀ (digest : Digest) (list : List FileMetadata),
      (visitAll env fes).duplicates[digest]? = some list → Compatible list)
    (hkey : 2 ≤ (filesUnder env fes key).length) (hkey' : 2 ≤ (filesUnder env fes key').length)
    (hdigest : key.2 = key'.2) : key.1 = key'.1 := by
  obtain ⟨old, fm, hmem⟩ := (exists_match_iff key).mpr hkey
  obtain ⟨old', fm', hmem'⟩ := (exists_match_iff key').mpr hkey'
  have hunder : (key, old, fm) ∈ matchesUnder env fes key.2 :=
    List.mem_filter.mpr ⟨hmem, by simp⟩
  have hunder' : (key', old', fm') ∈ matchesUnder env fes key.2 :=
    List.mem_filter.mpr ⟨hmem', by simp [hdigest]⟩
  obtain ⟨list, hlist, hfm⟩ := later_mem_joined (List.mem_map_of_mem (f := Prod.snd) hunder)
  obtain ⟨list', hlist', hfm'⟩ := later_mem_joined (List.mem_map_of_mem (f := Prod.snd) hunder')
  obtain rfl : list = list' := Option.some.inj (hlist.symm.trans hlist')
  have hsame := hcompatible key.2 list (by rw [getElem?_duplicates, hlist]) fm hfm fm' hfm'
  rw [← (mem_matchesOf hmem).2.1.1, ← (mem_matchesOf hmem').2.1.1]
  exact hsame.1

/-- The lists never mix incompatible files exactly when no two groups of matching files that
differ in device, size, first or last have one digest. -/
theorem duplicateLists_compatible_iff (env : ScanEnv) (fes : List FileEntry) :
    NeverMixes env fes ↔ NoSharedDigest env fes := by
  constructor
  · intro h key key' hkey hkey' hdigest
    rcases List.eq_nil_or_concat fes with rfl | ⟨before, fe, rfl⟩
    · simp [filesUnder, bindings] at hkey
    · rw [List.concat_eq_append] at h hkey hkey'
      have hlast := (h before fe [] rfl).1
      rw [← visitAll_append_singleton] at hlast
      exact leafKey_eq_of_compatible hlast hkey hkey' hdigest
  · intro h before fe after hsplit
    have hprefix : NoSharedDigest env (before ++ [fe]) := by
      rw [hsplit, List.append_cons] at h
      exact h.of_append
    rw [← visitAll_append_singleton]
    refine ⟨fun digest list hlist => hprefix.compatible hlist, fun old fm hmatch => ?_⟩
    rw [matchOfVisit_visitAll, Option.bind_eq_some_iff] at hmatch
    rcases hmatch with ⟨⟨key, value⟩, hfe, hrun⟩
    rcases Option.map_eq_some_iff.mp hrun with ⟨old', hfound, hpair⟩
    rcases Prod.mk.inj hpair with ⟨rfl, rfl⟩
    have hmem : (key, old', value) ∈ matchesOf env (before ++ [fe]) := by
      rw [matchesOf_append_singleton]
      simp [hfe, hfound]
    exact hprefix.both_mem hmem

end Lists

/-! ### Two devices -/

/-- Files that can all be read and hold one byte. -/
def oneByteEnv : ScanEnv where
  contents := fun _ => [97]
  fopenOk := fun _ => true
  firstFgetcOk := fun _ => true
  fseekOk := fun _ => true
  lastFgetcOk := fun _ => true
  cloneId := fun _ => some 1
  openOk := fun _ => true
  mmapOk := fun _ => true
  updateOk := fun _ => true
  finalOk := fun _ => true
  sha256 := fun bytes => BitVec.ofNat 256 (bytes.length + 1)

/-- A file of one byte on a device. -/
def oneByteFile (device : Int) (path : Path) : FileEntry where
  path := path
  device := device
  inode := 1
  nlink := 1
  flags := 0
  size := 1

/-- Two equal files on one volume and two on another. -/
def twoVolumes : List FileEntry :=
  [oneByteFile 1 ['a'], oneByteFile 1 ['b'], oneByteFile 2 ['c'], oneByteFile 2 ['d']]

/-- Equal files of two volumes end up in one list, and the earlier file of the second match is
not in it. -/
theorem duplicateLists_mix_devices : ¬NeverMixes oneByteEnv twoVolumes := by
  intro h
  have hcompatible := (h [oneByteFile 1 ['a'], oneByteFile 1 ['b'], oneByteFile 2 ['c']]
    (oneByteFile 2 ['d']) [] rfl).1 2 _ rfl
  exact absurd (hcompatible _ List.mem_cons_self _
    (List.mem_cons_of_mem _ (List.mem_cons_of_mem _ List.mem_cons_self))).1 (by decide)

end Dedup
