/-
Module: Dedup.CloneCompleteness
Purpose: What clone mode leaves of one list when every replacement succeeds: either nothing could
  be done, or all files that may be replaced share the clone id of one file, and all others are
  untouched.
Imports: Dedup.SecondRun
Main exports: Untouched, NothingToClone, ClonedTo, cloneMode_complete
-/
import Dedup.SecondRun

namespace Dedup

/-- No replacement of a file was called, and its clone id is what it was. -/
def Untouched (before after : CloneWorld) (path : Path) : Prop :=
  after.cloneId path = before.cloneId path ∧
    ∃ calls, after.calls = before.calls ++ calls ∧ ∀ call ∈ calls, call.2 ≠ path

/-- No file was replaced, and all files have one link, are compressed, and differ in clone id. -/
structure NothingToClone (list : List FileMetadata) (before after : CloneWorld) : Prop where
  calls : after.calls = before.calls
  single : ∀ fm ∈ list, fm.nlink ≤ 1
  compressed : ∀ fm ∈ list, fm.compressed = true
  distinct : (list.map FileMetadata.cloneId).Nodup

/-- Every single-link file without an immutable flag has the clone id that a member of the list had
and has; every other file is untouched. -/
structure ClonedTo (list : List FileMetadata) (before after : CloneWorld)
    (origin : FileMetadata) : Prop where
  mem : origin ∈ list
  kept : after.cloneId origin.path = before.cloneId origin.path
  cloned : ∀ fm ∈ list, fm.nlink ≤ 1 → fm.immutable = false →
    after.cloneId fm.path = after.cloneId origin.path
  others : ∀ fm ∈ list, 1 < fm.nlink ∨ fm.immutable = true → Untouched before after fm.path

theorem Untouched.refl (world : CloneWorld) (path : Path) : Untouched world world path :=
  ⟨rfl, [], by simp, by simp⟩

section

variable {opts : Options} {list : List FileMetadata} {ctx : Context CloneWorld}

theorem replaceable_iff (unforced : opts.force = false) (fm : FileMetadata) :
    Replaceable opts fm = true ↔ fm.nlink ≤ 1 ∧ fm.immutable = false := by
  simp [Replaceable, unforced]

/-- A call with an origin brings the replaceable files to its clone id. -/
theorem clonedTo_of_origin (mode : CloneMode opts) (unforced : opts.force = false)
    (scan : OfOneScan list ctx.world.cloneId) {origin : FileMetadata}
    (horigin : originRecord list = some origin) :
    ClonedTo list ctx.world (deduplicate idealCalls opts list ctx).world origin := by
  have done := deduplicate_of_origin mode horigin ctx
  have hmem := mem_of_originRecord horigin
  have hkept : (deduplicate idealCalls opts list ctx).world.cloneId origin.path =
      origin.cloneId := by
    rw [done.cloneId_settled scan hmem hmem, settled_cloneId_self]
  refine ⟨hmem, hkept.trans (scan.faithful origin hmem), ?_, ?_⟩
  · intro fm hfm single mutable
    rw [hkept, done.cloneId_settled scan hmem hfm, settled_cloneId,
      if_pos ((replaceable_iff unforced fm).mpr ⟨single, mutable⟩)]
  · intro fm hfm hother
    have hfixed : Replaceable opts fm = false := by
      rw [Bool.eq_false_iff, ne_eq, replaceable_iff unforced]
      rintro ⟨single, mutable⟩
      rcases hother with hlinked | himmutable
      · omega
      · simp [mutable] at himmutable
    refine ⟨?_, _, done.calls, ?_⟩
    · rw [done.cloneId_settled scan hmem hfm, settled_cloneId_of_kept hfixed,
        scan.faithful fm hfm]
    · intro call hcall
      rcases List.mem_map.mp hcall with ⟨other, hother, rfl⟩
      rcases List.mem_filter.mp hother with ⟨hin, hboth⟩
      intro hpath
      obtain rfl := scan.path_injective other hin fm hfm hpath
      simp [hfixed] at hboth

/-- Clone mode is complete on a list of several files. -/
theorem cloneMode_complete (list : List FileMetadata) (ctx : Context CloneWorld)
    (mode : CloneMode opts) (unforced : opts.force = false) (several : 2 ≤ list.length)
    (scan : OfOneScan list ctx.world.cloneId) :
    NothingToClone list ctx.world (deduplicate idealCalls opts list ctx).world ∨
      ∃ origin, ClonedTo list ctx.world (deduplicate idealCalls opts list ctx).world origin := by
  cases horigin : originRecord list with
  | some origin => exact .inr ⟨origin, clonedTo_of_origin mode unforced scan horigin⟩
  | none =>
      have hpossible := horigin ▸ possibleOrigin_originRecord list
      rw [(deduplicate_of_none horigin ctx).1]
      cases hpossible with
      | alreadyCloned single same =>
          -- all files have one clone id, so any of them is the origin
          right
          match list, several with
          | origin :: rest, _ =>
              have hmem : origin ∈ origin :: rest := List.mem_cons_self
              refine ⟨origin, hmem, rfl, fun fm hfm _ _ => ?_, fun fm _ _ => Untouched.refl _ _⟩
              rw [← scan.faithful fm hfm, ← scan.faithful origin hmem]
              exact same fm hfm origin hmem
      | allCompressed single distinct compressed =>
          exact .inl ⟨rfl, single, compressed, distinct⟩

end

/-- Two clones of one file and a third file, of which the second clone is immutable. -/
def clonesAndOne : List FileMetadata :=
  [setFile 'a' 1 1, { setFile 'b' 1 1 with flags := ufImmutable }, setFile 'c' 1 2]

/-- The clone ids of `clonesAndOne`. -/
def clonesAndOneIds (path : Path) : Nat :=
  if path = ['c'] then 2 else 1

theorem ofOneScan_clonesAndOne : OfOneScan clonesAndOne clonesAndOneIds where
  faithful := by decide
  path_injective := by decide

/-- Clone mode at the two clones and the third file. -/
theorem cloneMode_complete_clonesAndOne :
    NothingToClone clonesAndOne { cloneId := clonesAndOneIds, calls := [] }
        (deduplicate idealCalls plainOptions clonesAndOne (startVolume clonesAndOneIds)).world ∨
      ∃ origin, ClonedTo clonesAndOne { cloneId := clonesAndOneIds, calls := [] }
        (deduplicate idealCalls plainOptions clonesAndOne (startVolume clonesAndOneIds)).world
          origin :=
  cloneMode_complete clonesAndOne (startVolume clonesAndOneIds) cloneMode_plainOptions rfl
    (by decide) ofOneScan_clonesAndOne

end Dedup
