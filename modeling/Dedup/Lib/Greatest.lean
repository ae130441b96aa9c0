/-
Module: Dedup.Lib.Greatest
Purpose: The scan that keeps the first element of greatest rank, starting above zero, and the map
  that counts how often each key of a list occurs and keeps its first element.
Trusted boundary: none
Main exports: firstGreatest, firstGreatest_eq_some_iff, firstGreatest_eq_none_iff, Tally, tally,
  getElem?_tally, size_tally
-/
import Mathlib

namespace Dedup

open Std (TreeMap)

/-! ### The first element of greatest rank -/

section Greatest

variable {α : Type}

/-- Scan a list for the first element of greatest positive rank. -/
def firstGreatest (rank : α → Nat) (items : List α) : Option α :=
  items.foldl (fun best item =>
    if (best.map rank).getD 0 < rank item then some item else best) none

theorem firstGreatest_append_singleton (rank : α → Nat) (items : List α) (item : α) :
    firstGreatest rank (items ++ [item]) =
      if ((firstGreatest rank items).map rank).getD 0 < rank item then some item
      else firstGreatest rank items := by
  rw [firstGreatest, List.foldl_append]
  rfl

/-- No rank is above that of the scan's result. -/
theorem rank_le_firstGreatest (rank : α → Nat) (items : List α) :
    ∀ item ∈ items, rank item ≤ ((firstGreatest rank items).map rank).getD 0 := by
  induction items using List.reverseRecOn with
  | nil => simp
  | append_singleton items last ih =>
      intro item hmem
      rw [firstGreatest_append_singleton]
      rcases List.mem_append.mp hmem with hmem | hmem
      · have hle := ih item hmem
        split
        · simp only [Option.map_some, Option.getD_some]
          omega
        · exact hle
      · obtain rfl : item = last := by simpa using hmem
        split
        · simp
        · omega

/-- The result is in the list with a positive rank, above the ranks before it. -/
theorem firstGreatest_split {rank : α → Nat} {items : List α} {item : α}
    (h : firstGreatest rank items = some item) :
    0 < rank item ∧ ∃ before after, items = before ++ item :: after ∧
      ∀ other ∈ before, rank other < rank item := by
  induction items using List.reverseRecOn with
  | nil => simp [firstGreatest] at h
  | append_singleton items last ih =>
      rw [firstGreatest_append_singleton] at h
      split at h
      · rename_i hlt
        obtain rfl := Option.some.inj h
        refine ⟨by omega, items, [], rfl, fun other hmem => ?_⟩
        have hle := rank_le_firstGreatest rank items other hmem
        omega
      · rcases ih h with ⟨hpos, before, after, rfl, hbefore⟩
        exact ⟨hpos, before, after ++ [last], by simp, hbefore⟩

/-- The result of the scan has the greatest rank of the list. -/
theorem firstGreatest_greatest {rank : α → Nat} {items : List α} {item : α}
    (h : firstGreatest rank items = some item) : ∀ other ∈ items, rank other ≤ rank item := by
  intro other hmem
  simpa [h] using rank_le_firstGreatest rank items other hmem

theorem mem_of_firstGreatest {rank : α → Nat} {items : List α} {item : α}
    (h : firstGreatest rank items = some item) : item ∈ items := by
  rcases firstGreatest_split h with ⟨_, before, after, rfl, _⟩
  simp

/-- The scan finds nothing exactly when every rank is zero. -/
theorem firstGreatest_eq_none_iff (rank : α → Nat) (items : List α) :
    firstGreatest rank items = none ↔ ∀ item ∈ items, rank item = 0 := by
  constructor
  · intro h item hmem
    simpa [h] using rank_le_firstGreatest rank items item hmem
  · intro h
    cases hscan : firstGreatest rank items with
    | none => rfl
    | some item =>
        have hpos := (firstGreatest_split hscan).1
        have hzero := h item (mem_of_firstGreatest hscan)
        omega

/-- The scan finds an element of positive rank that is above the ranks before it and not below
those after it. -/
theorem firstGreatest_eq_some_iff {rank : α → Nat} {items : List α} {item : α} :
    firstGreatest rank items = some item ↔
      0 < rank item ∧ ∃ before after, items = before ++ item :: after ∧
        (∀ other ∈ before, rank other < rank item) ∧ ∀ other ∈ after, rank other ≤ rank item := by
  constructor
  · intro h
    rcases firstGreatest_split h with ⟨hpos, before, after, rfl, hbefore⟩
    refine ⟨hpos, before, after, rfl, hbefore, fun other hmem => ?_⟩
    exact firstGreatest_greatest h other (by simp [hmem])
  · rintro ⟨hpos, before, after, rfl, hbefore, hafter⟩
    induction after using List.reverseRecOn with
    | nil =>
        rw [firstGreatest_append_singleton, if_pos]
        cases hscan : firstGreatest rank before with
        | none => exact hpos
        | some best => exact hbefore best (mem_of_firstGreatest hscan)
    | append_singleton after last ih =>
        have hscan := ih fun other hmem => hafter other (List.mem_append_left _ hmem)
        have hle := hafter last (by simp)
        rw [← List.cons_append, ← List.append_assoc, firstGreatest_append_singleton, hscan,
          if_neg (by simpa using hle)]

end Greatest

/-! ### Counting keys -/

section Tally

variable {κ α : Type} [Ord κ] [Std.TransOrd κ] [Std.LawfulEqOrd κ] [DecidableEq κ]

/-- What is known of a key: the first element that has it, and how many have it. -/
structure Tally (α : Type) where
  first : α
  count : Nat

/-- Count one element. -/
def countKey (key : α → κ) (tree : TreeMap κ (Tally α)) (item : α) : TreeMap κ (Tally α) :=
  let node := tree[key item]?.getD { first := item, count := 0 }
  tree.insert (key item) { node with count := node.count + 1 }

/-- Count the elements of a list by their keys. -/
def tally (key : α → κ) (items : List α) : TreeMap κ (Tally α) :=
  items.foldl (countKey key) ∅

omit [Std.TransOrd κ] [Std.LawfulEqOrd κ] [DecidableEq κ] in
theorem tally_append_singleton (key : α → κ) (items : List α) (item : α) :
    tally key (items ++ [item]) = countKey key (tally key items) item := by
  simp [tally, List.foldl_append]

/-- Under each key stand its first element and the number of its elements. -/
theorem getElem?_tally (key : α → κ) (items : List α) (k : κ) :
    (tally key items)[k]? = (items.find? fun item => key item = k).map fun first =>
      { first := first, count := items.countP fun item => key item = k } := by
  induction items using List.reverseRecOn with
  | nil => simp [tally]
  | append_singleton items item ih =>
      rw [tally_append_singleton, countKey, TreeMap.getElem?_insert, List.find?_append,
        List.countP_append]
      rcases eq_or_ne (key item) k with rfl | hkey
      · cases hfind : items.find? fun other => key other = key item with
        | none =>
            have hcount : items.countP (fun other => key other = key item) = 0 := by
              simpa [List.countP_eq_zero] using hfind
            simp [ih, hfind, hcount]
        | some first => simp [ih, hfind]
      · simp [hkey, ih]

/-- The keys counted are the keys of the list. -/
theorem mem_tally (key : α → κ) (items : List α) (k : κ) :
    k ∈ tally key items ↔ ∃ item ∈ items, key item = k := by
  rw [TreeMap.mem_iff_isSome_getElem?, getElem?_tally]
  simp

/-- There are as many nodes as distinct keys. -/
theorem size_tally (key : α → κ) (items : List α) :
    (tally key items).size = ((items.map key).dedup).length := by
  rw [← TreeMap.length_keys]
  apply List.Perm.length_eq
  rw [List.perm_ext_iff_of_nodup TreeMap.nodup_keys (List.nodup_dedup _)]
  intro k
  rw [TreeMap.mem_keys, mem_tally]
  simp

end Tally

end Dedup
