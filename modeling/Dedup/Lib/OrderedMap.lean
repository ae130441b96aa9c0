/-
Module: Dedup.Lib.OrderedMap
Purpose: Rules for nested ordered maps whose nodes are found or created on the way down: what a
  read sees after such an update, at the updated key and at every other one.
Trusted boundary: none
Main exports: getElem?_alter_some, bind_alter_some, getElem?_children, getElem?_insert_of_ne,
  getElem?_insertIfNew_or, sum_toList
-/
import Mathlib

namespace Dedup.OrderedMap

open Std (TreeMap)

variable {κ ν μ α : Type} [Ord κ] [Std.TransOrd κ] [Std.LawfulEqOrd κ] [DecidableEq κ]

/-- A node that is found or created, and then updated, is seen at its own key only. -/
theorem getElem?_alter_some (tree : TreeMap κ ν) (key key' : κ) (update : Option ν → ν) :
    (tree.alter key fun node => some (update node))[key']? =
      if key' = key then some (update tree[key]?) else tree[key']? := by
  rw [TreeMap.getElem?_alter]
  by_cases hkey : key' = key
  · simp [hkey]
  · simp [hkey, Ne.symm hkey]

/-- Reading on below a node that was found or created. -/
theorem bind_alter_some (tree : TreeMap κ ν) (key key' : κ) (update : Option ν → ν)
    (read : ν → Option α) :
    ((tree.alter key fun node => some (update node))[key']?.bind read) =
      if key' = key then read (update tree[key]?) else tree[key']?.bind read := by
  rw [getElem?_alter_some]
  split <;> rfl

omit [Std.LawfulEqOrd κ] [DecidableEq κ] in
/-- A level that is read through its parent, which may not exist yet. -/
theorem getElem?_children (node : Option μ) (children : μ → TreeMap κ ν) (key : κ) :
    ((node.map children).getD ∅)[key]? = node.bind fun parent => (children parent)[key]? := by
  cases node <;> simp

omit [DecidableEq κ] in
/-- An insertion is seen at its own key only. -/
theorem getElem?_insert_of_ne (tree : TreeMap κ ν) {key key' : κ} (node : ν) (h : key' ≠ key) :
    (tree.insert key node)[key']? = tree[key']? := by
  simp [TreeMap.getElem?_insert, Ne.symm h]

omit [Std.LawfulEqOrd κ] [DecidableEq κ] in
theorem getElem?_of_size_eq_zero {tree : TreeMap κ ν} (h : tree.size = 0) (key : κ) :
    tree[key]? = none :=
  TreeMap.getElem?_of_isEmpty (by simpa [TreeMap.isEmpty_eq_size_eq_zero] using h)

omit [Std.LawfulEqOrd κ] [DecidableEq κ] in
theorem size_eq_zero_of_getElem? {tree : TreeMap κ ν} (h : ∀ key : κ, tree[key]? = none) :
    tree.size = 0 := by
  have hempty : tree.isEmpty := by
    rw [TreeMap.isEmpty_iff_forall_not_mem]
    intro key hmem
    rw [TreeMap.mem_iff_isSome_getElem?, h key] at hmem
    cases hmem
  simpa [TreeMap.isEmpty_eq_size_eq_zero] using hempty

/-- Inserting a node whose key may be taken: the node that holds the key stays. -/
theorem getElem?_insertIfNew_or (tree : TreeMap κ ν) (key : κ) (node : ν) (key' : κ) :
    (tree.insertIfNew key node)[key']? =
      tree[key']?.or (if key' = key then some node else none) := by
  rw [TreeMap.getElem?_insertIfNew]
  by_cases hkey : key' = key
  · subst hkey
    cases hget : tree[key']? with
    | none =>
        have hmem : key' ∉ tree := by simpa using hget
        simp [hmem]
    | some old =>
        have hmem : key' ∈ tree := TreeMap.mem_iff_isSome_getElem?.mpr (by simp [hget])
        simp [hmem]
  · simp [hkey, Ne.symm hkey]

theorem size_insertIfNew_ne_zero (tree : TreeMap κ ν) (key : κ) (node : ν) :
    (tree.insertIfNew key node).size ≠ 0 := by
  intro hsize
  have hget := getElem?_of_size_eq_zero hsize key
  rw [getElem?_insertIfNew_or] at hget
  simp at hget

/-! ### Sums over the values -/

/-- A sum over the values of a map is a sum over any finite set of keys that covers it. -/
theorem sum_toList (tree : TreeMap κ ν) (f : ν → Nat) (keys : Finset κ)
    (h : ∀ key ∈ tree, key ∈ keys) :
    (tree.toList.map fun entry => f entry.2).sum =
      ∑ key ∈ keys, (tree[key]?.map f).getD 0 := by
  have hvalue : ∀ entry ∈ tree.toList, f entry.2 = (tree[entry.1]?.map f).getD 0 := by
    rintro ⟨key, node⟩ hmem
    simp [TreeMap.mem_toList_iff_getElem?_eq_some.mp hmem]
  rw [List.map_congr_left hvalue]
  have hkeys : tree.toList.map (fun entry => (tree[entry.1]?.map f).getD 0) =
      tree.keys.map fun key => (tree[key]?.map f).getD 0 := by
    rw [← TreeMap.map_fst_toList_eq_keys, List.map_map]
    rfl
  rw [hkeys, ← List.sum_toFinset _ TreeMap.nodup_keys]
  apply Finset.sum_subset
  · intro key hkey
    exact h key (TreeMap.mem_keys.mp (List.mem_toFinset.mp hkey))
  · intro key _ hkey
    have hnone : tree[key]? = none := by
      apply TreeMap.getElem?_eq_none
      intro hmem
      exact hkey (List.mem_toFinset.mpr (TreeMap.mem_keys.mpr hmem))
    simp [hnone]

end Dedup.OrderedMap
