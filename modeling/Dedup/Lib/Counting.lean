/-
Module: Dedup.Lib.Counting
Purpose: Counts of a list whose elements fall into groups by a key: a count key by key, the number
  of distinct keys, and when a count of elements agrees with a count of keys.
Trusted boundary: none
Main exports: countP_eq_sum, keysOf, length_eq_card_keysOf_iff, countP_add_card_keysOf_iff
-/
import Mathlib

namespace Dedup

theorem countP_and_add_countP_and_not {α : Type} (p q : α → Bool) (items : List α) :
    (items.countP fun item => p item && q item) + (items.countP fun item => p item && !q item) =
      items.countP p := by
  induction items with
  | nil => rfl
  | cons item items ih =>
      simp only [List.countP_cons]
      cases p item <;> cases q item <;> simp <;> omega

theorem countP_or {α : Type} (p q : α → Bool) (items : List α) :
    (items.countP fun item => p item || q item) =
      items.countP p + items.countP fun item => !p item && q item := by
  induction items with
  | nil => rfl
  | cons item items ih =>
      simp only [List.countP_cons, ih]
      cases p item <;> cases q item <;> simp <;> omega

/-- A count over a list, key by key. -/
theorem countP_eq_sum {κ α : Type} [DecidableEq κ] (key : α → κ) (p : α → Bool) (items : List α)
    (keys : Finset κ) (h : ∀ item ∈ items, key item ∈ keys) :
    items.countP p = ∑ k ∈ keys, (items.filter fun item => key item = k).countP p := by
  induction items with
  | nil => simp
  | cons item items ih =>
      have hrest := ih fun other hother => h other (List.mem_cons_of_mem _ hother)
      have hone : ∀ k, ((item :: items).filter fun item => key item = k).countP p =
          ((items.filter fun item => key item = k).countP p) +
            if key item = k then (if p item then 1 else 0) else 0 := by
        intro k
        by_cases hk : key item = k <;> simp [hk, List.countP_cons]
      simp only [hone, Finset.sum_add_distrib, ← hrest, List.countP_cons, Finset.sum_ite_eq,
        h item List.mem_cons_self, if_true]

/-! ### Distinct keys -/

section Keys

variable {κ α : Type} [DecidableEq κ] {key : α → κ} {items : List α}

/-- The keys that occur in a list. -/
def keysOf (key : α → κ) (items : List α) : Finset κ :=
  (items.map key).toFinset

@[simp] theorem mem_keysOf {k : κ} : k ∈ keysOf key items ↔ ∃ item ∈ items, key item = k := by
  simp [keysOf]

theorem card_keysOf_le (key : α → κ) (items : List α) :
    (keysOf key items).card ≤ items.length := by
  rw [keysOf, ← List.length_map key]
  exact List.toFinset_card_le _

theorem keysOf_congr {key' : α → κ} (h : ∀ item ∈ items, key item = key' item) :
    keysOf key items = keysOf key' items := by
  rw [keysOf, keysOf, List.map_congr_left h]

theorem keysOf_filter_subset (key : α → κ) (items : List α) (p : α → Bool) :
    keysOf key (items.filter p) ⊆ keysOf key items := by
  intro k hk
  rcases mem_keysOf.mp hk with ⟨item, hitem, rfl⟩
  exact mem_keysOf.mpr ⟨item, (List.mem_filter.mp hitem).1, rfl⟩

/-- One key, and those of the elements that do not have it. -/
theorem card_keysOf_eq_succ {k : κ} (h : ∃ item ∈ items, key item = k) :
    (keysOf key items).card =
      (keysOf key (items.filter fun item => key item ≠ k)).card + 1 := by
  have hinsert : keysOf key items =
      insert k (keysOf key (items.filter fun item => key item ≠ k)) := by
    ext k'
    rw [Finset.mem_insert, mem_keysOf, mem_keysOf]
    constructor
    · rintro ⟨item, hitem, rfl⟩
      by_cases hk : key item = k
      · exact .inl hk
      · exact .inr ⟨item, List.mem_filter.mpr ⟨hitem, by simpa using hk⟩, rfl⟩
    · rintro (rfl | ⟨item, hitem, rfl⟩)
      · exact h
      · exact ⟨item, (List.mem_filter.mp hitem).1, rfl⟩
  rw [hinsert, Finset.card_insert_of_notMem (by simp)]

/-- There are as many keys as elements exactly when no key occurs twice. -/
theorem length_eq_card_keysOf_iff :
    items.length = (keysOf key items).card ↔ (items.map key).Nodup := by
  rw [keysOf, List.card_toFinset, ← List.length_map key, eq_comm]
  constructor
  · intro h
    rw [← List.dedup_eq_self]
    exact (List.dedup_sublist _).eq_of_length h
  · intro h
    rw [h.dedup]

/-- Where the rest does not have a key, all elements of that key are chosen. -/
theorem all_chosen_of_notMem_keysOf {chosen : α → Bool} {k : κ}
    (h : k ∉ keysOf key (items.filter fun item => !chosen item)) :
    ∀ item ∈ items.filter (fun item => key item = k), chosen item = true := by
  intro item hmem
  rcases List.mem_filter.mp hmem with ⟨hitem, hkey⟩
  by_contra hnot
  exact h (mem_keysOf.mpr ⟨item, List.mem_filter.mpr ⟨hitem, by simpa using hnot⟩,
    by simpa using hkey⟩)

/-- A chosen element that is alone with its key leaves that key to none of the rest. -/
theorem notMem_keysOf_of_alone {chosen : α → Bool} {item : α} (hitem : item ∈ items)
    (hchosen : chosen item = true)
    (halone : (items.filter fun other => key other = key item).length = 1) :
    key item ∉ keysOf key (items.filter fun item => !chosen item) := by
  intro hrest
  rcases mem_keysOf.mp hrest with ⟨other, hother, hkey⟩
  rcases List.mem_filter.mp hother with ⟨hother, hnot⟩
  rcases List.length_eq_one_iff.mp halone with ⟨only, honly⟩
  have hitemOnly : item ∈ [only] := honly ▸ List.mem_filter.mpr ⟨hitem, by simp⟩
  have hotherOnly : other ∈ [only] := honly ▸ List.mem_filter.mpr ⟨hother, by simp [hkey]⟩
  obtain rfl : item = only := by simpa using hitemOnly
  obtain rfl : other = item := by simpa using hotherOnly
  simp [hchosen] at hnot

/-- The keys of a list are those of the rest and those that only chosen elements have. -/
theorem card_keysOf_eq_sum (key : α → κ) (items : List α) (chosen : α → Bool) :
    (keysOf key items).card = (keysOf key (items.filter fun item => !chosen item)).card +
      ∑ k ∈ keysOf key items,
        if k ∈ keysOf key (items.filter fun item => !chosen item) then 0 else 1 := by
  have hsubset := keysOf_filter_subset key items fun item => !chosen item
  rw [Finset.sum_ite, Finset.sum_const_zero, zero_add, ← Finset.card_eq_sum_ones,
    Finset.filter_notMem_eq_sdiff, ← Finset.card_sdiff_add_card_eq_card hsubset, add_comm]

/-- The keys all of whose elements are chosen are as many as the chosen elements exactly when each
chosen element is alone with its key. -/
theorem countP_add_card_keysOf_iff (chosen : α → Bool) :
    items.countP chosen + (keysOf key (items.filter fun item => !chosen item)).card =
        (keysOf key items).card ↔
      ∀ item ∈ items, chosen item = true →
        (items.filter fun other => key other = key item).length = 1 := by
  have hcount := countP_eq_sum key chosen items (keysOf key items) fun item hitem =>
    mem_keysOf.mpr ⟨item, hitem, rfl⟩
  -- a key that no element of the rest has counts one, which is no more than its chosen elements
  have hle : ∀ k ∈ keysOf key items,
      (if k ∈ keysOf key (items.filter fun item => !chosen item) then 0 else 1) ≤
        (items.filter fun item => key item = k).countP chosen := by
    intro k hk
    split
    · exact Nat.zero_le _
    · rename_i hrest
      rcases mem_keysOf.mp hk with ⟨item, hitem, rfl⟩
      have hmem : item ∈ items.filter fun other => key other = key item :=
        List.mem_filter.mpr ⟨hitem, by simp⟩
      exact List.countP_pos_iff.mpr ⟨item, hmem, all_chosen_of_notMem_keysOf hrest item hmem⟩
  have hiff := Finset.sum_eq_sum_iff_of_le hle
  rw [← hcount] at hiff
  rw [card_keysOf_eq_sum key items chosen, add_comm, add_right_inj, eq_comm, hiff]
  constructor
  · intro h item hitem hchosen
    have hterm := h (key item) (mem_keysOf.mpr ⟨item, hitem, rfl⟩)
    have hpos : 0 < (items.filter fun other => key other = key item).countP chosen :=
      List.countP_pos_iff.mpr ⟨item, List.mem_filter.mpr ⟨hitem, by simp⟩, hchosen⟩
    split at hterm
    · omega
    · rename_i hrest
      rw [hterm, eq_comm, List.countP_eq_length]
      exact all_chosen_of_notMem_keysOf hrest
  · intro h k hk
    split
    · rename_i hrest
      rw [eq_comm, List.countP_eq_zero]
      intro other hother hchosen
      rcases List.mem_filter.mp hother with ⟨hmem, hkey⟩
      have hkey : key other = k := by simpa using hkey
      exact notMem_keysOf_of_alone hmem hchosen (h other hmem hchosen) (hkey ▸ hrest)
    · rename_i hrest
      rcases mem_keysOf.mp hk with ⟨item, hitem, rfl⟩
      have hall := all_chosen_of_notMem_keysOf hrest
      have hone := h item hitem (hall item (List.mem_filter.mpr ⟨hitem, by simp⟩))
      rw [← hone, eq_comm, List.countP_eq_length]
      exact hall

end Keys

end Dedup
