/-
Module: Dedup.Lib.FirstWins
Purpose: The naive map in which the first binding of a key stays: inserting under a key that is
  taken changes nothing and returns the value that holds it.  A run of insertions returns, for
  each key, the first value that was inserted under it; its matches pair every later value of a
  key with that first one.
Trusted boundary: none
Main exports: insert, run, run_append_singleton, run_apply, matched, matched_append_singleton,
  matched_filter, mem_matched, exists_mem_matched_iff
-/
import Mathlib

namespace Dedup.FirstWins

variable {κ ν : Type} [DecidableEq κ]

/-- Insert under a key, unless it is taken; returns the map and the earlier value. -/
def insert (map : κ → Option ν) (key : κ) (value : ν) : (κ → Option ν) × Option ν :=
  match map key with
  | some old => (map, some old)
  | none => (Function.update map key (some value), none)

/-- The map after a sequence of insertions. -/
def run (bindings : List (κ × ν)) : κ → Option ν :=
  bindings.foldl (fun map binding => (insert map binding.1 binding.2).1) fun _ => none

@[simp] theorem insert_snd (map : κ → Option ν) (key : κ) (value : ν) :
    (insert map key value).2 = map key := by
  unfold insert
  split <;> simp_all

/-- One insertion, read at every key. -/
theorem insert_fst_apply (map : κ → Option ν) (key : κ) (value : ν) (key' : κ) :
    (insert map key value).1 key' = (map key').or (if key' = key then some value else none) := by
  unfold insert
  by_cases hkey : key' = key
  · subst hkey
    split <;> simp_all
  · split <;> simp [hkey]

theorem run_append_singleton (bindings : List (κ × ν)) (key : κ) (value : ν) :
    run (bindings ++ [(key, value)]) = (insert (run bindings) key value).1 := by
  simp [run, List.foldl_append]

/-- The run holds, under every key, the first value inserted there. -/
theorem run_apply (bindings : List (κ × ν)) (key : κ) :
    run bindings key = (bindings.find? fun binding => binding.1 = key).map Prod.snd := by
  induction bindings using List.reverseRecOn with
  | nil => rfl
  | append_singleton bindings binding ih =>
      rcases binding with ⟨key', value⟩
      rw [run_append_singleton, insert_fst_apply, ih, List.find?_append]
      by_cases hkey : key = key'
      · subst hkey
        cases hfind : bindings.find? fun binding => binding.1 = key <;> simp
      · cases hfind : bindings.find? fun binding => binding.1 = key <;>
          simp [hkey, Ne.symm hkey]

/-- The insertions of a run that found their key taken: the key, the value that held it and the
value that was turned away. -/
def matched : List (κ × ν) → List (κ × ν × ν) :=
  fun bindings => go (fun _ => none) bindings
where
  go (map : κ → Option ν) : List (κ × ν) → List (κ × ν × ν)
    | [] => []
    | (key, value) :: bindings =>
        ((insert map key value).2.map fun old => (key, old, value)).toList ++
          go (insert map key value).1 bindings

theorem matched_go_append (map : κ → Option ν) (bindings more : List (κ × ν)) :
    matched.go map (bindings ++ more) = matched.go map bindings ++
      matched.go (bindings.foldl (fun map binding => (insert map binding.1 binding.2).1) map)
        more := by
  induction bindings generalizing map with
  | nil => rfl
  | cons binding bindings ih =>
      simp only [List.cons_append, matched.go, List.foldl_cons, ih, List.append_assoc]

/-- One more insertion matches what the run holds under its key. -/
theorem matched_append_singleton (bindings : List (κ × ν)) (key : κ) (value : ν) :
    matched (bindings ++ [(key, value)]) =
      matched bindings ++ ((run bindings key).map fun old => (key, old, value)).toList := by
  rw [matched, matched_go_append]
  simp [matched, matched.go, run]

/-- The matches of a key: its later values, each with its first one. -/
theorem matched_filter (bindings : List (κ × ν)) (key : κ) :
    (matched bindings).filter (fun entry => entry.1 = key) =
      match bindings.filter (fun binding => binding.1 = key) with
      | [] => []
      | first :: rest => rest.map fun binding => (key, first.2, binding.2) := by
  induction bindings using List.reverseRecOn with
  | nil => rfl
  | append_singleton bindings binding ih =>
      rcases binding with ⟨key', value⟩
      rw [matched_append_singleton, List.filter_append, List.filter_append, ih, run_apply]
      by_cases hkey : key' = key
      · subst hkey
        rw [← List.head?_filter]
        cases bindings.filter fun binding => binding.1 = key' <;> simp
      · cases bindings.find? fun binding => binding.1 = key' <;> simp [hkey]

/-- A match pairs a later value of its key with the first one. -/
theorem mem_matched {bindings : List (κ × ν)} {key : κ} {old value : ν}
    (h : (key, old, value) ∈ matched bindings) :
    ∃ rest, bindings.filter (fun binding => binding.1 = key) = (key, old) :: rest ∧
      (key, value) ∈ rest := by
  have hmem : (key, old, value) ∈ (matched bindings).filter fun entry => entry.1 = key := by
    simpa using h
  rw [matched_filter] at hmem
  cases hfilter : bindings.filter fun binding => binding.1 = key with
  | nil => simp [hfilter] at hmem
  | cons first rest =>
      rw [hfilter] at hmem
      rcases List.mem_map.mp hmem with ⟨⟨key', value'⟩, hrest, hentry⟩
      have hkeys : ∀ binding ∈ first :: rest, binding.1 = key := by
        intro binding hbinding
        rw [← hfilter] at hbinding
        simpa using (List.mem_filter.mp hbinding).2
      rcases first with ⟨key'', first⟩
      obtain rfl : key'' = key := hkeys _ List.mem_cons_self
      obtain rfl : key' = key'' := hkeys _ (List.mem_cons_of_mem _ hrest)
      simp only [Prod.mk.injEq, true_and] at hentry
      rcases hentry with ⟨rfl, rfl⟩
      exact ⟨rest, rfl, hrest⟩

/-- A key has a match exactly when it was inserted at least twice. -/
theorem exists_mem_matched_iff (bindings : List (κ × ν)) (key : κ) :
    (∃ old value, (key, old, value) ∈ matched bindings) ↔
      2 ≤ (bindings.filter fun binding => binding.1 = key).length := by
  constructor
  · rintro ⟨old, value, h⟩
    rcases mem_matched h with ⟨rest, hfilter, hrest⟩
    have hpos := List.length_pos_of_mem hrest
    simp only [hfilter, List.length_cons]
    omega
  · intro h
    have hfilter := matched_filter bindings key
    match hbindings : bindings.filter fun binding => binding.1 = key with
    | [] => simp [hbindings] at h
    | [_] => simp [hbindings] at h
    | first :: second :: rest =>
        rw [hbindings] at hfilter
        have hmem : (key, first.2, second.2) ∈
            (matched bindings).filter fun entry => entry.1 = key := by
          simp [hfilter]
        exact ⟨first.2, second.2, (List.mem_filter.mp hmem).1⟩

end Dedup.FirstWins
