/-
Module: Dedup.AList
Purpose: The dynamic list of `alist.c` over a block of slots, and the list it stands for.  The front
  of the block holds the items, and `alist_ensure` makes room for one more by doubling; a list
  created without any room has nothing to double.
Imports: Dedup.Lib.Slots
Trusted boundary: allocation succeeds, and no size or capacity reaches the limit of `size_t`
Main exports: AList, newAlistWithCapacity, alistEnsure, alistAdd, alistSet, alistRemove, alistGet,
  Represents, AListOp, BehavesAsSequence, runOps_spec, behavesAsSequence_iff, empty_capacity_diverges
-/
import Dedup.Lib.Slots

namespace Dedup

open Slots

/-- `AList`. -/
structure AList (α : Type) where
  size : Nat
  capacity : Nat
  elements : Block α
deriving DecidableEq, Repr

variable {α : Type}

/-- `new_alist_with_capacity`. -/
def newAlistWithCapacity (initial : Nat) : AList α where
  size := 0
  capacity := initial
  elements := alloc initial

/-- `alist_ensure`; `fuel` bounds the tests of its loop. -/
def alistEnsure (fuel : Nat) (list : AList α) (required : Nat) : Except Fault (AList α) :=
  match fuel with
  | 0 => .error .outOfFuel
  | fuel + 1 =>
      if list.capacity < required then
        let newCapacity := list.capacity * 2
        alistEnsure fuel
          { list with elements := resize list.elements newCapacity, capacity := newCapacity } required
      else .ok list

/-- `alist_size`. -/
def alistSize (list : AList α) : Nat :=
  list.size

/-- `alist_get`: `none` where the C function returns `NULL`. -/
def alistGet (list : AList α) (index : Nat) : Except Fault (Option α) :=
  if index ≥ list.size then .ok none
  else do return some (← read list.elements index)

/-- `alist_add`. -/
def alistAdd (fuel : Nat) (list : AList α) (item : α) : Except Fault (AList α) := do
  let list ← alistEnsure fuel list (list.size + 1)
  let elements ← write list.elements list.size item
  return { list with elements := elements, size := list.size + 1 }

/-- `alist_set`. -/
def alistSet (list : AList α) (index : Nat) (item : α) : Except Fault (AList α) :=
  if index ≥ list.size then .ok list
  else do return { list with elements := ← write list.elements index item }

/-- `alist_remove`: the list, and the item it returns. -/
def alistRemove (list : AList α) (index : Nat) : Except Fault (AList α × Option α) :=
  if index ≥ list.size then .ok (list, none)
  else do
    let e ← read list.elements index
    -- one round for each `i` from `index + 1` below the size
    let elements ← moveDown list.elements (index + 1) (list.size - (index + 1))
    return ({ list with elements := elements, size := list.size - 1 }, some e)

/-! ### Sequences of calls -/

/-- A call that changes a list. -/
inductive AListOp (α : Type) where
  | add (item : α)
  | set (index : Nat) (item : α)
  | remove (index : Nat)
deriving DecidableEq, Repr

namespace AListOp

/-- A call of the C functions. -/
def run (fuel : Nat) (list : AList α) : AListOp α → Except Fault (AList α)
  | .add item => alistAdd fuel list item
  | .set index item => alistSet list index item
  | .remove index => do return (← alistRemove list index).1

/-- What the call means for the list of the items: `add` appends, `set` and `remove` do nothing out of
range. -/
def apply (xs : List α) : AListOp α → List α
  | .add item => xs ++ [item]
  | .set index item => xs.set index item
  | .remove index => xs.eraseIdx index

end AListOp

/-- A sequence of calls, each with at most `fuel` rounds in its loop. -/
def runOps (fuel : Nat) (list : AList α) (ops : List (AListOp α)) : Except Fault (AList α) :=
  ops.foldlM (fun list op => op.run fuel list) list

/-- The list after a sequence of calls on the empty one. -/
def appliedOps (ops : List (AListOp α)) : List α :=
  ops.foldl AListOp.apply []

/-- Every call of the sequence ends without touching a slot outside the allocation, the size stays
within the capacity and the capacity within the allocation, and `alist_size` and `alist_get` read
the list of the items back. -/
def BehavesAsSequence (initial : Nat) (ops : List (AListOp α)) : Prop :=
  ∀ done, done <+: ops → ∃ fuel list,
    runOps fuel (newAlistWithCapacity initial) done = .ok list ∧
      list.size ≤ list.capacity ∧ list.elements.length = list.capacity ∧
      alistSize list = (appliedOps done).length ∧
      ∀ index, alistGet list index = .ok (appliedOps done)[index]?

/-! ### Single calls -/

/-- A list with room to double stands for the list of its items. -/
structure Represents (list : AList α) (xs : List α) : Prop where
  positive : 0 < list.capacity
  size_eq : list.size = xs.length
  size_le : list.size ≤ list.capacity
  allocated : list.elements.length = list.capacity
  holds : Holds list.elements xs

theorem represents_new {initial : Nat} (h : 0 < initial) :
    Represents (newAlistWithCapacity initial : AList α) [] where
  positive := h
  size_eq := rfl
  size_le := Nat.zero_le _
  allocated := List.length_replicate
  holds := holds_nil _

/-- `alist_ensure` doubles a positive capacity until it suffices, in no more tests than what is
missing. -/
theorem alistEnsure_spec {fuel : Nat} {list : AList α} {xs : List α} {required : Nat}
    (h : Represents list xs) (hpos : 0 < fuel) (hfuel : required < list.capacity + fuel) :
    ∃ grown, alistEnsure fuel list required = .ok grown ∧ Represents grown xs ∧
      required ≤ grown.capacity := by
  induction fuel generalizing list with
  | zero => exact absurd hpos (Nat.lt_irrefl 0)
  | succ fuel ih =>
      have hcapacity := h.positive
      have hsize := h.size_eq
      have hle := h.size_le
      simp only [alistEnsure]
      split
      · rename_i hshort
        have hdoubled : Represents
            { list with
              capacity := list.capacity * 2
              elements := resize list.elements (list.capacity * 2) } xs :=
          { positive := by dsimp only; omega
            size_eq := hsize
            size_le := by dsimp only; omega
            allocated := length_resize _ _
            holds := h.holds.resize (by omega) }
        exact ih hdoubled (by omega) (by dsimp only; omega)
      · rename_i hroom
        exact ⟨list, rfl, h, Nat.le_of_not_lt hroom⟩

/-- `alist_ensure` never ends on a list without capacity. -/
theorem alistEnsure_diverges (fuel : Nat) {list : AList α} {required : Nat}
    (hcapacity : list.capacity = 0) (hrequired : 0 < required) :
    alistEnsure fuel list required = .error .outOfFuel := by
  induction fuel generalizing list with
  | zero => rfl
  | succ fuel ih =>
      simp only [alistEnsure, hcapacity, if_pos hrequired]
      exact ih rfl

/-- `alist_add` appends, in two tests of the loop. -/
theorem alistAdd_spec {list : AList α} {xs : List α} (h : Represents list xs) (item : α) :
    ∃ added, alistAdd 2 list item = .ok added ∧ Represents added (xs ++ [item]) := by
  have hle := h.size_le
  have hfuel : list.size + 1 < list.capacity + 2 := by omega
  obtain ⟨grown, hensure, hgrown, hroom⟩ := alistEnsure_spec h (by decide) hfuel
  have hsize : grown.size = list.size := hgrown.size_eq.trans h.size_eq.symm
  obtain ⟨elements, hwrite, hholds, hlength⟩ := holds_write_push hgrown.holds
    (by rw [hgrown.allocated, ← hgrown.size_eq]; omega) item
  rw [← hgrown.size_eq] at hwrite
  refine ⟨{ grown with elements := elements, size := grown.size + 1 }, ?_, ?_⟩
  · simp only [alistAdd, hensure, bind, Except.bind, hwrite]
    rfl
  · exact
      { positive := hgrown.positive
        size_eq := by simp [hgrown.size_eq]
        size_le := by dsimp only; omega
        allocated := hlength.trans hgrown.allocated
        holds := hholds }

/-- `alist_set` updates in range. -/
theorem alistSet_spec {list : AList α} {xs : List α} (h : Represents list xs) (index : Nat)
    (item : α) :
    ∃ updated, alistSet list index item = .ok updated ∧
      Represents updated (xs.set index item) := by
  have hsize := h.size_eq
  unfold alistSet
  split
  · rename_i hout
    refine ⟨list, rfl, ?_⟩
    rw [List.set_eq_of_length_le (by omega)]
    exact h
  · obtain ⟨elements, hwrite, hholds, hlength⟩ :=
      holds_write_set h.holds (i := index) (by omega) item
    refine ⟨{ list with elements := elements }, ?_, ?_⟩
    · simp only [hwrite, bind, Except.bind]
      rfl
    · exact
        { positive := h.positive
          size_eq := by simp [hsize]
          size_le := h.size_le
          allocated := hlength.trans h.allocated
          holds := hholds }

/-- `alist_remove` deletes in range, and returns what it deletes. -/
theorem alistRemove_spec {list : AList α} {xs : List α} (h : Represents list xs) (index : Nat) :
    ∃ removed, alistRemove list index = .ok (removed, xs[index]?) ∧
      Represents removed (xs.eraseIdx index) := by
  have hsize := h.size_eq
  have hle := h.size_le
  unfold alistRemove
  split
  · rename_i hout
    refine ⟨list, ?_, ?_⟩
    · rw [List.getElem?_eq_none (by omega)]
    · rw [List.eraseIdx_of_length_le (by omega)]
      exact h
  · rename_i hin
    have hlt : index < xs.length := by omega
    have hget : xs[index]? = some xs[index] := List.getElem?_eq_getElem hlt
    have hsplit : xs.take index ++ xs[index] :: xs.drop (index + 1) = xs := by
      rw [List.getElem_cons_drop, List.take_append_drop]
    have hholds : Holds list.elements (xs.take index ++ xs[index] :: xs.drop (index + 1)) := by
      rw [hsplit]
      exact h.holds
    obtain ⟨elements, hmove, hresult, hlength⟩ := holds_moveDown hholds
    have hrounds : (xs.drop (index + 1)).length = list.size - (index + 1) := by
      rw [List.length_drop, hsize]
    rw [List.length_take_of_le hlt.le, hrounds] at hmove
    refine ⟨{ list with elements := elements, size := list.size - 1 }, ?_, ?_⟩
    · simp only [h.holds.read hget, bind, Except.bind, hmove, hget]
      rfl
    · exact
        { positive := h.positive
          size_eq := by dsimp only; rw [List.length_eraseIdx_of_lt hlt, hsize]
          size_le := by dsimp only; omega
          allocated := hlength.trans h.allocated
          holds := by rw [List.eraseIdx_eq_take_drop_succ]; exact hresult }

/-- `alist_get` reads the entry, or nothing out of range. -/
theorem alistGet_spec {list : AList α} {xs : List α} (h : Represents list xs) (index : Nat) :
    alistGet list index = .ok xs[index]? := by
  have hsize := h.size_eq
  unfold alistGet
  split
  · rw [List.getElem?_eq_none (by omega)]
  · have hget : xs[index]? = some xs[index] := List.getElem?_eq_getElem (by omega)
    rw [h.holds.read hget, hget]
    rfl

/-- Every call does to the items what it means. -/
theorem run_spec {list : AList α} {xs : List α} (h : Represents list xs) (op : AListOp α) :
    ∃ after, op.run 2 list = .ok after ∧ Represents after (op.apply xs) := by
  cases op with
  | add item => exact alistAdd_spec h item
  | set index item => exact alistSet_spec h index item
  | remove index =>
      obtain ⟨removed, hremove, hrepresents⟩ := alistRemove_spec h index
      refine ⟨removed, ?_, hrepresents⟩
      simp only [AListOp.run, hremove, bind, Except.bind]
      rfl

/-! ### Whole sequences -/

/-- With room to double, any sequence of calls does to the items what it means. -/
theorem runOps_spec {list : AList α} {xs : List α} (h : Represents list xs)
    (ops : List (AListOp α)) :
    ∃ after, runOps 2 list ops = .ok after ∧ Represents after (ops.foldl AListOp.apply xs) := by
  induction ops generalizing list xs with
  | nil => exact ⟨list, rfl, h⟩
  | cons op ops ih =>
      obtain ⟨next, hrun, hnext⟩ := run_spec h op
      obtain ⟨after, hafter, hrepresents⟩ := ih hnext
      refine ⟨after, ?_, hrepresents⟩
      simpa [runOps, List.foldlM_cons, hrun, bind, Except.bind] using hafter

/-- A list without capacity takes no item. -/
theorem alistAdd_diverges (fuel : Nat) (item : α) :
    alistAdd fuel (newAlistWithCapacity 0) item = .error .outOfFuel := by
  have hensure : alistEnsure fuel (newAlistWithCapacity 0 : AList α) 1 = .error .outOfFuel :=
    alistEnsure_diverges fuel rfl (by decide)
  unfold alistAdd
  exact congrArg (· >>= _) hensure

/-- Calls other than `add` leave the empty list as it is. -/
theorem run_empty (fuel : Nat) {op : AListOp α} (hop : ∀ item, op ≠ .add item) :
    op.run fuel (newAlistWithCapacity 0) = .ok (newAlistWithCapacity 0) ∧ op.apply [] = [] := by
  cases op with
  | add item => exact absurd rfl (hop item)
  | set index item => exact ⟨rfl, rfl⟩
  | remove index => exact ⟨rfl, rfl⟩

/-- Without an `add` a list without capacity stays empty. -/
theorem runOps_empty (fuel : Nat) {ops : List (AListOp α)} (hops : ∀ item, .add item ∉ ops) :
    runOps fuel (newAlistWithCapacity 0 : AList α) ops = .ok (newAlistWithCapacity 0) ∧
      appliedOps ops = [] := by
  induction ops with
  | nil => exact ⟨rfl, rfl⟩
  | cons op ops ih =>
      have hop : ∀ item, op ≠ .add item := by
        rintro item rfl
        exact hops item List.mem_cons_self
      obtain ⟨hrun, happly⟩ := run_empty fuel hop
      obtain ⟨hrest, happlied⟩ := ih fun item hmem => hops item (List.mem_cons_of_mem _ hmem)
      refine ⟨?_, ?_⟩
      · simpa [runOps, List.foldlM_cons, hrun, bind, Except.bind] using hrest
      · simpa [appliedOps, happly] using happlied

/-- Without capacity a sequence with an `add` does not end. -/
theorem runOps_diverges (fuel : Nat) {ops : List (AListOp α)} {item : α} (hadd : .add item ∈ ops) :
    runOps fuel (newAlistWithCapacity 0 : AList α) ops = .error .outOfFuel := by
  induction ops with
  | nil => simp at hadd
  | cons op ops ih =>
      by_cases hop : ∃ first, op = .add first
      · obtain ⟨first, rfl⟩ := hop
        simp [runOps, List.foldlM_cons, AListOp.run, alistAdd_diverges, bind, Except.bind]
      · push Not at hop
        have hrest : .add item ∈ ops := (List.mem_cons.mp hadd).resolve_left (hop item).symm
        simpa [runOps, List.foldlM_cons, (run_empty fuel hop).1, bind, Except.bind] using ih hrest

/-- A list is read back as what it stands for. -/
theorem Represents.readBack {list : AList α} {xs : List α} (h : Represents list xs) :
    list.size ≤ list.capacity ∧ list.elements.length = list.capacity ∧
      alistSize list = xs.length ∧ ∀ index, alistGet list index = .ok xs[index]? :=
  ⟨h.size_le, h.allocated, h.size_eq, alistGet_spec h⟩

/-- A list that is created with room for an item behaves as a sequence. -/
theorem behavesAsSequence_of_pos {initial : Nat} (h : 0 < initial) (ops : List (AListOp α)) :
    BehavesAsSequence initial ops := by
  intro done _
  obtain ⟨after, hrun, hafter⟩ := runOps_spec (represents_new h) done
  exact ⟨2, after, hrun, hafter.readBack⟩

/-- A list behaves as a sequence exactly when it is created with room for an item, or is never given
one. -/
theorem behavesAsSequence_iff (initial : Nat) (ops : List (AListOp α)) :
    BehavesAsSequence initial ops ↔ 0 < initial ∨ ∀ item, .add item ∉ ops := by
  constructor
  · intro hbehaves
    by_contra hnot
    push Not at hnot
    obtain ⟨hinitial, item, hadd⟩ := hnot
    obtain rfl : initial = 0 := Nat.le_zero.mp hinitial
    obtain ⟨fuel, list, hrun, _⟩ := hbehaves ops (List.prefix_refl _)
    rw [runOps_diverges fuel hadd] at hrun
    cases hrun
  · intro h
    rcases Nat.eq_zero_or_pos initial with rfl | hinitial
    · have hnone := h.resolve_left (Nat.lt_irrefl 0)
      intro done hdone
      obtain ⟨hrun, happlied⟩ :=
        runOps_empty (α := α) 0 fun item hmem => hnone item (hdone.subset hmem)
      refine ⟨0, _, hrun, Nat.le_refl _, rfl, by rw [happlied]; rfl, fun index => ?_⟩
      rw [happlied]
      rfl
    · exact behavesAsSequence_of_pos hinitial ops

/-- A list created with no capacity does not return from its first `add`. -/
theorem empty_capacity_diverges : ¬BehavesAsSequence 0 [AListOp.add 7] := by
  intro hbehaves
  obtain ⟨fuel, list, hrun, _⟩ := hbehaves _ (List.prefix_refl _)
  rw [runOps_diverges fuel List.mem_cons_self] at hrun
  cases hrun

end Dedup
