/-
Module: Dedup.Lib.Slots
Purpose: A block of memory slots with checked access.  A slot is empty until it is written; reading
  an empty slot and touching a slot outside the block are faults.  The front of a block holds a
  list where its first slots are the entries of the list; each access is told by what it does to
  the list held.
Trusted boundary: none
Main exports: Fault, Slots.Block, Slots.resize, Slots.read, Slots.write, Slots.moveDown,
  Slots.Holds, Slots.holds_write_set, Slots.holds_write_push, Slots.holds_moveDown
-/
import Mathlib

namespace Dedup

/-- Why a computation over a block has no result: an access outside the block or to an empty slot,
or a loop with fewer rounds than it takes. -/
inductive Fault where
  | outOfBounds
  | emptySlot
  | outOfFuel
deriving DecidableEq, Repr

namespace Slots

/-- A block of slots, some of them written. -/
abbrev Block (α : Type) := List (Option α)

variable {α : Type}

/-- A fresh block. -/
def alloc (n : Nat) : Block α :=
  List.replicate n none

/-- A block of `n` slots that starts with what the old one held. -/
def resize (block : Block α) (n : Nat) : Block α :=
  block.take n ++ List.replicate (n - block.length) none

def read (block : Block α) (i : Nat) : Except Fault α :=
  match block[i]? with
  | none => .error .outOfBounds
  | some none => .error .emptySlot
  | some (some a) => .ok a

def write (block : Block α) (i : Nat) (a : α) : Except Fault (Block α) :=
  if i < block.length then .ok (block.set i (some a)) else .error .outOfBounds

/-- `n` slots from `i` on move one place down, in ascending order. -/
def moveDown (block : Block α) (i : Nat) : Nat → Except Fault (Block α)
  | 0 => .ok block
  | n + 1 => do
      let a ← read block i
      let block ← write block (i - 1) a
      moveDown block (i + 1) n

/-- The first slots of the block are the entries of the list. -/
def Holds (block : Block α) (xs : List α) : Prop :=
  xs.map some <+: block

theorem holds_nil (block : Block α) : Holds block [] :=
  List.nil_prefix

/-- A block that holds a list holds its beginnings. -/
theorem Holds.front {block : Block α} {xs ys : List α} (h : Holds block (xs ++ ys)) :
    Holds block xs := by
  unfold Holds at h
  rw [List.map_append] at h
  exact (List.prefix_append _ _).trans h

@[simp] theorem length_resize (block : Block α) (n : Nat) : (resize block n).length = n := by
  simp only [resize, List.length_append, List.length_take, List.length_replicate]
  omega

/-- A resized block holds what fits. -/
theorem Holds.resize {block : Block α} {xs : List α} (h : Holds block xs) {n : Nat}
    (hn : xs.length ≤ n) : Holds (Slots.resize block n) xs := by
  have htake : xs.map some <+: block.take n := by
    rw [List.prefix_take_iff]
    exact ⟨h, by simpa using hn⟩
  exact htake.trans (List.prefix_append _ _)

/-- A held entry is what its slot reads. -/
theorem Holds.read {block : Block α} {xs : List α} (h : Holds block xs) {i : Nat} {a : α}
    (ha : xs[i]? = some a) : Slots.read block i = .ok a := by
  obtain ⟨rest, rfl⟩ := h
  have hlt : i < (xs.map some).length := by
    simpa using (List.getElem?_eq_some_iff.mp ha).1
  simp [Slots.read, List.getElem?_append_left hlt, ha]

/-- Writing a held slot updates the list. -/
theorem holds_write_set {block : Block α} {xs : List α} (h : Holds block xs) {i : Nat}
    (hi : i < xs.length) (a : α) :
    ∃ block', write block i a = .ok block' ∧ Holds block' (xs.set i a) ∧
      block'.length = block.length := by
  obtain ⟨rest, rfl⟩ := h
  have hlt : i < (xs.map some).length := by simpa using hi
  refine ⟨_, if_pos (by simp only [List.length_append]; omega), ?_, List.length_set⟩
  rw [List.set_append_left _ _ hlt, ← List.map_set]
  exact List.prefix_append _ _

/-- Writing the slot behind the list appends to the list. -/
theorem holds_write_push {block : Block α} {xs : List α} (h : Holds block xs)
    (hlt : xs.length < block.length) (a : α) :
    ∃ block', write block xs.length a = .ok block' ∧ Holds block' (xs ++ [a]) ∧
      block'.length = block.length := by
  obtain ⟨rest, rfl⟩ := h
  refine ⟨_, if_pos hlt, ?_, List.length_set⟩
  cases rest with
  | nil => simp at hlt
  | cons slot rest =>
      refine ⟨rest, ?_⟩
      rw [List.set_append_right _ _ (by simp)]
      simp

/-- Moving the entries behind one of the list down deletes that one. -/
theorem holds_moveDown {block : Block α} {front rest : List α} {e : α}
    (h : Holds block (front ++ e :: rest)) :
    ∃ block', moveDown block (front.length + 1) rest.length = .ok block' ∧
      Holds block' (front ++ rest) ∧ block'.length = block.length := by
  induction rest generalizing block front e with
  | nil => exact ⟨block, rfl, by simpa using h.front, rfl⟩
  | cons a rest ih =>
      have hread : read block (front.length + 1) = .ok a := h.read (by simp)
      obtain ⟨written, hwrite, hholds, hlength⟩ :=
        holds_write_set h (by simp : front.length < (front ++ e :: a :: rest).length) a
      have hmoved : Holds written ((front ++ [a]) ++ a :: rest) := by
        simpa [List.set_append_right] using hholds
      obtain ⟨block', hmove, hresult, hsame⟩ := ih hmoved
      refine ⟨block', ?_, by simpa using hresult, hsame.trans hlength⟩
      simp only [List.length_cons, moveDown, hread, Nat.add_sub_cancel, bind, Except.bind, hwrite]
      simpa using hmove

end Slots

end Dedup
