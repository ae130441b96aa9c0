/-
Module: Dedup.Lib.TailQueue
Purpose: Singly linked tail queues through the blocks of a heap.  The head holds the addresses of
  the first and of the last entry, and each entry that of the next one.  Appending writes through
  the address of the last entry, so the head must never keep that of an entry that was taken.
Imports: Dedup.Lib.Heap
Trusted boundary: none
Main exports: Head, Entry, append, removeFirst, queueCells, append_spec, removeFirst_spec
-/
import Dedup.Lib.Heap

namespace Dedup.TailQueue

open Heap

variable {β τ : Type}

/-- How a block holds the head of a queue: its first and its last entry. -/
structure Head (β : Type) where
  pack : Option Addr → Option Addr → β
  view : β → Option (Option Addr × Option Addr)
  view_pack : ∀ first last, view (pack first last) = some (first, last)

/-- A structure on the heap that is linked into queues by one of its blocks. -/
class Entry (β : outParam Type) (τ : Type) where
  addr : τ → Addr
  block : τ → Option Addr → β
  rest : τ → Multiset (Addr × β)
  next : β → Option (Option Addr)
  relink : Option Addr → β → Option β
  next_block : ∀ entry link, next (block entry link) = some link
  relink_block : ∀ entry link link', relink link' (block entry link) = some (block entry link')

open Entry (addr block rest)

/-! ### Operations -/

section Operations

variable (head : Head β) (next : β → Option (Option Addr)) (relink : Option Addr → β → Option β)

/-- `STAILQ_EMPTY` and `STAILQ_FIRST`. -/
def first (queue : Addr) : Prog β (Option Addr) := do
  let (first, _) ← loadAs head.view queue
  return first

/-- `STAILQ_INSERT_TAIL` of an entry whose link is empty. -/
def append (queue entry : Addr) : Prog β Unit := do
  let (first, last) ← loadAs head.view queue
  match last with
  | none => store queue (head.pack (some entry) (some entry))
  | some last => do
      let linked ← loadAs (relink (some entry)) last
      store last linked
      store queue (head.pack first (some entry))

/-- `STAILQ_REMOVE` of the first entry. -/
def removeFirst (queue entry : Addr) : Prog β Unit := do
  let (_, last) ← loadAs head.view queue
  match (← loadAs next entry) with
  | none => store queue (head.pack none none)
  | some second => store queue (head.pack (some second) last)

end Operations

/-! ### What they do to the entries -/

section Specs

variable [Entry β τ] {head : Head β} {queue : Addr}

/-- The block of an entry with a link, and what else the entry owns. -/
def entryCells (entry : τ) (link : Option Addr) : Multiset (Addr × β) :=
  (addr entry, block entry link) ::ₘ rest entry

/-- Entries that are linked one to the next, and the last one to `link`. -/
def chainCells : List τ → Option Addr → Multiset (Addr × β)
  | [], _ => 0
  | [entry], link => entryCells entry link
  | entry :: second :: entries, link =>
      entryCells entry (some (addr second)) + chainCells (second :: entries) link

/-- A queue with its entries. -/
def queueCells (head : Head β) (queue : Addr) (entries : List τ) : Multiset (Addr × β) :=
  (queue, head.pack (entries.head?.map addr) (entries.getLast?.map addr)) ::ₘ
    chainCells entries none

/-- The first entry of a chain is linked to the second. -/
theorem chainCells_cons (entry : τ) (entries : List τ) :
    chainCells (entry :: entries) none =
      entryCells entry (entries.head?.map addr) + chainCells entries none := by
  cases entries with
  | nil => simp [chainCells]
  | cons second entries => rfl

/-- The last entry of a chain is linked to whatever follows. -/
theorem chainCells_append_singleton (entries : List τ) (last : τ) (link : Option Addr) :
    chainCells (entries ++ [last]) link =
      chainCells entries (some (addr last)) + entryCells last link := by
  induction entries with
  | nil => simp [chainCells]
  | cons entry entries ih =>
      cases entries with
      | nil => rfl
      | cons second entries =>
          simp only [List.cons_append] at ih ⊢
          rw [chainCells, ih, chainCells, add_assoc]

theorem first_spec (entries : List τ) :
    Triple (queueCells head queue entries) (first head queue) fun result cells =>
      result = entries.head?.map addr ∧ cells = queueCells head queue entries :=
  Triple.loadAs_then (Multiset.mem_cons_self _ _) (head.view_pack _ _) (Triple.pure ⟨rfl, rfl⟩)

/-- An entry joins the queue at its end. -/
theorem append_spec (entries : List τ) (entry : τ) :
    Triple (queueCells head queue entries + entryCells entry none)
      (append head (Entry.relink τ) queue (addr entry)) fun _ cells =>
        cells = queueCells head queue (entries ++ [entry]) := by
  refine Triple.loadAs_then
    (Multiset.mem_add.mpr (Or.inl (Multiset.mem_cons_self _ _))) (head.view_pack _ _) ?_
  rcases List.eq_nil_or_concat entries with rfl | ⟨front, last, rfl⟩
  · refine (Triple.store _ (Multiset.cons_add _ _ _)).weaken ?_
    rintro _ _ rfl
    simp [queueCells, chainCells]
  · rw [List.concat_eq_append]
    -- the entry that was the last one is linked to the new one
    simp only [List.getLast?_append, List.getLast?_singleton, Option.some_or, Option.map_some]
    have hsplit : queueCells head queue (front ++ [last]) + entryCells entry none =
        (addr last, block last none) ::ₘ
          ((queue, head.pack ((front ++ [last]).head?.map addr) (some (addr last))) ::ₘ
            (chainCells front (some (addr last)) + rest last + entryCells entry none)) := by
      simp only [queueCells, chainCells_append_singleton, entryCells, List.getLast?_append,
        List.getLast?_singleton, Option.some_or, Option.map_some, ← Multiset.singleton_add]
      abel
    have hlast : (addr last, block last none) ∈
        queueCells head queue (front ++ [last]) + entryCells entry none := by
      rw [hsplit]
      exact Multiset.mem_cons_self _ _
    refine Triple.loadAs_then hlast (Entry.relink_block last none _) ?_
    refine Triple.store_then hsplit ?_
    refine (Triple.store _ (Multiset.cons_swap _ _ _)).weaken ?_
    rintro _ _ rfl
    simp only [queueCells, chainCells_append_singleton, entryCells, List.getLast?_append,
      List.getLast?_singleton, Option.some_or, Option.map_some, List.head?_append,
      ← Multiset.singleton_add]
    cases front <;> simp

/-- The first entry leaves the queue, still linked to the one behind it. -/
theorem removeFirst_spec (entry : τ) (entries : List τ) :
    Triple (queueCells head queue (entry :: entries))
      (removeFirst head (Entry.next τ) queue (addr entry)) fun _ cells =>
        cells = queueCells head queue entries + entryCells entry (entries.head?.map addr) := by
  have hentry : (addr entry, block entry (entries.head?.map addr)) ∈
      queueCells head queue (entry :: entries) := by
    simp [queueCells, chainCells_cons, entryCells]
  refine Triple.loadAs_then (Multiset.mem_cons_self _ _) (head.view_pack _ _) ?_
  refine Triple.loadAs_then hentry (Entry.next_block entry _) ?_
  cases entries with
  | nil =>
      refine (Triple.store _ rfl).weaken ?_
      rintro _ _ rfl
      simp [queueCells, chainCells]
  | cons second entries =>
      refine (Triple.store _ rfl).weaken ?_
      rintro _ _ rfl
      simp only [queueCells, chainCells_cons entry, List.head?_cons, Option.map_some,
        List.getLast?_cons_cons, ← Multiset.singleton_add]
      abel

end Specs

end Dedup.TailQueue
