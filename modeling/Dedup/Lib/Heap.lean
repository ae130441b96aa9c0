/-
Module: Dedup.Lib.Heap
Purpose: Programs over a heap of allocated blocks, and a logic of what a program owns.  What is
  owned is a multiset of blocks, each with its address and its content; the owned parts of a heap
  add up, and a triple says that a program started on its part returns, and what it owns then,
  whatever the rest of the heap holds.  An access to a block that is not allocated is a fault.
Trusted boundary: allocation succeeds, and never returns an address a second time
Main exports: Heap, Heap.Fault, Heap.Prog, malloc, load, store, free, loadAs, Owns, Triple,
  Triple.bind, Triple.call, Triple.loadAs, Triple.store, Triple.malloc, Triple.free, Triple.foldlM
-/
import Mathlib

namespace Dedup

/-- The address of a block. -/
abbrev Addr := Nat

/-- A heap: the blocks that are allocated, all below the next address to be handed out. -/
structure Heap (β : Type) where
  block : Addr → Option β
  next : Addr
  fresh : ∀ a, next ≤ a → block a = none

namespace Heap

/-- Why a program over a heap has no result: it touches a block that is not allocated or a part
outside a block, it takes a block for something else than it is, or a loop has fewer rounds than it
takes. -/
inductive Fault where
  | dangling
  | outOfBounds
  | mistyped
  | outOfFuel
deriving DecidableEq, Repr

variable {α β γ δ : Type}

/-- The heap without a block. -/
def empty : Heap β where
  block := fun _ => none
  next := 0
  fresh := fun _ _ => rfl

/-- The heap with `content` at `a`, or with nothing there. -/
def set (heap : Heap β) (a : Addr) (content : Option β) : Heap β where
  block := Function.update heap.block a content
  next := max heap.next (a + 1)
  fresh := by
    intro b hb
    have hne : b ≠ a := Nat.ne_of_gt (Nat.le_trans (Nat.le_max_right _ _) hb)
    rw [Function.update_of_ne hne]
    exact heap.fresh b (Nat.le_trans (Nat.le_max_left _ _) hb)

/-- A program over the heap. -/
abbrev Prog (β α : Type) := StateT (Heap β) (Except Fault) α

/-- `malloc(3)`, with what is written into the new block at once. -/
def malloc (content : β) : Prog β Addr := fun heap =>
  .ok (heap.next, heap.set heap.next (some content))

/-- A read through a pointer. -/
def load (a : Addr) : Prog β β := fun heap =>
  match heap.block a with
  | none => .error .dangling
  | some content => .ok (content, heap)

/-- A write through a pointer. -/
def store (a : Addr) (content : β) : Prog β Unit := fun heap =>
  match heap.block a with
  | none => .error .dangling
  | some _ => .ok ((), heap.set a (some content))

/-- `free(3)`. -/
def free (a : Addr) : Prog β Unit := fun heap =>
  match heap.block a with
  | none => .error .dangling
  | some _ => .ok ((), heap.set a none)

/-- A program that has no result. -/
def fail (fault : Fault) : Prog β α := fun _ =>
  .error fault

/-- A read of a block that is taken for what `view` makes of it. -/
def loadAs (view : β → Option γ) (a : Addr) : Prog β γ := do
  match view (← load a) with
  | none => fail .mistyped
  | some value => pure value

/-! ### Ownership -/

/-- The allocated blocks are exactly `cells`, each at an address of its own. -/
structure Owns (heap : Heap β) (cells : Multiset (Addr × β)) : Prop where
  nodup : (cells.map Prod.fst).Nodup
  block : ∀ a content, heap.block a = some content ↔ (a, content) ∈ cells

theorem owns_empty : Owns (empty : Heap β) 0 where
  nodup := by simp
  block := by simp [empty]

namespace Owns

variable {heap : Heap β} {cells : Multiset (Addr × β)} {a : Addr} {content content' : β}

/-- An owned block has an address below the next one. -/
theorem lt_next (h : Owns heap cells) (hmem : (a, content) ∈ cells) : a < heap.next := by
  by_contra hle
  have hnone := heap.fresh a (Nat.le_of_not_lt hle)
  rw [(h.block a content).mpr hmem] at hnone
  cases hnone

/-- No other owned block has the address of the first one. -/
theorem ne_of_mem (h : Owns heap ((a, content) ::ₘ cells)) {b : Addr}
    (hmem : (b, content') ∈ cells) : b ≠ a := by
  have hnodup := h.nodup
  rw [Multiset.map_cons, Multiset.nodup_cons] at hnodup
  rintro rfl
  exact hnodup.1 (Multiset.mem_map.mpr ⟨_, hmem, rfl⟩)

/-- There are no more blocks than addresses that were handed out. -/
theorem card_le_next (h : Owns heap cells) : Multiset.card cells ≤ heap.next := by
  have hsub : (cells.map Prod.fst).toFinset ⊆ Finset.range heap.next := by
    intro a ha
    obtain ⟨⟨a, content⟩, hmem, rfl⟩ := Multiset.mem_map.mp (Multiset.mem_toFinset.mp ha)
    exact Finset.mem_range.mpr (h.lt_next hmem)
  have hcard := Finset.card_le_card hsub
  rwa [Multiset.toFinset_card_of_nodup h.nodup, Multiset.card_map, Finset.card_range] at hcard

/-- A new block is owned beside the old ones. -/
theorem malloc (h : Owns heap cells) (content : β) :
    Owns (heap.set heap.next (some content)) ((heap.next, content) ::ₘ cells) where
  nodup := by
    rw [Multiset.map_cons, Multiset.nodup_cons]
    refine ⟨fun hmem => ?_, h.nodup⟩
    obtain ⟨⟨b, old⟩, hold, heq⟩ := Multiset.mem_map.mp hmem
    exact absurd heq (Nat.ne_of_lt (h.lt_next hold))
  block := by
    intro b other
    rw [Multiset.mem_cons, Prod.mk.injEq]
    rcases eq_or_ne b heap.next with rfl | hne
    · have hold : (heap.next, other) ∉ cells := fun hmem => Nat.lt_irrefl _ (h.lt_next hmem)
      simp [Heap.set, hold, eq_comm]
    · simp [Heap.set, hne, h.block]

/-- A block is overwritten, and the others are kept. -/
theorem store (h : Owns heap ((a, content) ::ₘ cells)) (content' : β) :
    Owns (heap.set a (some content')) ((a, content') ::ₘ cells) where
  nodup := by simpa using h.nodup
  block := by
    intro b other
    rw [Multiset.mem_cons, Prod.mk.injEq]
    rcases eq_or_ne b a with rfl | hne
    · have hold : (b, other) ∉ cells := fun hmem => h.ne_of_mem hmem rfl
      simp [Heap.set, hold, eq_comm]
    · simp [Heap.set, hne, h.block]

/-- A block is given back, and the others are kept. -/
theorem free (h : Owns heap ((a, content) ::ₘ cells)) : Owns (heap.set a none) cells where
  nodup := (Multiset.nodup_cons.mp (by simpa using h.nodup)).2
  block := by
    intro b other
    rcases eq_or_ne b a with rfl | hne
    · have hold : (b, other) ∉ cells := fun hmem => h.ne_of_mem hmem rfl
      simp [Heap.set, hold]
    · simp [Heap.set, hne, h.block]

end Owns

/-! ### Triples -/

/-- Started where it owns `pre`, the program returns, and owns then what `post` says; the rest of
the heap is as it was. -/
def Triple (pre : Multiset (Addr × β)) (prog : Prog β α)
    (post : α → Multiset (Addr × β) → Prop) : Prop :=
  ∀ heap frame, Owns heap (pre + frame) → ∃ result heap' cells,
    prog.run heap = .ok (result, heap') ∧ post result cells ∧ Owns heap' (cells + frame)

namespace Triple

variable {pre rest : Multiset (Addr × β)} {a : Addr} {content content' : β}
  {post mid : α → Multiset (Addr × β) → Prop} {post' : γ → Multiset (Addr × β) → Prop}
  {prog : Prog β α} {f : α → Prog β γ}

theorem pure {value : α} (h : post value pre) : Triple pre (Pure.pure value : Prog β α) post :=
  fun heap _ howns => ⟨value, heap, pre, rfl, h, howns⟩

/-- The rule of sequences. -/
theorem bind (hprog : Triple pre prog mid)
    (hf : ∀ result cells, mid result cells → Triple cells (f result) post') :
    Triple pre (prog >>= f) post' := by
  intro heap frame howns
  obtain ⟨result, heap', cells, hrun, hmid, howns'⟩ := hprog heap frame howns
  obtain ⟨result', heap'', cells', hrun', hpost, howns''⟩ := hf result cells hmid heap' frame howns'
  refine ⟨result', heap'', cells', ?_, hpost, howns''⟩
  rw [StateT.run_bind, hrun]
  exact hrun'

/-- The rule of consequence. -/
theorem weaken (hprog : Triple pre prog mid)
    (h : ∀ result cells, mid result cells → post result cells) : Triple pre prog post := by
  intro heap frame howns
  obtain ⟨result, heap', cells, hrun, hmid, howns'⟩ := hprog heap frame howns
  exact ⟨result, heap', cells, hrun, h result cells hmid, howns'⟩

/-- The frame rule. -/
theorem framed (hprog : Triple pre prog mid) (frame : Multiset (Addr × β)) :
    Triple (pre + frame) prog fun result cells => ∃ part, mid result part ∧
      cells = part + frame := by
  intro heap other howns
  rw [add_assoc] at howns
  obtain ⟨result, heap', cells, hrun, hmid, howns'⟩ := hprog heap (frame + other) howns
  exact ⟨result, heap', cells + frame, hrun, ⟨cells, hmid, rfl⟩, by rwa [add_assoc]⟩

/-- A call on a part of what is owned. -/
theorem call {part : Multiset (Addr × β)} (hprog : Triple part prog mid)
    (frame : Multiset (Addr × β)) (hpre : pre = part + frame)
    (hf : ∀ result cells, mid result cells → Triple (cells + frame) (f result) post') :
    Triple pre (prog >>= f) post' := by
  subst hpre
  refine (hprog.framed frame).bind ?_
  rintro result _ ⟨cells, hmid, rfl⟩
  exact hf result cells hmid

/-- What is owned has no two blocks of one address. -/
theorem of_nodup (h : (pre.map Prod.fst).Nodup → Triple pre prog post) : Triple pre prog post := by
  intro heap frame howns
  have hnodup := howns.nodup
  rw [Multiset.map_add] at hnodup
  exact h (Multiset.nodup_of_le (Multiset.le_add_right _ _) hnodup) heap frame howns

/-- The rule of loops over a list: what holds after the items that were passed. -/
theorem foldlM {ι σ : Type} {body : σ → ι → Prog β σ} {items : List ι}
    {I : List ι → σ → Multiset (Addr × β) → Prop} {locals : σ}
    (hbody : ∀ done item rest, items = done ++ item :: rest → ∀ locals cells, I done locals cells →
      Triple cells (body locals item) (I (done ++ [item])))
    (h : I [] locals pre) : Triple pre (items.foldlM body locals) (I items) := by
  suffices hrest : ∀ rest done locals cells, items = done ++ rest → I done locals cells →
      Triple cells (rest.foldlM body locals) (I items) from hrest items [] locals pre rfl h
  intro rest
  induction rest with
  | nil =>
      intro done locals cells hitems h
      rw [List.append_nil] at hitems
      exact Triple.pure (hitems ▸ h)
  | cons item rest ih =>
      intro done locals cells hitems h
      rw [List.foldlM_cons]
      refine (hbody done item rest hitems locals cells h).bind fun locals' cells' h' => ?_
      exact ih (done ++ [item]) locals' cells' (by rw [hitems, List.append_assoc]; rfl) h'

/-- A loop that keeps what it owns. -/
theorem fold {ι σ : Type} {body : σ → ι → Prog β σ} {items : List ι} {step : σ → ι → σ} {locals : σ}
    (hbody : ∀ locals, ∀ item ∈ items, Triple pre (body locals item) fun result cells =>
      result = step locals item ∧ cells = pre) :
    Triple pre (items.foldlM body locals) fun result cells =>
      result = items.foldl step locals ∧ cells = pre := by
  refine foldlM (I := fun done result cells => result = done.foldl step locals ∧ cells = pre)
    ?_ ⟨rfl, rfl⟩
  rintro done item rest rfl _ _ ⟨rfl, rfl⟩
  refine (hbody _ item (by simp)).weaken ?_
  rintro _ _ ⟨rfl, rfl⟩
  exact ⟨by rw [List.foldl_append]; rfl, rfl⟩

/-- A call at the end of a program. -/
theorem last {part : Multiset (Addr × β)} (hprog : Triple part prog mid)
    (frame : Multiset (Addr × β)) (hpre : pre = part + frame)
    (h : ∀ result cells, mid result cells → post result (cells + frame)) :
    Triple pre prog post := by
  subst hpre
  refine (hprog.framed frame).weaken ?_
  rintro result _ ⟨cells, hmid, rfl⟩
  exact h result cells hmid

/-! #### The accesses -/

theorem malloc (content : β) :
    Triple pre (Heap.malloc content) fun a cells => cells = (a, content) ::ₘ pre := by
  intro heap frame howns
  exact ⟨_, _, _, rfl, rfl, by simpa using howns.malloc content⟩

/-- An owned block is read. -/
theorem loadAs {view : β → Option γ} {value : γ} (hmem : (a, content) ∈ pre)
    (hview : view content = some value) :
    Triple pre (Heap.loadAs view a) fun result cells => result = value ∧ cells = pre := by
  intro heap frame howns
  have hblock : heap.block a = some content :=
    (howns.block a content).mpr (Multiset.mem_add.mpr (Or.inl hmem))
  refine ⟨value, heap, pre, ?_, ⟨rfl, rfl⟩, howns⟩
  simp only [Heap.loadAs, StateT.run_bind]
  simp only [load, StateT.run, hblock, Bind.bind, Except.bind, hview]
  rfl

theorem store (content' : β) (hpre : pre = (a, content) ::ₘ rest) :
    Triple pre (Heap.store a content') fun _ cells => cells = (a, content') ::ₘ rest := by
  subst hpre
  intro heap frame howns
  rw [Multiset.cons_add] at howns
  have hblock : heap.block a = some content :=
    (howns.block a content).mpr (Multiset.mem_cons_self _ _)
  refine ⟨(), heap.set a (some content'), _, ?_, rfl, by simpa using howns.store content'⟩
  simp only [Heap.store, StateT.run, hblock]

theorem free (hpre : pre = (a, content) ::ₘ rest) :
    Triple pre (Heap.free a) fun _ cells => cells = rest := by
  subst hpre
  intro heap frame howns
  rw [Multiset.cons_add] at howns
  have hblock : heap.block a = some content :=
    (howns.block a content).mpr (Multiset.mem_cons_self _ _)
  refine ⟨(), heap.set a none, rest, ?_, rfl, howns.free⟩
  simp only [Heap.free, StateT.run, hblock]

/-! #### An access before the rest of a program -/

theorem malloc_then {f : Addr → Prog β γ}
    (hf : ∀ a, Triple ((a, content) ::ₘ pre) (f a) post') :
    Triple pre (Heap.malloc content >>= f) post' := by
  refine (malloc content).bind ?_
  rintro a _ rfl
  exact hf a

theorem loadAs_then {view : β → Option δ} {value : δ} {f : δ → Prog β γ}
    (hmem : (a, content) ∈ pre) (hview : view content = some value)
    (hf : Triple pre (f value) post') : Triple pre (Heap.loadAs view a >>= f) post' := by
  refine (loadAs hmem hview).bind ?_
  rintro _ _ ⟨rfl, rfl⟩
  exact hf

theorem store_then {content' : β} {f : Unit → Prog β γ} (hpre : pre = (a, content) ::ₘ rest)
    (hf : Triple ((a, content') ::ₘ rest) (f ()) post') :
    Triple pre (Heap.store a content' >>= f) post' := by
  refine (store content' hpre).bind ?_
  rintro _ _ rfl
  exact hf

theorem free_then {f : Unit → Prog β γ} (hpre : pre = (a, content) ::ₘ rest)
    (hf : Triple rest (f ()) post') : Triple pre (Heap.free a >>= f) post' := by
  refine (free hpre).bind ?_
  rintro _ _ rfl
  exact hf

end Triple

end Heap

end Dedup
