/-
Module: Dedup.Lib.CriticalSections
Purpose: Threads that share data through critical sections.  A memory has one component for each
  lock; a program tells what a thread does next: a section of several accesses to the component of
  its lock, in which it may take further locks for a moment, a read without the lock, a step of its
  own, or a wait for another thread.  In the interleaved machine locks are taken and released and
  accesses happen one at a time; in the atomic machine a section is one step.
Imports: Dedup.Lib.Simulation
Trusted boundary: none
Main exports: Op, Command, Program, Atomic, AtomicStep, Interleaved, Step, WellLocked, Ranked,
  rest_step, deadlock_free, Related, related_step, sections_atomic
-/
import Dedup.Lib.Simulation

namespace Dedup.CriticalSections

variable {Lock Thread Local : Type} {Comp : Lock → Type}

/-! ### Programs -/

/-- What a thread does inside a section: an access to the component, which it may combine with its
local state, or a moment under a further lock. -/
inductive Op (Comp : Lock → Type) (Local : Type) (l : Lock) where
  | access (run : Comp l × Local → Comp l × Local)
  | under (inner : Lock)

/-- What a thread does next. -/
inductive Command (Thread : Type) (Comp : Lock → Type) (Local : Type) where
  | critical (l : Lock) (body : List (Op Comp Local l))
  | read (l : Lock) (next : Comp l → Local)
  | tau (next : Local)
  | join (other : Thread) (next : Local)
  | stop

/-- A program: what each thread does next in each local state. -/
abbrev Program (Thread : Type) (Comp : Lock → Type) (Local : Type) :=
  Thread → Local → Command Thread Comp Local

namespace Op

/-- What an operation does to the component and the local state. -/
def run {l : Lock} : Op Comp Local l → Comp l × Local → Comp l × Local
  | .access run => run
  | .under _ => id

/-- Whether an operation accesses the component. -/
def isAccess {l : Lock} : Op Comp Local l → Bool
  | .access _ => true
  | .under _ => false

/-- What the operations of a section do, one after the other. -/
def effect {l : Lock} (body : List (Op Comp Local l)) (x : Comp l × Local) : Comp l × Local :=
  body.foldl (fun x op => op.run x) x

/-- The accesses of a section. -/
def accesses {l : Lock} (body : List (Op Comp Local l)) : Nat :=
  body.countP isAccess

theorem effect_append {l : Lock} (body body' : List (Op Comp Local l)) (x : Comp l × Local) :
    effect (body ++ body') x = effect body' (effect body x) :=
  List.foldl_append

/-- Operations without an access have no effect. -/
theorem effect_of_accesses {l : Lock} {body : List (Op Comp Local l)} (h : accesses body = 0)
    (x : Comp l × Local) : effect body x = x := by
  induction body generalizing x with
  | nil => rfl
  | cons op body ih =>
      cases op with
      | access run => simp [accesses, isAccess] at h
      | under inner =>
          have hrest : accesses body = 0 := by simpa [accesses, isAccess] using h
          exact ih hrest x

end Op

open Op (effect accesses)

section Machines

variable [DecidableEq Lock] [DecidableEq Thread]

/-! ### The atomic machine -/

/-- The memory and the local states of the threads. -/
structure Atomic (Thread : Type) (Comp : Lock → Type) (Local : Type) where
  shared : (l : Lock) → Comp l
  locals : Thread → Local

/-- One step of a thread, where a section is one step. -/
inductive AtomicStep (program : Program Thread Comp Local) :
    Atomic Thread Comp Local → Thread → Atomic Thread Comp Local → Prop where
  | critical (s : Atomic Thread Comp Local) (t : Thread) (l : Lock)
      (body : List (Op Comp Local l)) (pc : program t (s.locals t) = .critical l body) :
      AtomicStep program s t
        { shared := Function.update s.shared l (effect body (s.shared l, s.locals t)).1
          locals := Function.update s.locals t (effect body (s.shared l, s.locals t)).2 }
  | read (s : Atomic Thread Comp Local) (t : Thread) (l : Lock) (next : Comp l → Local)
      (pc : program t (s.locals t) = .read l next) :
      AtomicStep program s t
        { s with locals := Function.update s.locals t (next (s.shared l)) }
  | tau (s : Atomic Thread Comp Local) (t : Thread) (next : Local)
      (pc : program t (s.locals t) = .tau next) :
      AtomicStep program s t { s with locals := Function.update s.locals t next }
  | join (s : Atomic Thread Comp Local) (t other : Thread) (next : Local)
      (pc : program t (s.locals t) = .join other next)
      (stopped : program other (s.locals other) = .stop) :
      AtomicStep program s t { s with locals := Function.update s.locals t next }

/-- Where the next step of a thread leads. -/
def Atomic.after (program : Program Thread Comp Local) (s : Atomic Thread Comp Local) (t : Thread) :
    Atomic Thread Comp Local :=
  match program t (s.locals t) with
  | .critical l body =>
      { shared := Function.update s.shared l (effect body (s.shared l, s.locals t)).1
        locals := Function.update s.locals t (effect body (s.shared l, s.locals t)).2 }
  | .read l next => { s with locals := Function.update s.locals t (next (s.shared l)) }
  | .tau next => { s with locals := Function.update s.locals t next }
  | .join _ next => { s with locals := Function.update s.locals t next }
  | .stop => s

/-- What a thread does next is told by its command. -/
theorem AtomicStep.eq_after {program : Program Thread Comp Local}
    {s s' : Atomic Thread Comp Local} {t : Thread} (hstep : AtomicStep program s t s') :
    s' = s.after program t ∧ program t (s.locals t) ≠ .stop := by
  cases hstep with
  | critical l body pc => simp [Atomic.after, pc]
  | read l next pc => simp [Atomic.after, pc]
  | tau next pc => simp [Atomic.after, pc]
  | join other next pc stopped => simp [Atomic.after, pc]

/-! ### The interleaved machine -/

/-- Where a thread is: outside of the sections, inside one with what it has still to do there, or
under a further lock in the midst of one. -/
inductive Place (Comp : Lock → Type) (Local : Type) where
  | outside (a : Local)
  | inside (l : Lock) (a : Local) (rest : List (Op Comp Local l))
  | nested (l inner : Lock) (a : Local) (rest : List (Op Comp Local l))

/-- The memory, the owners of the locks, and the threads. -/
structure Interleaved (Thread : Type) (Comp : Lock → Type) (Local : Type) where
  shared : (l : Lock) → Comp l
  owner : Lock → Option Thread
  places : Thread → Place Comp Local

/-- All threads before their first step. -/
def Atomic.start (s : Atomic Thread Comp Local) : Interleaved Thread Comp Local where
  shared := s.shared
  owner := fun _ => none
  places := fun t => .outside (s.locals t)

/-- One step of a thread, where a section is the taking of its lock, its operations, and the
release. -/
inductive Step (program : Program Thread Comp Local) :
    Interleaved Thread Comp Local → Thread → Interleaved Thread Comp Local → Prop where
  | acquire (s : Interleaved Thread Comp Local) (t : Thread) (a : Local) (l : Lock)
      (body : List (Op Comp Local l)) (pc : s.places t = .outside a)
      (command : program t a = .critical l body) (free : s.owner l = none) :
      Step program s t
        { s with
          owner := Function.update s.owner l (some t)
          places := Function.update s.places t (.inside l a body) }
  | access (s : Interleaved Thread Comp Local) (t : Thread) (l : Lock) (a : Local)
      (run : Comp l × Local → Comp l × Local) (rest : List (Op Comp Local l))
      (pc : s.places t = .inside l a (.access run :: rest)) :
      Step program s t
        { s with
          shared := Function.update s.shared l (run (s.shared l, a)).1
          places := Function.update s.places t (.inside l (run (s.shared l, a)).2 rest) }
  | nest (s : Interleaved Thread Comp Local) (t : Thread) (l inner : Lock) (a : Local)
      (rest : List (Op Comp Local l)) (pc : s.places t = .inside l a (.under inner :: rest))
      (free : s.owner inner = none) :
      Step program s t
        { s with
          owner := Function.update s.owner inner (some t)
          places := Function.update s.places t (.nested l inner a rest) }
  | unnest (s : Interleaved Thread Comp Local) (t : Thread) (l inner : Lock) (a : Local)
      (rest : List (Op Comp Local l)) (pc : s.places t = .nested l inner a rest) :
      Step program s t
        { s with
          owner := Function.update s.owner inner none
          places := Function.update s.places t (.inside l a rest) }
  | release (s : Interleaved Thread Comp Local) (t : Thread) (l : Lock) (a : Local)
      (pc : s.places t = .inside l a []) :
      Step program s t
        { s with
          owner := Function.update s.owner l none
          places := Function.update s.places t (.outside a) }
  | read (s : Interleaved Thread Comp Local) (t : Thread) (a : Local) (l : Lock)
      (next : Comp l → Local) (pc : s.places t = .outside a)
      (command : program t a = .read l next) :
      Step program s t
        { s with places := Function.update s.places t (.outside (next (s.shared l))) }
  | tau (s : Interleaved Thread Comp Local) (t : Thread) (a next : Local)
      (pc : s.places t = .outside a) (command : program t a = .tau next) :
      Step program s t { s with places := Function.update s.places t (.outside next) }
  | join (s : Interleaved Thread Comp Local) (t other : Thread) (a next b : Local)
      (pc : s.places t = .outside a) (command : program t a = .join other next)
      (there : s.places other = .outside b) (stopped : program other b = .stop) :
      Step program s t { s with places := Function.update s.places t (.outside next) }

end Machines

/-! ### Owners -/

/-- The locks that a thread holds at a place. -/
def Place.Holds : Place Comp Local → Lock → Prop
  | .outside _, _ => False
  | .inside l _ _, k => k = l
  | .nested l inner _ _, k => k = l ∨ k = inner

/-- A lock is owned by the thread that is in a section of it; the further locks of a section are
others. -/
structure WellLocked (s : Interleaved Thread Comp Local) : Prop where
  owner_iff : ∀ l t, s.owner l = some t ↔ (s.places t).Holds l
  distinct : ∀ t l inner a rest, s.places t = .nested l inner a rest → inner ≠ l

theorem wellLocked_start (s : Atomic Thread Comp Local) : WellLocked s.start where
  owner_iff := by simp [Atomic.start, Place.Holds]
  distinct := by simp [Atomic.start]

/-- Two threads do not hold one lock. -/
theorem WellLocked.unique {s : Interleaved Thread Comp Local} (h : WellLocked s) {l : Lock}
    {t u : Thread} (ht : (s.places t).Holds l) (hu : (s.places u).Holds l) : t = u := by
  have howner := (h.owner_iff l t).mpr ht
  rw [(h.owner_iff l u).mpr hu] at howner
  exact (Option.some.inj howner).symm

/-- A thread that moves to a place whose locks it owns. -/
theorem WellLocked.move [DecidableEq Thread] {s : Interleaved Thread Comp Local}
    (h : WellLocked s) {t : Thread} {place : Place Comp Local} {owner : Lock → Option Thread}
    (shared : (l : Lock) → Comp l)
    (mine : ∀ k, owner k = some t ↔ place.Holds k)
    (others : ∀ k u, u ≠ t → (owner k = some u ↔ s.owner k = some u))
    (distinct : ∀ l inner a rest, place = .nested l inner a rest → inner ≠ l) :
    WellLocked
      { shared := shared, owner := owner, places := Function.update s.places t place } where
  owner_iff := by
    intro k u
    by_cases hu : u = t
    · subst hu
      simpa using mine k
    · simpa [hu] using (others k u hu).trans (h.owner_iff k u)
  distinct := by
    intro u l inner a rest hplace
    by_cases hu : u = t
    · subst hu
      exact distinct l inner a rest (by simpa using hplace)
    · exact h.distinct u l inner a rest (by simpa [hu] using hplace)

/-- A free lock that a thread takes. -/
theorem owner_taken [DecidableEq Lock] {s : Interleaved Thread Comp Local} {t u : Thread}
    {l k : Lock}
    (free : s.owner l = none) (hu : u ≠ t) :
    Function.update s.owner l (some t) k = some u ↔ s.owner k = some u := by
  by_cases hk : k = l
  · subst hk
    simp [free, Ne.symm hu]
  · simp [hk]

/-- A lock that its owner releases. -/
theorem owner_released [DecidableEq Lock] {s : Interleaved Thread Comp Local} {t u : Thread}
    {l k : Lock}
    (mine : s.owner l = some t) (hu : u ≠ t) :
    Function.update s.owner l none k = some u ↔ s.owner k = some u := by
  by_cases hk : k = l
  · subst hk
    simp [mine, Ne.symm hu]
  · simp [hk]

/-! ### What is left of a section -/

/-- What a thread has still to do in its section meets a condition; the further lock that it holds
is something to do. -/
def Place.Rest (condition : (l : Lock) → List (Op Comp Local l) → Prop) :
    Place Comp Local → Prop
  | .outside _ => True
  | .inside l _ rest => condition l rest
  | .nested l inner _ rest => condition l (.under inner :: rest)

/-- A thread that moves to a place that meets the condition. -/
theorem rest_move [DecidableEq Thread] {condition : (l : Lock) → List (Op Comp Local l) → Prop}
    {s : Interleaved Thread Comp Local} (h : ∀ u, (s.places u).Rest condition) (t : Thread)
    {place : Place Comp Local} (hplace : place.Rest condition) :
    ∀ u, (Function.update s.places t place u).Rest condition := by
  intro u
  by_cases hu : u = t
  · subst hu
    simpa using hplace
  · simpa [hu] using h u

/-- The further locks of what is left come later in an order of the locks. -/
def RankedBody (rank : Lock → Nat) (l : Lock) (body : List (Op Comp Local l)) : Prop :=
  ∀ inner, Op.under inner ∈ body → rank l < rank inner

/-- So do those of every section. -/
def Ranked (program : Program Thread Comp Local) (rank : Lock → Nat) : Prop :=
  ∀ t a l body, program t a = .critical l body → RankedBody rank l body

/-- The further locks that a thread has still to take in its section. -/
abbrev Place.Ranked (rank : Lock → Nat) : Place Comp Local → Prop :=
  Place.Rest (RankedBody rank)

/-! ### The two machines -/

section Related

variable {program : Program Thread Comp Local}

/-- A thread inside a section: before the last access the atomic machine stands where the section
began, and what was done since leads to where the memory is; behind it both are there. -/
def Along (program : Program Thread Comp Local) (t : Thread) (l : Lock) (a : Local)
    (rest : List (Op Comp Local l)) (low high : Comp l) (b : Local) : Prop :=
  if accesses rest = 0 then b = a ∧ high = low
  else ∃ before, program t b = .critical l (before ++ rest) ∧ effect before (high, b) = (low, a)

/-- What a place says about the two memories and the thread of the atomic machine. -/
def Tracks (program : Program Thread Comp Local) (t : Thread) (low high : (l : Lock) → Comp l)
    (b : Local) : Place Comp Local → Prop
  | .outside a => b = a
  | .inside l a rest => Along program t l a rest (low l) (high l) b
  | .nested l inner a rest =>
      Along program t l a rest (low l) (high l) b ∧ high inner = low inner

/-- The interleaved machine and the atomic one: a free component is the same in both, and a held one
is where its holder says. -/
structure Related (program : Program Thread Comp Local) (s : Interleaved Thread Comp Local)
    (c : Atomic Thread Comp Local) : Prop where
  locked : WellLocked s
  free : ∀ l, s.owner l = none → c.shared l = s.shared l
  tracks : ∀ t, Tracks program t s.shared c.shared (c.locals t) (s.places t)

theorem related_start (c : Atomic Thread Comp Local) : Related program c.start c where
  locked := wellLocked_start c
  free := fun _ _ => rfl
  tracks := fun _ => rfl

/-- A place speaks only of the components of the locks held there. -/
theorem tracks_congr {t : Thread} {low high low' high' : (l : Lock) → Comp l} {b : Local}
    {place : Place Comp Local} (h : Tracks program t low high b place)
    (same : ∀ k, place.Holds k → low' k = low k ∧ high' k = high k) :
    Tracks program t low' high' b place := by
  cases place with
  | outside a => exact h
  | inside l a rest =>
      obtain ⟨hlow, hhigh⟩ := same l rfl
      simp only [Tracks, hlow, hhigh]
      exact h
  | nested l inner a rest =>
      obtain ⟨hlow, hhigh⟩ := same l (.inl rfl)
      obtain ⟨hlow', hhigh'⟩ := same inner (.inr rfl)
      simp only [Tracks, hlow, hhigh, hlow', hhigh']
      exact h

/-- A step of thread `t` that touches only a component that no other thread holds. -/
theorem Related.move [DecidableEq Thread] {s : Interleaved Thread Comp Local}
    {c : Atomic Thread Comp Local} (h : Related program s c) {t : Thread} {place : Place Comp Local}
    {owner : Lock → Option Thread} {low high : (l : Lock) → Comp l} {b : Local}
    (locked : WellLocked
      { shared := low, owner := owner, places := Function.update s.places t place })
    (free : ∀ k, owner k = none → high k = low k)
    (untouched : ∀ u, u ≠ t → ∀ k, (s.places u).Holds k →
      low k = s.shared k ∧ high k = c.shared k)
    (mine : Tracks program t low high b place) :
    Related program
      { shared := low, owner := owner, places := Function.update s.places t place }
      { shared := high, locals := Function.update c.locals t b } where
  locked := locked
  free := free
  tracks := by
    intro u
    by_cases hu : u = t
    · subst hu
      simpa using mine
    · simpa [hu] using tracks_congr (h.tracks u) (untouched u hu)

/-- A step of thread `t` that touches no component and that the atomic machine does not see. -/
theorem Related.stay [DecidableEq Thread] {s : Interleaved Thread Comp Local}
    {c : Atomic Thread Comp Local} (h : Related program s c) {t : Thread} {place : Place Comp Local}
    {owner : Lock → Option Thread}
    (locked : WellLocked { s with owner := owner, places := Function.update s.places t place })
    (free : ∀ k, owner k = none → c.shared k = s.shared k)
    (mine : Tracks program t s.shared c.shared (c.locals t) place) :
    Related program { s with owner := owner, places := Function.update s.places t place } c := by
  have hmove := h.move locked free (fun _ _ _ _ => ⟨rfl, rfl⟩) mine
  rwa [Function.update_eq_self] at hmove

/-- Only the last access of a section changes the component. -/
def ChangesLast (program : Program Thread Comp Local) (l : Lock) : Prop :=
  ∀ t a before rest, program t a = .critical l (before ++ rest) → accesses rest ≠ 0 →
    ∀ x, (effect before x).1 = x.1

/-- Sections of one access do. -/
theorem changesLast_of_single {l : Lock}
    (single : ∀ t a body, program t a = .critical l body → accesses body = 1) :
    ChangesLast program l := by
  intro t a before rest command hrest x
  have hone := single t a _ command
  have hbefore : accesses before = 0 := by
    simp only [accesses, List.countP_append] at hone hrest ⊢
    omega
  rw [Op.effect_of_accesses hbefore]

/-- So a component that some thread reads without its lock is not seen half-way. -/
def ReadsSafely (program : Program Thread Comp Local) : Prop :=
  ∀ t a l next, program t a = .read l next → ChangesLast program l

/-- Before the last access of a section the memory is where the section began. -/
theorem along_changesLast {t : Thread} {l : Lock} {a b : Local} {rest : List (Op Comp Local l)}
    {low high : Comp l} (changes : ChangesLast program l)
    (h : Along program t l a rest low high b) : high = low := by
  unfold Along at h
  split at h
  · exact h.2
  · rename_i hrest
    obtain ⟨before, command, heffect⟩ := h
    have hsame := changes t b before rest command hrest (high, b)
    rw [heffect] at hsame
    exact hsame.symm

/-- Such a component is the same in both machines. -/
theorem Related.synced {s : Interleaved Thread Comp Local} {c : Atomic Thread Comp Local}
    (h : Related program s c) {l : Lock} (changes : ChangesLast program l) :
    c.shared l = s.shared l := by
  cases howner : s.owner l with
  | none => exact h.free l howner
  | some u =>
      have holds := (h.locked.owner_iff l u).mp howner
      have htracks := h.tracks u
      cases pc : s.places u with
      | outside a =>
          rw [pc] at holds
          exact holds.elim
      | inside k a rest =>
          rw [pc] at holds htracks
          obtain rfl : l = k := holds
          exact along_changesLast changes htracks
      | nested k inner a rest =>
          rw [pc] at holds htracks
          rcases holds with rfl | rfl
          · exact along_changesLast changes htracks.1
          · exact htracks.2

/-- An operation that does not access the component leaves its section where it was. -/
theorem along_under {t : Thread} {l inner : Lock} {a b : Local} {rest : List (Op Comp Local l)}
    {low high : Comp l} (h : Along program t l a (.under inner :: rest) low high b) :
    Along program t l a rest low high b := by
  have hcount : accesses (Op.under inner :: rest) = accesses rest :=
    List.countP_cons_of_neg (by simp [Op.isAccess])
  unfold Along at h ⊢
  rw [hcount] at h
  split at h
  · rw [if_pos ‹_›]
    exact h
  · rw [if_neg ‹_›]
    obtain ⟨before, command, heffect⟩ := h
    refine ⟨before ++ [.under inner], by rw [command, List.append_assoc]; rfl, ?_⟩
    rw [Op.effect_append, heffect]
    rfl

end Related

section Steps

variable [DecidableEq Lock] [DecidableEq Thread] {program : Program Thread Comp Local}

/-- Every step keeps the locks with their owners. -/
theorem wellLocked_step (s : Interleaved Thread Comp Local) (t : Thread)
    (s' : Interleaved Thread Comp Local) (hstep : Step program s t s') (h : WellLocked s) :
    WellLocked s' := by
  have howner : ∀ k, s.owner k = some t ↔ (s.places t).Holds k := fun k => h.owner_iff k t
  cases hstep with
  | acquire a l body pc command free =>
      refine h.move _ (fun k => ?_) (fun k u hu => owner_taken free hu) (by simp)
      rw [pc] at howner
      by_cases hk : k = l
      · simp [hk, Place.Holds]
      · simpa [hk, Place.Holds] using howner k
  | access l a run rest pc =>
      refine h.move _ (fun k => ?_) (fun k u hu => Iff.rfl) (by simp)
      rw [pc] at howner
      exact howner k
  | nest l inner a rest pc free =>
      rw [pc] at howner
      have hmine : s.owner l = some t := (howner l).mpr rfl
      have hne : inner ≠ l := by
        rintro rfl
        simp [free] at hmine
      refine h.move _ (fun k => ?_) (fun k u hu => owner_taken free hu) ?_
      · by_cases hk : k = inner
        · simp [hk, Place.Holds]
        · simpa [hk, Place.Holds] using howner k
      · rintro _ _ _ _ ⟨⟩
        exact hne
  | unnest l inner a rest pc =>
      rw [pc] at howner
      have hmine : s.owner inner = some t := (howner inner).mpr (.inr rfl)
      have hne : inner ≠ l := h.distinct t l inner a rest pc
      refine h.move _ (fun k => ?_) (fun k u hu => owner_released hmine hu) (by simp)
      by_cases hk : k = inner
      · simpa [hk, Place.Holds] using hne
      · simpa [hk, Place.Holds] using howner k
  | release l a pc =>
      rw [pc] at howner
      have hmine : s.owner l = some t := (howner l).mpr rfl
      refine h.move _ (fun k => ?_) (fun k u hu => owner_released hmine hu) (by simp)
      by_cases hk : k = l
      · simp [hk, Place.Holds]
      · simpa [hk, Place.Holds] using howner k
  | read a l next pc command =>
      refine h.move _ (fun k => ?_) (fun k u hu => Iff.rfl) (by simp)
      rw [pc] at howner
      exact howner k
  | tau a next pc command =>
      refine h.move _ (fun k => ?_) (fun k u hu => Iff.rfl) (by simp)
      rw [pc] at howner
      exact howner k
  | join other a next b pc command there stopped =>
      refine h.move _ (fun k => ?_) (fun k u hu => Iff.rfl) (by simp)
      rw [pc] at howner
      exact howner k

/-! ### No deadlock -/

/-- Every step keeps a condition that all sections meet and that is passed on to what is left. -/
theorem rest_step {condition : (l : Lock) → List (Op Comp Local l) → Prop}
    (sections : ∀ t a l body, program t a = .critical l body → condition l body)
    (passes : ∀ l op rest, condition l (op :: rest) → condition l rest)
    (s : Interleaved Thread Comp Local) (t : Thread) (s' : Interleaved Thread Comp Local)
    (hstep : Step program s t s') (h : ∀ u, (s.places u).Rest condition) :
    ∀ u, (s'.places u).Rest condition := by
  have hplace := h t
  cases hstep with
  | acquire a l body pc command free => exact rest_move h t (sections t a l body command)
  | access l a run rest pc =>
      rw [pc] at hplace
      exact rest_move h t (passes l _ rest hplace)
  | nest l inner a rest pc free =>
      rw [pc] at hplace
      exact rest_move h t hplace
  | unnest l inner a rest pc =>
      rw [pc] at hplace
      exact rest_move h t (passes l _ rest hplace)
  | release l a pc => exact rest_move h t trivial
  | read a l next pc command => exact rest_move h t trivial
  | tau a next pc command => exact rest_move h t trivial
  | join other a next b pc command there stopped => exact rest_move h t trivial

/-- Every step keeps the further locks in order. -/
theorem ranked_step {rank : Lock → Nat} (ordered : Ranked program rank)
    (s : Interleaved Thread Comp Local) (t : Thread) (s' : Interleaved Thread Comp Local)
    (hstep : Step program s t s') (h : ∀ u, (s.places u).Ranked rank) :
    ∀ u, (s'.places u).Ranked rank :=
  rest_step ordered (fun _ _ _ h inner hinner => h inner (List.mem_cons_of_mem _ hinner)) s t s'
    hstep h

/-- A thread at its end. -/
def Place.Stopped (program : Program Thread Comp Local) (t : Thread) : Place Comp Local → Prop
  | .outside a => program t a = .stop
  | _ => False

/-- Where some lock is held, some thread can take a step: its holder, or the one that holds the lock
it waits for, and so on up the order. -/
theorem step_of_holds {rank : Lock → Nat} {bound : Nat} (bounded : ∀ l, rank l ≤ bound)
    {s : Interleaved Thread Comp Local} (locked : WellLocked s)
    (ranked : ∀ u, (s.places u).Ranked rank) {t : Thread} {l : Lock}
    (holds : (s.places t).Holds l) : ∃ u s', Step program s u s' := by
  induction hheight : bound - rank l using Nat.strong_induction_on generalizing t l with
  | _ height ih =>
      have hplace := ranked t
      cases pc : s.places t with
      | outside a =>
          rw [pc] at holds
          exact holds.elim
      | nested k inner a rest => exact ⟨t, _, .unnest s t k inner a rest pc⟩
      | inside k a rest =>
          rw [pc] at holds hplace
          obtain rfl : l = k := holds
          cases rest with
          | nil => exact ⟨t, _, .release s t l a pc⟩
          | cons op rest =>
              cases op with
              | access run => exact ⟨t, _, .access s t l a run rest pc⟩
              | under inner =>
                  cases howner : s.owner inner with
                  | none => exact ⟨t, _, .nest s t l inner a rest pc howner⟩
                  | some u =>
                      have hlater := hplace inner List.mem_cons_self
                      have htop := bounded inner
                      exact ih (bound - rank inner) (by omega)
                        ((locked.owner_iff inner u).mp howner) rfl

/-- Threads that take their locks in order and wait only for threads below them are never stuck
before all of them have stopped. -/
theorem deadlock_free {rank : Lock → Nat} {bound : Nat} (bounded : ∀ l, rank l ≤ bound)
    {level : Thread → Nat}
    (joins : ∀ t a other next, program t a = .join other next → level other < level t)
    {s : Interleaved Thread Comp Local} (locked : WellLocked s)
    (ranked : ∀ u, (s.places u).Ranked rank) {t : Thread}
    (running : ¬ (s.places t).Stopped program t) : ∃ u s', Step program s u s' := by
  induction hlevel : level t using Nat.strong_induction_on generalizing t with
  | _ height ih =>
      cases pc : s.places t with
      | inside l a rest =>
          exact step_of_holds bounded locked ranked (t := t) (l := l) (by rw [pc]; rfl)
      | nested l inner a rest =>
          exact step_of_holds bounded locked ranked (t := t) (l := l) (by rw [pc]; exact .inl rfl)
      | outside a =>
          cases command : program t a with
          | critical l body =>
              cases howner : s.owner l with
              | none => exact ⟨t, _, .acquire s t a l body pc command howner⟩
              | some u =>
                  exact step_of_holds bounded locked ranked ((locked.owner_iff l u).mp howner)
          | read l next => exact ⟨t, _, .read s t a l next pc command⟩
          | tau next => exact ⟨t, _, .tau s t a next pc command⟩
          | stop =>
              rw [pc] at running
              exact absurd command running
          | join other next =>
              by_cases hstopped : (s.places other).Stopped program other
              · cases there : s.places other with
                | outside b =>
                    rw [there] at hstopped
                    exact ⟨t, _, .join s t other a next b pc command there hstopped⟩
                | inside l b rest =>
                    rw [there] at hstopped
                    exact hstopped.elim
                | nested l inner b rest =>
                    rw [there] at hstopped
                    exact hstopped.elim
              · have hbelow := joins t a other next command
                exact ih (level other) (by omega) hstopped rfl

/-- Threads that have stopped take no step. -/
theorem no_step_of_stopped {s s' : Interleaved Thread Comp Local} {t : Thread}
    (stopped : (s.places t).Stopped program t) : ¬ Step program s t s' := by
  intro hstep
  cases hstep with
  | acquire a l body pc command => simp [pc, Place.Stopped, command] at stopped
  | access l a run rest pc => simp [pc, Place.Stopped] at stopped
  | nest l inner a rest pc => simp [pc, Place.Stopped] at stopped
  | unnest l inner a rest pc => simp [pc, Place.Stopped] at stopped
  | release l a pc => simp [pc, Place.Stopped] at stopped
  | read a l next pc command => simp [pc, Place.Stopped, command] at stopped
  | tau a next pc command => simp [pc, Place.Stopped, command] at stopped
  | join other a next b pc command => simp [pc, Place.Stopped, command] at stopped

/-! ### Sections are atomic -/

/-- A step of the atomic machine moves its thread only. -/
theorem AtomicStep.locals_of_ne {c c' : Atomic Thread Comp Local} {t u : Thread}
    (hstep : AtomicStep program c t c') (hu : u ≠ t) : c'.locals u = c.locals u := by
  cases hstep <;> simp [hu]

/-- Whether the next step of a thread takes effect in the atomic machine: the last access of a
section, or a step outside of the sections. -/
def Place.Effective (program : Program Thread Comp Local) (t : Thread) :
    Place Comp Local → Prop
  | .outside a => ∀ l body, program t a ≠ .critical l body
  | .inside _ _ (.access _ :: rest) => accesses rest = 0
  | _ => False

/-- What a step of the interleaved machine is in the atomic one: a step of the thread if it takes
effect, and nothing otherwise. -/
theorem related_step (safe : ReadsSafely program) {s s' : Interleaved Thread Comp Local}
    {t : Thread} {c : Atomic Thread Comp Local} (hstep : Step program s t s')
    (h : Related program s c) :
    ∃ c', Related program s' c' ∧
      ((s.places t).Effective program t → AtomicStep program c t c') ∧
      (¬ (s.places t).Effective program t → c' = c) := by
  have locked := wellLocked_step s t s' hstep h.locked
  have hmine := h.tracks t
  have hother : ∀ {u k}, u ≠ t → (s.places t).Holds k → ¬ (s.places u).Holds k :=
    fun hu ht hk => hu (h.locked.unique hk ht)
  cases hstep with
  | acquire a l body pc command free =>
      rw [pc] at hmine
      obtain rfl : c.locals t = a := hmine
      have hquiet : ¬ (s.places t).Effective program t := by
        rw [pc]
        exact fun heffective => heffective l body command
      refine ⟨c, h.stay locked (fun k hk => ?_) ?_, fun h => absurd h hquiet, fun _ => rfl⟩
      · by_cases hkl : k = l
        · simp [hkl] at hk
        · exact h.free k (by simpa [hkl] using hk)
      · have hsame := h.free l free
        show Along program t l _ body (s.shared l) (c.shared l) _
        unfold Along
        split
        · exact ⟨rfl, hsame⟩
        · exact ⟨[], command, by rw [hsame]; rfl⟩
  | access l a run rest pc =>
      rw [pc] at hmine hother
      have hmine : Along program t l a (.access run :: rest) (s.shared l) (c.shared l)
        (c.locals t) := hmine
      have hcount : accesses (Op.access run :: rest) = accesses rest + 1 :=
        List.countP_cons_of_pos rfl
      rw [Along, if_neg (by omega)] at hmine
      obtain ⟨before, command, heffect⟩ := hmine
      have howner : s.owner l = some t := (h.locked.owner_iff l t).mpr (by rw [pc]; rfl)
      have huntouched : ∀ {x : Comp l} {f : (k : Lock) → Comp k} {u}, u ≠ t → ∀ {k},
          (s.places u).Holds k → Function.update f l x k = f k := by
        intro x f u hu k hk
        have hkl : k ≠ l := by
          rintro rfl
          exact hother hu rfl hk
        simp [hkl]
      rw [pc]
      by_cases hrest : accesses rest = 0
      · -- the last access: the atomic machine takes the section
        have hbody : effect (before ++ .access run :: rest) (c.shared l, c.locals t) =
            run (s.shared l, a) := by
          rw [Op.effect_append, heffect]
          exact Op.effect_of_accesses hrest _
        have hatomic := AtomicStep.critical c t l _ command
        rw [hbody] at hatomic
        refine ⟨_, h.move locked (fun k hk => ?_) ?_ ?_, fun _ => hatomic,
          fun hquiet => absurd hrest hquiet⟩
        · have hkl : k ≠ l := by
            rintro rfl
            simp [howner] at hk
          simpa [hkl] using h.free k hk
        · intro u hu k hk
          exact ⟨huntouched hu hk, huntouched hu hk⟩
        · simp [Tracks, Along, hrest]
      · refine ⟨c, ?_, fun heffective => absurd heffective hrest, fun _ => rfl⟩
        have hmove : Related program _
            { shared := c.shared, locals := Function.update c.locals t (c.locals t) } :=
          h.move locked (fun k hk => ?_) (fun u hu k hk => ⟨huntouched hu hk, rfl⟩) ?_
        · rwa [Function.update_eq_self] at hmove
        · have hkl : k ≠ l := by
            rintro rfl
            simp [howner] at hk
          simpa [hkl] using h.free k hk
        · simp only [Tracks, Along, if_neg hrest, Function.update_self]
          refine ⟨before ++ [.access run], by rw [command, List.append_assoc]; rfl, ?_⟩
          rw [Op.effect_append, heffect]
          rfl
  | nest l inner a rest pc free =>
      rw [pc] at hmine ⊢
      refine ⟨c, h.stay locked (fun k hk => ?_) ⟨along_under hmine, h.free inner free⟩, False.elim,
        fun _ => rfl⟩
      by_cases hk' : k = inner
      · simp [hk'] at hk
      · exact h.free k (by simpa [hk'] using hk)
  | unnest l inner a rest pc =>
      rw [pc] at hmine ⊢
      refine ⟨c, h.stay locked (fun k hk => ?_) hmine.1, False.elim, fun _ => rfl⟩
      by_cases hk' : k = inner
      · subst hk'
        exact hmine.2
      · exact h.free k (by simpa [hk'] using hk)
  | release l a pc =>
      rw [pc] at hmine ⊢
      obtain ⟨hlocal, hsame⟩ : c.locals t = a ∧ c.shared l = s.shared l := by
        simpa [Tracks, Along, accesses] using hmine
      refine ⟨c, h.stay locked (fun k hk => ?_) hlocal, False.elim, fun _ => rfl⟩
      by_cases hk' : k = l
      · subst hk'
        exact hsame
      · exact h.free k (by simpa [hk'] using hk)
  | read a l next pc command =>
      rw [pc] at hmine
      obtain rfl : c.locals t = a := hmine
      have heffective : (s.places t).Effective program t := by simp [pc, Place.Effective, command]
      have hsame := h.synced (safe t _ l next command)
      refine ⟨_, ?_, fun _ => .read c t l next command, fun hquiet => absurd heffective hquiet⟩
      exact h.move locked h.free (fun _ _ _ _ => ⟨rfl, rfl⟩) (by rw [hsame]; rfl)
  | tau a next pc command =>
      rw [pc] at hmine
      obtain rfl : c.locals t = a := hmine
      have heffective : (s.places t).Effective program t := by simp [pc, Place.Effective, command]
      refine ⟨_, ?_, fun _ => .tau c t next command, fun hquiet => absurd heffective hquiet⟩
      exact h.move locked h.free (fun _ _ _ _ => ⟨rfl, rfl⟩) rfl
  | join other a next b pc command there stopped =>
      have hthere := h.tracks other
      rw [pc] at hmine
      rw [there] at hthere
      obtain rfl : c.locals t = a := hmine
      obtain rfl : c.locals other = b := hthere
      have heffective : (s.places t).Effective program t := by simp [pc, Place.Effective, command]
      refine ⟨_, ?_, fun _ => .join c t other next command stopped,
        fun hquiet => absurd heffective hquiet⟩
      exact h.move locked h.free (fun _ _ _ _ => ⟨rfl, rfl⟩) rfl

/-- The interleaved machine with its locks simulates the atomic one: a section takes effect with its
last access. -/
theorem sections_atomic (safe : ReadsSafely program) :
    Simulates (Step program) (AtomicStep program) (Related program) := by
  intro s t s' c hstep h
  obtain ⟨c', hrelated, heffect, hquiet⟩ := related_step safe hstep h
  by_cases heffective : (s.places t).Effective program t
  · exact ⟨[t], c', .cons (heffect heffective) (.nil c'), hrelated⟩
  · obtain rfl := hquiet heffective
    exact ⟨[], c', .nil c', hrelated⟩

end Steps

end Dedup.CriticalSections
