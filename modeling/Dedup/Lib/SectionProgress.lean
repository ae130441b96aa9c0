/-
Module: Dedup.Lib.SectionProgress
Purpose: How long threads with critical sections go on.  A thread takes a number of steps that its
  command tells until its next step takes effect in the atomic machine.  A measure of the atomic
  machine that pays for these steps bounds the steps of the interleaved one.  A lock under which no
  further lock is taken is free again and again, if the threads are treated fairly.
Imports: Dedup.Lib.CriticalSections, Dedup.Lib.Liveness
Trusted boundary: none
Main exports: Command.cost, Place.left, Closing, left_le_cost, Pays, Budget, length_le_of_pays,
  quiet_of_pays, not_of_pays, free_again
-/
import Dedup.Lib.CriticalSections
import Dedup.Lib.Liveness

namespace Dedup.CriticalSections

variable {Lock Thread Local : Type} {Comp : Lock → Type}

open Op (effect accesses)

/-! ### Steps until the next effect -/

/-- The steps of the operations of a section: a further lock is taken and released. -/
def Op.cost {l : Lock} : List (Op Comp Local l) → Nat
  | [] => 0
  | .access _ :: rest => cost rest + 1
  | .under _ :: rest => cost rest + 2

theorem Op.cost_append {l : Lock} (body body' : List (Op Comp Local l)) :
    cost (body ++ body') = cost body + cost body' := by
  induction body with
  | nil => simp [cost]
  | cons op body ih => cases op <;> simp [cost, ih] <;> omega

/-- The steps of a command up to the one that takes effect. -/
def Command.cost : Command Thread Comp Local → Nat
  | .critical _ body => Op.cost body + 1
  | .read _ _ => 1
  | .tau _ => 1
  | .join _ _ => 1
  | .stop => 0

/-- The steps of a command behind the one that takes effect: the release. -/
def Command.owed : Command Thread Comp Local → Nat
  | .critical _ _ => 1
  | _ => 0

/-- The steps of a thread inside a section until its next effect: in that section, or behind its
last access in the command after it. -/
def leftInside (program : Program Thread Comp Local) (t : Thread) {l : Lock} (a : Local)
    (rest : List (Op Comp Local l)) : Nat :=
  if accesses rest = 0 then Op.cost rest + 1 + (program t a).cost else Op.cost rest

/-- The steps of a thread until its next effect. -/
def Place.left (program : Program Thread Comp Local) (t : Thread) : Place Comp Local → Nat
  | .outside a => (program t a).cost
  | .inside _ a rest => leftInside program t a rest
  | .nested _ _ a rest => leftInside program t a rest + 1

/-- What is left of a section ends with an access, if anything is left. -/
def ClosedBody (l : Lock) (body : List (Op Comp Local l)) : Prop :=
  body = [] ∨ ∃ (init : List (Op Comp Local l)) (run : Comp l × Local → Comp l × Local),
    body = init ++ [.access run]

/-- A section, if the command is one, ends with an access. -/
def Command.Closed : Command Thread Comp Local → Prop
  | .critical l body => body ≠ [] ∧ ClosedBody l body
  | _ => True

/-- Every section ends with an access. -/
def Closing (program : Program Thread Comp Local) : Prop :=
  ∀ t a, (program t a).Closed

theorem Closing.body {program : Program Thread Comp Local} (closing : Closing program) {t : Thread}
    {a : Local} {l : Lock} {body : List (Op Comp Local l)}
    (command : program t a = .critical l body) : body ≠ [] ∧ ClosedBody l body := by
  have hclosed := closing t a
  rwa [command] at hclosed

theorem closedBody_tail (l : Lock) (op : Op Comp Local l) (rest : List (Op Comp Local l))
    (h : ClosedBody l (op :: rest)) : ClosedBody l rest := by
  rcases h with hnil | ⟨init, run, hbody⟩
  · simp at hnil
  · cases init with
    | nil => exact .inl (List.cons.inj hbody).2
    | cons first init => exact .inr ⟨init, run, (List.cons.inj hbody).2⟩

/-- Behind the last access of a section nothing is left. -/
theorem ClosedBody.eq_nil {l : Lock} {rest : List (Op Comp Local l)} (h : ClosedBody l rest)
    (hnone : accesses rest = 0) : rest = [] := by
  rcases h with hnil | ⟨init, run, rfl⟩
  · exact hnil
  · simp [accesses, Op.isAccess] at hnone

theorem Closing.accesses_ne {program : Program Thread Comp Local} (closing : Closing program)
    {t : Thread} {a : Local} {l : Lock} {body : List (Op Comp Local l)}
    (command : program t a = .critical l body) : accesses body ≠ 0 := by
  obtain ⟨hne, hclosed⟩ := closing.body command
  exact fun hnone => hne (hclosed.eq_nil hnone)

/-- No thread has more to do until its next effect than its command, and a release. -/
theorem left_le_cost {program : Program Thread Comp Local} {s : Interleaved Thread Comp Local}
    {c : Atomic Thread Comp Local} (h : Related program s c)
    (closed : ∀ u, (s.places u).Rest ClosedBody) (t : Thread) :
    (s.places t).left program t ≤ (program t (c.locals t)).cost + 1 := by
  have hclosed := closed t
  have htracks := h.tracks t
  -- before the last access of a section what is left is a part of it
  have hpart : ∀ {l a} {rest : List (Op Comp Local l)}, accesses rest ≠ 0 →
      Along program t l a rest (s.shared l) (c.shared l) (c.locals t) →
        Op.cost rest + 1 ≤ (program t (c.locals t)).cost := by
    intro l a rest hrest halong
    rw [Along, if_neg hrest] at halong
    obtain ⟨before, command, -⟩ := halong
    rw [command, Command.cost, Op.cost_append]
    omega
  cases pc : s.places t with
  | outside a =>
      rw [pc] at htracks
      rw [show c.locals t = a from htracks, Place.left]
      omega
  | inside l a rest =>
      rw [pc] at htracks hclosed
      simp only [Place.left, leftInside]
      by_cases hrest : accesses rest = 0
      · obtain rfl := ClosedBody.eq_nil hclosed hrest
        rw [if_pos hrest, show c.locals t = a from (by
          simpa [Tracks, Along, hrest] using htracks : c.locals t = a ∧ _).1]
        simp only [Op.cost]
        omega
      · have := hpart hrest htracks
        rw [if_neg hrest]
        omega
  | nested l inner a rest =>
      rw [pc] at htracks hclosed
      simp only [Place.left, leftInside]
      have hrest : accesses rest ≠ 0 := by
        intro hnone
        have hcount : accesses (Op.under inner :: rest) = accesses rest :=
          List.countP_cons_of_neg (by simp [Op.isAccess])
        have hnil := ClosedBody.eq_nil hclosed (hcount.trans hnone)
        simp at hnil
      have := hpart hrest htracks.1
      rw [if_neg hrest]
      omega

section Costs

variable [DecidableEq Lock] [DecidableEq Thread] {program : Program Thread Comp Local}
  {s s' : Interleaved Thread Comp Local} {t : Thread}

/-- A step moves its thread only. -/
theorem Step.places_of_ne (hstep : Step program s t s') {u : Thread} (hu : u ≠ t) :
    s'.places u = s.places u := by
  cases hstep <;> simp [hu]

/-- A step that takes no effect is one less to take. -/
theorem left_of_quiet (closing : Closing program) (hstep : Step program s t s')
    (quiet : ¬ (s.places t).Effective program t) :
    (s'.places t).left program t + 1 = (s.places t).left program t := by
  cases hstep with
  | acquire a l body pc command free =>
      simp [pc, Place.left, leftInside, closing.accesses_ne command, command, Command.cost]
  | access l a run rest pc =>
      have hrest : accesses rest ≠ 0 := by simpa [pc, Place.Effective] using quiet
      have hcount : accesses (Op.access run :: rest) ≠ 0 := by simp [accesses, Op.isAccess]
      simp [pc, Place.left, leftInside, hrest, hcount, Op.cost]
  | nest l inner a rest pc free =>
      have hcount : accesses (Op.under inner :: rest) = accesses rest :=
        List.countP_cons_of_neg (by simp [Op.isAccess])
      simp only [pc, Place.left, leftInside, hcount, Op.cost, Function.update_self]
      split <;> omega
  | unnest l inner a rest pc => simp [pc, Place.left]
  | release l a pc =>
      simp [pc, Place.left, leftInside, accesses, Op.cost, Nat.add_comm]
  | read a l next pc command => exact absurd (by simp [pc, Place.Effective, command]) quiet
  | tau a next pc command => exact absurd (by simp [pc, Place.Effective, command]) quiet
  | join other a next b pc command there stopped =>
      exact absurd (by simp [pc, Place.Effective, command]) quiet

/-- A step that takes effect is one that was left to take. -/
theorem left_pos_of_effective (hstep : Step program s t s')
    (heffective : (s.places t).Effective program t) : 0 < (s.places t).left program t := by
  cases hstep with
  | acquire a l body pc command free =>
      rw [pc] at heffective
      exact absurd command (heffective l body)
  | access l a run rest pc =>
      have hcount : accesses (Op.access run :: rest) ≠ 0 := by simp [accesses, Op.isAccess]
      simp [pc, Place.left, leftInside, hcount, Op.cost]
  | nest l inner a rest pc free => simp [pc, Place.Effective] at heffective
  | unnest l inner a rest pc => simp [pc, Place.Effective] at heffective
  | release l a pc => simp [pc, Place.Effective] at heffective
  | read a l next pc command => simp [pc, Place.left, command, Command.cost]
  | tau a next pc command => simp [pc, Place.left, command, Command.cost]
  | join other a next b pc command there stopped =>
      simp [pc, Place.left, command, Command.cost]

/-- Behind a step that takes effect come the release, and the steps of the next command. -/
theorem left_of_effective {c c' : Atomic Thread Comp Local} (before : Related program s c)
    (after : Related program s' c') (closed : (s'.places t).Rest ClosedBody)
    (hstep : Step program s t s') (heffective : (s.places t).Effective program t) :
    (s'.places t).left program t =
      (program t (c.locals t)).owed + (program t (c'.locals t)).cost := by
  have hlow := before.tracks t
  have hhigh := after.tracks t
  cases hstep with
  | acquire a l body pc command free =>
      rw [pc] at heffective
      exact absurd command (heffective l body)
  | access l a run rest pc =>
      rw [pc] at heffective hlow
      simp only [Function.update_self] at closed hhigh ⊢
      obtain rfl := ClosedBody.eq_nil closed heffective
      obtain ⟨hlocal, -⟩ : c'.locals t = (run (s.shared l, a)).2 ∧ _ := by
        simpa [Tracks, Along, accesses] using hhigh
      have halong : Along program t l a [.access run] (s.shared l) (c.shared l) (c.locals t) := hlow
      simp only [Along, accesses, List.countP_singleton, Op.isAccess, if_true, one_ne_zero,
        if_false] at halong
      obtain ⟨start, command, -⟩ := halong
      simp [Place.left, leftInside, accesses, Op.cost, command, Command.owed, hlocal]
  | nest l inner a rest pc free => simp [pc, Place.Effective] at heffective
  | unnest l inner a rest pc => simp [pc, Place.Effective] at heffective
  | release l a pc => simp [pc, Place.Effective] at heffective
  | read a l next pc command =>
      rw [pc] at hlow
      simp only [Function.update_self] at hhigh ⊢
      rw [show c.locals t = a from hlow, show c'.locals t = _ from hhigh, command]
      simp [Place.left, Command.owed]
  | tau a next pc command =>
      rw [pc] at hlow
      simp only [Function.update_self] at hhigh ⊢
      rw [show c.locals t = a from hlow, show c'.locals t = _ from hhigh, command]
      simp [Place.left, Command.owed]
  | join other a next b pc command there stopped =>
      rw [pc] at hlow
      simp only [Function.update_self] at hhigh ⊢
      rw [show c.locals t = a from hlow, show c'.locals t = _ from hhigh, command]
      simp [Place.left, Command.owed]

end Costs

/-! ### Budgets -/

section Budgets

variable [DecidableEq Lock] [DecidableEq Thread]

/-- A measure of the atomic machine pays, with every step of a thread of `threads`, for the steps of
that thread until its next one, and is not raised by the others. -/
structure Pays (program : Program Thread Comp Local) (threads : Finset Thread)
    (I : Atomic Thread Comp Local → Prop) (measure : Atomic Thread Comp Local → Nat) : Prop where
  preserved : ∀ c t c', AtomicStep program c t c' → I c → I c'
  mine : ∀ c t c', AtomicStep program c t c' → I c → t ∈ threads →
    measure c' + (program t (c.locals t)).owed + (program t (c'.locals t)).cost ≤ measure c
  others : ∀ c t c', AtomicStep program c t c' → I c → t ∉ threads → measure c' ≤ measure c

/-- The steps of the threads until their next effects, and what the measure pays for after them. -/
def Budget (program : Program Thread Comp Local) (threads : Finset Thread)
    (I : Atomic Thread Comp Local → Prop) (measure : Atomic Thread Comp Local → Nat)
    (s : Interleaved Thread Comp Local) (bound : Nat) : Prop :=
  (∀ u, (s.places u).Rest ClosedBody) ∧ ∃ c, Related program s c ∧ I c ∧
    measure c + ∑ u ∈ threads, (s.places u).left program u ≤ bound

variable {program : Program Thread Comp Local} {threads : Finset Thread}
  {I : Atomic Thread Comp Local → Prop} {measure : Atomic Thread Comp Local → Nat}

/-- What one step does to a budget. -/
theorem budget_step (safe : ReadsSafely program) (closing : Closing program)
    (pays : Pays program threads I measure) {s s' : Interleaved Thread Comp Local} {t : Thread}
    {bound : Nat} (hstep : Step program s t s') (h : Budget program threads I measure s bound) :
    (t ∈ threads → ∃ left, left < bound ∧ Budget program threads I measure s' left) ∧
      (t ∉ threads → Budget program threads I measure s' bound) := by
  obtain ⟨hclosed, c, hrelated, hinv, hbound⟩ := h
  have hclosed' := rest_step (fun t a l body command => (closing.body command).2)
    closedBody_tail s t s' hstep hclosed
  obtain ⟨c', hrelated', heffect, hquiet⟩ := related_step safe hstep hrelated
  have hother : ∀ u, u ≠ t → (s'.places u).left program u = (s.places u).left program u :=
    fun u hu => by rw [hstep.places_of_ne hu]
  constructor
  · intro ht
    have hrest : ∑ u ∈ threads.erase t, (s'.places u).left program u =
        ∑ u ∈ threads.erase t, (s.places u).left program u :=
      Finset.sum_congr rfl fun u hu => hother u (Finset.ne_of_mem_erase hu)
    rw [← Finset.add_sum_erase _ _ ht, ← hrest] at hbound
    refine ⟨measure c' + ∑ u ∈ threads, (s'.places u).left program u, ?_, hclosed', c', hrelated',
      ?_, le_refl _⟩
    · rw [← Finset.add_sum_erase _ _ ht]
      by_cases heffective : (s.places t).Effective program t
      · have hmeasure := pays.mine c t c' (heffect heffective) hinv ht
        have hleft := left_of_effective hrelated hrelated' (hclosed' t) hstep heffective
        have hpos := left_pos_of_effective hstep heffective
        omega
      · obtain rfl := hquiet heffective
        have hleft := left_of_quiet closing hstep heffective
        omega
    · by_cases heffective : (s.places t).Effective program t
      · exact pays.preserved c t c' (heffect heffective) hinv
      · obtain rfl := hquiet heffective
        exact hinv
  · intro ht
    have hsum : ∑ u ∈ threads, (s'.places u).left program u =
        ∑ u ∈ threads, (s.places u).left program u :=
      Finset.sum_congr rfl fun u hu => hother u (ne_of_mem_of_not_mem hu ht)
    rw [← hsum] at hbound
    by_cases heffective : (s.places t).Effective program t
    · have hmeasure := pays.others c t c' (heffect heffective) hinv ht
      exact ⟨hclosed', c', hrelated', pays.preserved c t c' (heffect heffective) hinv, by omega⟩
    · obtain rfl := hquiet heffective
      exact ⟨hclosed', c', hrelated', hinv, hbound⟩

/-- Where the steps of all threads are paid for, every step spends. -/
theorem budget_spends [Fintype Thread] (safe : ReadsSafely program) (closing : Closing program)
    (pays : Pays program Finset.univ I measure) (s : Interleaved Thread Comp Local) (t : Thread)
    (s' : Interleaved Thread Comp Local) (bound : Nat) (hstep : Step program s t s')
    (h : Budget program Finset.univ I measure s bound) :
    ∃ left, left < bound ∧ Budget program Finset.univ I measure s' left :=
  (budget_step safe closing pays hstep h).1 (Finset.mem_univ t)

/-- A run is no longer than what is paid. -/
theorem length_le_of_pays [Fintype Thread] (safe : ReadsSafely program) (closing : Closing program)
    (pays : Pays program Finset.univ I measure) {s s' : Interleaved Thread Comp Local}
    {labels : List Thread} {bound : Nat} (run : Run (Step program) s labels s')
    (start : Budget program Finset.univ I measure s bound) : labels.length ≤ bound :=
  run.length_le_of_budget (budget_spends safe closing pays) start

/-- And none is infinite. -/
theorem not_of_pays [Fintype Thread] (safe : ReadsSafely program) (closing : Closing program)
    (pays : Pays program Finset.univ I measure) (r : InfiniteRun (Step program)) {k bound : Nat}
    (start : Budget program Finset.univ I measure (r.state k) bound) : False :=
  r.not_of_budget (budget_spends safe closing pays) start

/-- Threads whose steps are paid for take none from some time on. -/
theorem quiet_of_pays (safe : ReadsSafely program) (closing : Closing program)
    (pays : Pays program threads I measure) (r : InfiniteRun (Step program)) {k bound : Nat}
    (start : Budget program threads I measure (r.state k) bound) :
    ∃ last, k ≤ last ∧ ∀ m, last ≤ m → r.label m ∉ threads := by
  have keeps : ∀ s t s' bound, Step program s t s' → Budget program threads I measure s bound →
      Budget program threads I measure s' bound := by
    intro s t s' bound hstep h
    by_cases ht : t ∈ threads
    · obtain ⟨left, hless, hclosed, c, hrelated, hinv, hbound⟩ :=
        (budget_step safe closing pays hstep h).1 ht
      exact ⟨hclosed, c, hrelated, hinv, by omega⟩
    · exact (budget_step safe closing pays hstep h).2 ht
  exact r.quiet_of_budget keeps
    (fun s t s' bound hstep ht h => (budget_step safe closing pays hstep h).1 ht) start

end Budgets

/-! ### Locks that are free again -/

section Fair

variable [DecidableEq Lock] [DecidableEq Thread] {program : Program Thread Comp Local}

/-- The steps of a thread in its section. -/
def Place.held : Place Comp Local → Nat
  | .outside _ => 0
  | .inside _ _ rest => 2 * rest.length + 1
  | .nested _ _ _ rest => 2 * rest.length + 2

/-- A thread in a section is nearer to its release after each of its steps. -/
theorem held_step {s s' : Interleaved Thread Comp Local} {t : Thread}
    (hstep : Step program s t s') {l : Lock} (holds : (s.places t).Holds l) :
    (s'.places t).held < (s.places t).held := by
  cases hstep with
  | access l a run rest pc => simp [pc, Place.held]
  | nest l inner a rest pc free =>
      simp only [pc, Place.held, Function.update_self, List.length_cons]
      omega
  | unnest l inner a rest pc => simp [pc, Place.held]
  | release l a pc => simp [pc, Place.held]
  | acquire a l body pc command free => simp [pc, Place.Holds] at holds
  | read a l next pc command => simp [pc, Place.Holds] at holds
  | tau a next pc command => simp [pc, Place.Holds] at holds
  | join other a next b pc command there stopped => simp [pc, Place.Holds] at holds

/-- The holder of a lock after which no other comes can take its next step. -/
theorem enabled_of_holds {rank : Lock → Nat} {l : Lock} (greatest : ∀ k, rank k ≤ rank l)
    {s : Interleaved Thread Comp Local} {t : Thread} (ranked : (s.places t).Ranked rank)
    (holds : (s.places t).Holds l) : Enabled (Step program) (fun u => u = t) s := by
  cases pc : s.places t with
  | outside a =>
      rw [pc] at holds
      exact holds.elim
  | nested k inner a rest => exact ⟨t, _, rfl, .unnest s t k inner a rest pc⟩
  | inside k a rest =>
      rw [pc] at holds ranked
      obtain rfl : l = k := holds
      cases rest with
      | nil => exact ⟨t, _, rfl, .release s t l a pc⟩
      | cons op rest =>
          cases op with
          | access run => exact ⟨t, _, rfl, .access s t l a run rest pc⟩
          | under inner =>
              have hlater := ranked inner List.mem_cons_self
              have htop := greatest inner
              omega

/-- A lock passes from its owner to nobody. -/
theorem owner_step {s s' : Interleaved Thread Comp Local} {t u : Thread} {l : Lock}
    (hstep : Step program s t s') (howner : s.owner l = some u) :
    s'.owner l = some u ∨ s'.owner l = none := by
  cases hstep with
  | acquire a k body pc command free =>
      have hne : l ≠ k := by
        rintro rfl
        simp [free] at howner
      simp [hne, howner]
  | nest k inner a rest pc free =>
      have hne : l ≠ inner := by
        rintro rfl
        simp [free] at howner
      simp [hne, howner]
  | unnest k inner a rest pc =>
      by_cases hne : l = inner <;> simp [hne, howner]
  | release k a pc =>
      by_cases hne : l = k <;> simp [hne, howner]
  | _ => exact .inl howner

/-- In a run that is fair to every thread a lock after which no other comes is free again and
again. -/
theorem free_again {rank : Lock → Nat} (ordered : Ranked program rank) {l : Lock}
    (greatest : ∀ k, rank k ≤ rank l) (r : InfiniteRun (Step program))
    (fair : ∀ t, r.WeaklyFair fun u => u = t) (locked : WellLocked (r.state 0))
    (ranked : ∀ t, ((r.state 0).places t).Ranked rank) (k : Nat) :
    ∃ m, k ≤ m ∧ (r.state m).owner l = none := by
  cases howner : (r.state k).owner l with
  | none => exact ⟨k, le_refl k, howner⟩
  | some t =>
      have preserved : ∀ s u s', Step program s u s' →
          (WellLocked s ∧ ∀ u, (s.places u).Ranked rank) →
            WellLocked s' ∧ ∀ u, (s'.places u).Ranked rank :=
        fun s u s' hstep h =>
          ⟨wellLocked_step s u s' hstep h.1, ranked_step ordered s u s' hstep h.2⟩
      obtain ⟨m, hkm, hreleased⟩ := r.reaches_of_rank preserved (fun s => s.owner l ≠ some t)
        (fun s => (s.places t).held)
        (fun s h hheld => enabled_of_holds greatest (h.2 t)
          ((h.1.owner_iff l t).mp (not_not.mp hheld)))
        (fun s u s' hstep h hheld => by
          by_cases hu : u = t
          · subst hu
            exact (held_step hstep ((h.1.owner_iff l u).mp (not_not.mp hheld))).le
          · rw [hstep.places_of_ne (Ne.symm hu)])
        (fun s u s' hstep h hheld hu => by
          subst hu
          exact held_step hstep ((h.1.owner_iff l u).mp (not_not.mp hheld)))
        (fair t) (r.invariant preserved (Nat.zero_le k) ⟨locked, ranked⟩)
      -- between `k` and `m` there is the step after which nobody owns the lock
      by_contra hnever
      push Not at hnever
      have hstill : ∀ m, k ≤ m → (r.state m).owner l = some t := by
        intro m hkm
        induction m, hkm using Nat.le_induction with
        | base => exact howner
        | succ m hkm ih =>
            exact (owner_step (r.next m) ih).resolve_right (hnever (m + 1) (by omega))
      exact hreleased (hstill m hkm)

end Fair

end Dedup.CriticalSections
