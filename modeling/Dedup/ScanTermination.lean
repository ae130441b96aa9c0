/-
Module: Dedup.ScanTermination
Purpose: The scan with its mutexes ends.  Before `done` the threads may poll an empty queue for as
  long as `main` gets nowhere, and they take the mutex of the queue to do so; the end is owed to
  `main`, which must not starve at a mutex that is free again and again.  From then on every step
  of the process, an access, a mutex taken or released, brings it nearer to its return, whatever
  the scheduler does.
Imports: Dedup.LockedScan, Dedup.Lib.SectionProgress
Main exports: ahead, behind, mainBehind, main_pays, thread_pays, lockedScan_ends, shutdown_bounded
-/
import Dedup.LockedScan
import Dedup.Lib.SectionProgress

namespace Dedup.LockedScan

open WorkQueue (Traversed eligible)
open CriticalSections

variable {n : Nat} {cfg : Config}

/-! ### Sections end with an access -/

theorem closed_progressLock {block : List (Access n .progress)} (next : Point n)
    (closed : block ≠ [] ∧ ClosedBody Mutex.progress block) :
    (progressLock cfg block next).Closed := by
  unfold progressLock
  split
  · exact closed
  · trivial

theorem closed_threadNext (cfg : Config) (p : Point n) : (threadNext cfg p).Closed := by
  cases p with
  | popping => exact ⟨by simp [fileEntryNext], .inr ⟨[_], _, rfl⟩⟩
  | checking => exact ⟨by simp, .inr ⟨[], _, rfl⟩⟩
  | visiting fe =>
      simp only [threadNext]
      split
      · exact closed_progressLock _ ⟨by simp, .inr ⟨[], _, rfl⟩⟩
      · exact ⟨by simp [insertVisited], .inr ⟨[_], _, rfl⟩⟩
  | matched old fm => exact ⟨by simp [recordDuplicates], .inr ⟨_, _, rfl⟩⟩
  | recorded old fm =>
      simp only [threadNext]
      split
      · exact ⟨by simp [countDuplicate], .inr ⟨[_], _, rfl⟩⟩
      · trivial
  | reporting old fm =>
      simp only [threadNext]
      split
      · exact closed_progressLock _ ⟨by simp, .inr ⟨[], _, rfl⟩⟩
      · trivial
  | completing => exact closed_progressLock _ ⟨by simp [countCompleted], .inr ⟨[_, _], _, rfl⟩⟩
  | _ => trivial

theorem closed_mainNext (cfg : Config) (p : Point n) : (mainNext cfg p).Closed := by
  cases p with
  | reading rest =>
      cases rest with
      | nil => exact ⟨by simp, .inr ⟨[], _, rfl⟩⟩
      | cons first rest =>
          cases first with
          | failed => exact closed_progressLock _ ⟨by simp, .inr ⟨[], _, rfl⟩⟩
          | eligible fe =>
              exact closed_progressLock _ ⟨by simp [countTotal], .inr ⟨[_, _], _, rfl⟩⟩
  | appending fe rest => exact ⟨by simp, .inr ⟨[], _, rfl⟩⟩
  | joining threads => cases threads <;> trivial
  | _ => trivial

theorem closing_program (cfg : Config) : Closing (program (n := n) cfg) := by
  intro t p
  cases t with
  | none => exact closed_mainNext cfg p
  | some i => exact closed_threadNext cfg p

/-! ### The steps of `main` -/

theorem cost_progressLock_le (block : List (Access n .progress)) (next : Point n) :
    (progressLock cfg block next).cost ≤ Op.cost block + 1 := by
  unfold progressLock
  split <;> simp [Command.cost]

theorem owed_le (command : Next n) : command.owed ≤ 1 := by
  cases command <;> simp [Command.owed]

/-- The steps of `main` behind its next effect, for the entries of a traversal. -/
def entriesBehind (n : Nat) : List (Traversed FileEntry) → Nat
  | [] => n + 1
  | .failed :: rest => entriesBehind n rest + 5
  | .eligible _ :: rest => entriesBehind n rest + 8

/-- The steps of `main` behind its next effect. -/
def mainBehind : Point n → Nat
  | .reading rest => entriesBehind n rest
  | .appending _ rest => entriesBehind n rest + 5
  | .joining threads => threads.length - 1
  | _ => 0

/-- The steps of `main` to its next effect, in its loop. -/
theorem cost_reading_le (cfg : Config) (rest : List (Traversed FileEntry)) :
    (mainNext (n := n) cfg (.reading rest)).cost ≤ 4 := by
  cases rest with
  | nil => simp [mainNext, Command.cost, Op.cost]
  | cons first rest =>
      cases first with
      | failed =>
          refine (cost_progressLock_le _ _).trans ?_
          simp [displayProgress, Op.cost]
      | eligible fe =>
          refine (cost_progressLock_le _ _).trans ?_
          simp [countTotal, displayProgress, Op.cost]

/-- And where it joins. -/
theorem cost_joining (cfg : Config) (threads : List (Fin n)) :
    (mainNext cfg (.joining threads)).cost + (threads.length - 1) = threads.length := by
  cases threads <;> simp [mainNext, Command.cost, Nat.add_comm]

section Steps

variable {c c' : Atomic (Option (Fin n)) Guarded (Point n)}

/-- A section under `PROGRESS_LOCK`, or none without a bar: it leads its thread on and changes
nothing but the bar. -/
theorem after_progressLock {t : Option (Fin n)} {block : List (Access n .progress)} {next : Point n}
    (command : program cfg t (c.locals t) = progressLock cfg block next)
    (leads : (Op.effect block (c.shared .progress, c.locals t)).2 = next) :
    (c.after (program cfg) t).locals = Function.update c.locals t next ∧
      ∀ m, m ≠ .progress → (c.after (program cfg) t).shared m = c.shared m := by
  cases hshown : cfg.shown with
  | true =>
      rw [after_critical (command.trans (progressLock_shown hshown _ _))]
      exact ⟨by rw [leads], fun m hm => by simp [hm]⟩
  | false =>
      rw [after_tau (command.trans (progressLock_hidden hshown _ _))]
      exact ⟨rfl, fun m _ => rfl⟩

/-- Where `main` goes with its next effect, and what becomes of `done`. -/
inductive MainMove : Point n × Bool → Point n × Bool → Prop where
  | finish (done : Bool) : MainMove (.reading [], done) (.joining (List.finRange n), true)
  | failed (rest : List (Traversed FileEntry)) (done : Bool) :
      MainMove (.reading (.failed :: rest), done) (.reading rest, done)
  | count (fe : FileEntry) (rest : List (Traversed FileEntry)) (done : Bool) :
      MainMove (.reading (.eligible fe :: rest), done) (.appending fe rest, done)
  | append (fe : FileEntry) (rest : List (Traversed FileEntry)) (done : Bool) :
      MainMove (.appending fe rest, done) (.reading rest, done)
  | join (i : Fin n) (threads : List (Fin n)) (done : Bool) :
      MainMove (.joining (i :: threads), done) (.joining threads, done)

/-- `main` moves so; where it joins it leaves the queue alone. -/
theorem mainMove_of_step (hstep : AtomicStep (program cfg) c none c') :
    MainMove (c.locals none, c.shared .done) (c'.locals none, c'.shared .done) ∧
      (∀ i, c'.locals (some i) = c.locals (some i)) ∧
        ∀ threads, c.locals none = .joining threads → c'.shared .queue = c.shared .queue := by
  refine ⟨?_, fun i => hstep.locals_of_ne (by simp), ?_⟩
  all_goals
    obtain ⟨rfl, running⟩ := hstep.eq_after
    generalize hpc : c.locals none = p at running
    have command : ∀ {next}, mainNext cfg p = next → program cfg none (c.locals none) = next := by
      rintro next rfl
      rw [hpc]
      rfl
  · cases p with
    | reading rest =>
        cases rest with
        | nil =>
            rw [after_critical (command rfl)]
            simpa [Op.effect, Op.run] using MainMove.finish (c.shared .done)
        | cons first rest =>
            cases first with
            | failed =>
                obtain ⟨hlocals, hshared⟩ := after_progressLock (command rfl) rfl
                rw [hlocals, hshared .done (by decide)]
                simpa using MainMove.failed rest (c.shared .done)
            | eligible fe =>
                obtain ⟨hlocals, hshared⟩ := after_progressLock (command rfl) rfl
                rw [hlocals, hshared .done (by decide)]
                simpa using MainMove.count fe rest (c.shared .done)
    | appending fe rest =>
        rw [after_critical (command rfl)]
        simpa [Op.effect, Op.run] using MainMove.append fe rest (c.shared .done)
    | joining threads =>
        cases threads with
        | nil => exact absurd rfl running
        | cons i threads =>
            have hafter : (c.after (program cfg) none) =
                { c with locals := Function.update c.locals none (.joining threads) } := by
              rw [Atomic.after, command rfl]
              rfl
            rw [hafter]
            simpa using MainMove.join i threads (c.shared .done)
    | _ => exact absurd rfl running
  · rintro threads rfl
    cases threads with
    | nil => exact absurd rfl running
    | cons i threads =>
        rw [Atomic.after, command rfl]
        rfl

/-- Where a thread goes with its next effect, and what becomes of the queue. -/
inductive ThreadMove (done : Bool) :
    Point n × List FileEntry → Point n × List FileEntry → Prop where
  | enter (queue : List FileEntry) : ThreadMove done (.starting, queue) (testDone done, queue)
  | popEmpty : ThreadMove done (.popping, []) (.checking, [])
  | pop (fe : FileEntry) (queue : List FileEntry) :
      ThreadMove done (.popping, fe :: queue) (.visiting fe, queue)
  | check (queue : List FileEntry) : ThreadMove done (.checking, queue) (testDone done, queue)
  | skip (fe : FileEntry) (queue : List FileEntry) :
      ThreadMove done (.visiting fe, queue) (.completing, queue)
  | insert (fe : FileEntry) (fm : FileMetadata) (old : Option FileMetadata)
      (queue : List FileEntry) : ThreadMove done (.visiting fe, queue) (answered fm old, queue)
  | record (old fm : FileMetadata) (queue : List FileEntry) :
      ThreadMove done (.matched old fm, queue) (.recorded old fm, queue)
  | found (old fm : FileMetadata) (queue : List FileEntry) :
      ThreadMove done (.recorded old fm, queue) (.reporting old fm, queue)
  | cloned (old fm : FileMetadata) (queue : List FileEntry) :
      ThreadMove done (.recorded old fm, queue) (.completing, queue)
  | report (old fm : FileMetadata) (queue : List FileEntry) :
      ThreadMove done (.reporting old fm, queue) (.completing, queue)
  | complete (queue : List FileEntry) :
      ThreadMove done (.completing, queue) (.popping, queue)

/-- A thread moves so, and leaves `done` alone. -/
theorem threadMove_of_step {i : Fin n} (hstep : AtomicStep (program cfg) c (some i) c') :
    ThreadMove (c.shared .done) (c.locals (some i), c.shared .queue)
        (c'.locals (some i), c'.shared .queue) ∧
      c'.shared .done = c.shared .done := by
  obtain ⟨rfl, running⟩ := hstep.eq_after
  generalize hpc : c.locals (some i) = p at running
  have command : ∀ {next}, threadNext cfg p = next →
      program cfg (some i) (c.locals (some i)) = next := by
    rintro next rfl
    rw [hpc]
    rfl
  -- the sections of the bar, and the steps without a section
  have hbar : ∀ block next, threadNext cfg p = progressLock cfg block next →
      (Op.effect block (c.shared .progress, c.locals (some i))).2 = next →
        (c.after (program cfg) (some i)).locals (some i) = next ∧
          (c.after (program cfg) (some i)).shared .queue = c.shared .queue ∧
            (c.after (program cfg) (some i)).shared .done = c.shared .done := by
    intro block next hnext hleads
    obtain ⟨hlocals, hshared⟩ := after_progressLock (command hnext) hleads
    exact ⟨by rw [hlocals, Function.update_self], hshared .queue (by decide),
      hshared .done (by decide)⟩
  have htau : ∀ {next}, threadNext cfg p = .tau next →
      (c.after (program cfg) (some i)).locals (some i) = next ∧
        (c.after (program cfg) (some i)).shared .queue = c.shared .queue ∧
          (c.after (program cfg) (some i)).shared .done = c.shared .done := by
    intro next hnext
    rw [after_tau (command hnext)]
    exact ⟨Function.update_self _ _ _, rfl, rfl⟩
  cases p with
  | starting =>
      have hafter : c.after (program cfg) (some i) =
          { c with locals := Function.update c.locals (some i) (testDone (c.shared .done)) } := by
        rw [Atomic.after, command rfl]
        rfl
      rw [hafter]
      exact ⟨by simpa using ThreadMove.enter (c.shared .queue), rfl⟩
  | popping =>
      rw [after_critical (command rfl)]
      refine ⟨?_, by simp⟩
      cases hqueue : c.shared .queue with
      | nil =>
          simp only [Function.update_self]
          exact .popEmpty
      | cons fe rest =>
          simp only [Function.update_self]
          exact .pop fe rest
  | checking =>
      rw [after_critical (command rfl)]
      exact ⟨by simpa [Op.effect, Op.run] using ThreadMove.check (c.shared .queue),
        by simp [Op.effect, Op.run]⟩
  | visiting fe =>
      cases hfm : metadataFromEntry cfg.env fe with
      | none =>
          obtain ⟨hlocal, hqueue, hdone⟩ := hbar [printBeside .completing] .completing
            (by simp only [threadNext, hfm]) rfl
          rw [hlocal, hqueue]
          exact ⟨.skip fe _, hdone⟩
      | some fm =>
          have hvisit : threadNext cfg (.visiting fe : Point n) =
              .critical .visited (insertVisited cfg.env fm) := by
            simp only [threadNext, hfm]
          rw [after_critical (command hvisit), effect_insertVisited]
          exact ⟨by simpa using ThreadMove.insert fe _ _ (c.shared .queue), by simp⟩
  | matched old fm =>
      rw [after_critical (command rfl), effect_recordDuplicates]
      exact ⟨by simpa using ThreadMove.record old fm (c.shared .queue), by simp⟩
  | recorded old fm =>
      by_cases hdiffers : fm.cloneId ≠ old.cloneId
      · rw [after_critical (command (if_pos hdiffers)), effect_countDuplicate]
        exact ⟨by simpa using ThreadMove.found old fm (c.shared .queue), by simp⟩
      · obtain ⟨hlocal, hqueue, hdone⟩ := htau (if_neg hdiffers)
        rw [hlocal, hqueue]
        exact ⟨.cloned old fm _, hdone⟩
  | reporting old fm =>
      by_cases hverbose : cfg.verbosity > 1
      · obtain ⟨hlocal, hqueue, hdone⟩ := hbar [printBeside .completing] .completing
          (if_pos hverbose) rfl
        rw [hlocal, hqueue]
        exact ⟨.report old fm _, hdone⟩
      · obtain ⟨hlocal, hqueue, hdone⟩ := htau (if_neg hverbose)
        rw [hlocal, hqueue]
        exact ⟨.report old fm _, hdone⟩
  | completing =>
      obtain ⟨hlocal, hqueue, hdone⟩ := hbar countCompleted .popping rfl rfl
      rw [hlocal, hqueue]
      exact ⟨.complete _, hdone⟩
  | _ => exact absurd rfl running

end Steps

/-! ### What the steps pay for -/

/-- `main` is in its loop until it sets `done`, and then joins its threads. -/
def MainPhase : Point n × Bool → Prop
  | (.reading _, done) => done = false
  | (.appending _ _, done) => done = false
  | (.joining threads, done) => threads.length ≤ n ∧ done = true
  | _ => False

theorem mainPhase_move {x y : Point n × Bool} (hmove : MainMove x y) (h : MainPhase x) :
    MainPhase y := by
  cases hmove with
  | finish done => simp [MainPhase]
  | failed rest done => exact h
  | count fe rest done => exact h
  | append fe rest done => exact h
  | join i threads done =>
      obtain ⟨hlength, hdone⟩ : threads.length + 1 ≤ n ∧ done = true := h
      exact ⟨by omega, hdone⟩

/-- `main` pays for its steps up to the next effect. -/
theorem mainMove_pays (cfg : Config) {x y : Point n × Bool} (hmove : MainMove x y) :
    mainBehind y.1 + (mainNext cfg x.1).owed + (mainNext cfg y.1).cost ≤ mainBehind x.1 := by
  have howed := owed_le (mainNext cfg x.1)
  cases hmove with
  | finish done =>
      have hcost := cost_joining cfg (List.finRange n)
      simp only [List.length_finRange] at hcost
      simp only [mainBehind, entriesBehind, List.length_finRange] at howed ⊢
      omega
  | failed rest done =>
      have hcost := cost_reading_le (n := n) cfg rest
      simp only [mainBehind, entriesBehind] at howed ⊢
      omega
  | count fe rest done =>
      have hcost : (mainNext (n := n) cfg (.appending fe rest)).cost = 2 := rfl
      simp only [mainBehind, entriesBehind] at howed ⊢
      omega
  | append fe rest done =>
      have hcost := cost_reading_le (n := n) cfg rest
      simp only [mainBehind] at howed ⊢
      omega
  | join i threads done =>
      have hcost := cost_joining cfg threads
      have howed : (mainNext cfg (.joining (i :: threads))).owed = 0 := rfl
      simp only [mainBehind, List.length_cons] at howed ⊢
      omega

/-- The steps of a thread up to its next effect, at most. -/
def ahead : Point n → Nat
  | .starting => 1
  | .popping => 3
  | .checking => 2
  | .visiting _ => 3
  | .matched _ _ => 6
  | .recorded _ _ => 3
  | .reporting _ _ => 2
  | .completing => 4
  | _ => 0

/-- The steps of a thread behind its next effect, until it returns, if `done` is set and it takes no
further file. -/
def behind : Point n → Nat
  | .popping => 4
  | .checking => 1
  | .visiting _ => 27
  | .matched _ _ => 20
  | .recorded _ _ => 16
  | .reporting _ _ => 13
  | .completing => 8
  | _ => 0

theorem ahead_behind_le (p : Point n) : ahead p + behind p ≤ 30 := by
  cases p <;> simp [ahead, behind]

theorem cost_threadNext_le (cfg : Config) (p : Point n) : (threadNext cfg p).cost ≤ ahead p := by
  cases p with
  | visiting fe =>
      simp only [threadNext]
      split
      · refine (cost_progressLock_le _ _).trans ?_
        simp [printBeside, Op.cost, ahead]
      · simp [Command.cost, insertVisited, Op.cost, ahead]
  | matched old fm =>
      simp only [threadNext, Command.cost, recordDuplicates, Op.cost_append, ahead]
      split <;> simp [Op.cost]
  | recorded old fm =>
      simp only [threadNext]
      split <;> simp [Command.cost, countDuplicate, Op.cost, ahead]
  | reporting old fm =>
      simp only [threadNext]
      split
      · refine (cost_progressLock_le _ _).trans ?_
        simp [printBeside, Op.cost, ahead]
      · simp [Command.cost, ahead]
  | completing =>
      refine (cost_progressLock_le _ _).trans ?_
      simp [countCompleted, displayProgress, Op.cost, ahead]
  | _ => simp [threadNext, Command.cost, fileEntryNext, Op.cost, ahead]

/-- After `done` a thread pays for its steps up to the next effect: 27 of them for each file that it
takes from the queue. -/
theorem threadMove_pays (cfg : Config) {x y : Point n × List FileEntry}
    (hmove : ThreadMove true x y) :
    27 * y.2.length + behind y.1 + (threadNext cfg x.1).owed + (threadNext cfg y.1).cost ≤
      27 * x.2.length + behind x.1 := by
  have howed := owed_le (threadNext cfg x.1)
  have hcost := cost_threadNext_le cfg y.1
  cases hmove with
  | enter queue =>
      have howed : (threadNext cfg (.starting : Point n)).owed = 0 := rfl
      simp only [testDone, if_true, behind, ahead] at howed hcost ⊢
      omega
  | popEmpty =>
      simp only [behind, ahead] at howed hcost ⊢
      omega
  | pop fe queue =>
      simp only [behind, ahead, List.length_cons] at howed hcost ⊢
      omega
  | check queue =>
      simp only [testDone, if_true, behind, ahead] at howed hcost ⊢
      omega
  | insert fe fm old queue =>
      cases old <;> simp only [answered, behind, ahead] at howed hcost ⊢ <;> omega
  | _ =>
      simp only [behind, ahead] at howed hcost ⊢
      omega

/-- The steps behind the next effects of all threads, once `main` joins them. -/
def stepsBehind (c : Atomic (Option (Fin n)) Guarded (Point n)) : Nat :=
  27 * (c.shared .queue).length + ∑ i, behind (c.locals (some i)) + mainBehind (c.locals none)

/-- `main` joins its threads. -/
def Joining (c : Atomic (Option (Fin n)) Guarded (Point n)) : Prop :=
  c.shared .done = true ∧ ∃ threads, c.locals none = .joining threads ∧ threads.length ≤ n

section Pays

variable {c c' : Atomic (Option (Fin n)) Guarded (Point n)}

theorem mainPhase_step {t : Option (Fin n)} (hstep : AtomicStep (program cfg) c t c')
    (h : MainPhase (c.locals none, c.shared .done)) :
    MainPhase (c'.locals none, c'.shared .done) := by
  cases t with
  | none => exact mainPhase_move (mainMove_of_step hstep).1 h
  | some i => rwa [hstep.locals_of_ne (by simp), (threadMove_of_step hstep).2]

theorem MainPhase.joining (h : MainPhase (c.locals none, c.shared .done))
    (hdone : c.shared .done = true) : Joining c := by
  rw [hdone] at h
  generalize hp : c.locals none = p at h
  cases p with
  | joining threads => exact ⟨hdone, threads, hp, h.1⟩
  | reading rest => simp [MainPhase] at h
  | appending fe rest => simp [MainPhase] at h
  | _ => exact h.elim

theorem Joining.step {t : Option (Fin n)} (hstep : AtomicStep (program cfg) c t c')
    (h : Joining c) : Joining c' := by
  obtain ⟨hdone, threads, hmain, hlength⟩ := h
  have hphase : MainPhase (c.locals none, c.shared .done) := by
    rw [hmain]
    exact ⟨hlength, hdone⟩
  apply (mainPhase_step hstep hphase).joining
  cases t with
  | some i => rw [(threadMove_of_step hstep).2, hdone]
  | none =>
      have hmove := (mainMove_of_step hstep).1
      rw [hmain, hdone] at hmove
      generalize hpc : (c'.locals none, c'.shared .done) = y at hmove
      cases hmove with
      | join i threads done => exact congrArg Prod.snd hpc

/-- What the threads add to a sum after one of them moved. -/
theorem behind_sum {i : Fin n} (hstep : AtomicStep (program cfg) c (some i) c') :
    (∑ j, behind (c'.locals (some j))) + behind (c.locals (some i)) =
      (∑ j, behind (c.locals (some j))) + behind (c'.locals (some i)) := by
  have hlocals : (fun j => c'.locals (some j)) =
      Function.update (fun j => c.locals (some j)) i (c'.locals (some i)) := by
    funext j
    by_cases hj : j = i
    · subst hj
      simp
    · rw [Function.update_of_ne hj]
      exact hstep.locals_of_ne (by simpa using hj)
  have hsum := sum_update (fun j => c.locals (some j)) i (c'.locals (some i)) behind
  rwa [← hlocals] at hsum

/-- After `done` every thread pays for its steps, and `main` for its joins. -/
theorem pays_stepsBehind (cfg : Config) :
    Pays (program (n := n) cfg) Finset.univ Joining stepsBehind where
  preserved := fun c t c' hstep h => h.step hstep
  mine := by
    rintro c t c' hstep ⟨hdone, threads, hmain, -⟩ -
    cases t with
    | none =>
        obtain ⟨hmove, hothers, hqueue⟩ := mainMove_of_step hstep
        have hpays := mainMove_pays cfg hmove
        simp only at hpays
        simp only [stepsBehind, hothers, hqueue threads hmain, program]
        omega
    | some i =>
        obtain ⟨hmove, -⟩ := threadMove_of_step hstep
        rw [hdone] at hmove
        have hpays := threadMove_pays cfg hmove
        have hsum := behind_sum hstep
        simp only at hpays
        simp only [stepsBehind, hstep.locals_of_ne (show none ≠ some i by simp), program]
        omega
  others := fun c t c' _ _ ht => absurd (Finset.mem_univ t) ht

/-- `main` pays for its own steps in every run. -/
theorem pays_mainBehind (cfg : Config) :
    Pays (program (n := n) cfg) {none} (fun _ => True) fun c => mainBehind (c.locals none) where
  preserved := fun _ _ _ _ _ => trivial
  mine := by
    intro c t c' hstep _ ht
    obtain rfl := Finset.mem_singleton.mp ht
    exact mainMove_pays cfg (mainMove_of_step hstep).1
  others := by
    intro c t c' hstep _ ht
    rw [hstep.locals_of_ne (fun hnone => ht (by simp [hnone]))]

end Pays

/-! ### What is reached -/

/-- What holds wherever the process comes to. -/
structure Reached (cfg : Config) (s : Interleaved (Option (Fin n)) Guarded (Point n)) : Prop where
  closed : ∀ t, (s.places t).Rest ClosedBody
  ranked : ∀ t, (s.places t).Ranked rank
  atomic : ∃ c, Related (program cfg) s c ∧ MainPhase (c.locals none, c.shared .done)

theorem reached_start (cfg : Config) (entries : List (Traversed FileEntry)) :
    Reached (n := n) cfg (start entries).start where
  closed := fun _ => trivial
  ranked := fun _ => trivial
  atomic := ⟨_, related_start _, rfl⟩

theorem reached_step (s : Interleaved (Option (Fin n)) Guarded (Point n)) (t : Option (Fin n))
    (s' : Interleaved (Option (Fin n)) Guarded (Point n)) (hstep : Step (program cfg) s t s')
    (h : Reached cfg s) : Reached cfg s' where
  closed := rest_step (fun _ _ _ _ command => ((closing_program cfg).body command).2)
    closedBody_tail s t s' hstep h.closed
  ranked := ranked_step (ranked_program cfg) s t s' hstep h.ranked
  atomic := by
    obtain ⟨c, hrelated, hphase⟩ := h.atomic
    obtain ⟨c', hrelated', heffect, hquiet⟩ :=
      related_step (readsSafely_program cfg) hstep hrelated
    refine ⟨c', hrelated', ?_⟩
    by_cases heffective : (s.places t).Effective (program cfg) t
    · exact mainPhase_step (heffect heffective) hphase
    · rwa [hquiet heffective]

/-! ### Whole runs -/

/-- `main` joins its threads, or takes a step of its own, or waits for a mutex after which no other
comes. -/
theorem mainNext_cases (cfg : Config) {p : Point n} {done : Bool} (phase : MainPhase (p, done)) :
    (∃ threads, p = .joining threads) ∨ (∃ next, mainNext cfg p = .tau next) ∨
      ∃ m body, mainNext cfg p = .critical m body ∧ rank m = 1 := by
  have hbar : ∀ {p : Point n} {block next}, mainNext cfg p = progressLock cfg block next →
      (∃ next, mainNext cfg p = .tau next) ∨
        ∃ m body, mainNext cfg p = .critical m body ∧ rank m = 1 := by
    intro p block next hnext
    cases hshown : cfg.shown with
    | true =>
        exact .inr ⟨_, _, hnext.trans (progressLock_shown hshown _ _), rfl⟩
    | false => exact .inl ⟨_, hnext.trans (progressLock_hidden hshown _ _)⟩
  cases p with
  | reading rest =>
      cases rest with
      | nil => exact .inr (.inr ⟨_, _, rfl, rfl⟩)
      | cons first rest =>
          cases first with
          | failed => exact .inr (hbar rfl)
          | eligible fe => exact .inr (hbar rfl)
  | appending fe rest => exact .inr (.inr ⟨_, _, rfl, rfl⟩)
  | joining threads => exact .inl ⟨threads, rfl⟩
  | _ => exact phase.elim

section Fair

variable (r : InfiniteRun (Step (program (n := n) cfg)))

/-- `main` can be kept from its next step for ever only where it joins its threads: every mutex that
it waits for is free again and again. -/
theorem joining_of_kept (fair : ∀ t, r.WeaklyFair fun u => u = t)
    (start : Reached cfg (r.state 0)) {k : Nat} (kept : ∀ m, k ≤ m → r.label m ≠ none)
    (disabled : ∀ m, k ≤ m → ¬ Enabled (Step (program cfg)) (fun t => t = none) (r.state m)) :
    ∃ threads, (r.state k).places none = .outside (.joining threads) := by
  have hreached : Reached cfg (r.state k) := r.invariant reached_step (Nat.zero_le k) start
  have hplace : ∀ m, k ≤ m → (r.state m).places none = (r.state k).places none := by
    intro m hkm
    induction m, hkm using Nat.le_induction with
    | base => rfl
    | succ m hkm ih => exact ((r.next m).places_of_ne (kept m hkm).symm).trans ih
  have hfree : ∀ mutex, rank mutex = 1 → ∃ m, k ≤ m ∧ (r.state m).owner mutex = none := by
    intro mutex hrank
    obtain ⟨c, hrelated, -⟩ := start.atomic
    exact free_again (ranked_program cfg) (fun other => hrank ▸ rank_le other) r fair
      hrelated.locked start.ranked k
  cases pc : (r.state k).places none with
  | nested l inner a rest =>
      exact absurd ⟨none, _, rfl, .unnest _ none l inner a rest pc⟩ (disabled k (le_refl k))
  | inside l a rest =>
      cases rest with
      | nil => exact absurd ⟨none, _, rfl, .release _ none l a pc⟩ (disabled k (le_refl k))
      | cons op rest =>
          cases op with
          | access run =>
              exact absurd ⟨none, _, rfl, .access _ none l a run rest pc⟩
                (disabled k (le_refl k))
          | under inner =>
              have hlater := hreached.ranked none
              rw [pc] at hlater
              have hrank : rank inner = 1 := by
                have := hlater inner List.mem_cons_self
                have := rank_le inner
                omega
              obtain ⟨m, hkm, hfree⟩ := hfree inner hrank
              exact absurd ⟨none, _, rfl, .nest _ none l inner a rest ((hplace m hkm).trans pc)
                hfree⟩ (disabled m hkm)
  | outside a =>
      obtain ⟨c, hrelated, hphase⟩ := hreached.atomic
      have hlocal := hrelated.tracks none
      rw [pc] at hlocal
      rw [show c.locals none = a from hlocal] at hphase
      rcases mainNext_cases cfg hphase with ⟨threads, rfl⟩ | ⟨next, command⟩ |
        ⟨mutex, body, command, hrank⟩
      · exact ⟨threads, rfl⟩
      · exact absurd ⟨none, _, rfl, .tau _ none a next pc command⟩ (disabled k (le_refl k))
      · obtain ⟨m, hkm, hfree⟩ := hfree mutex hrank
        exact absurd ⟨none, _, rfl, .acquire _ none a mutex body ((hplace m hkm).trans pc) command
          hfree⟩ (disabled m hkm)

/-- A run that is fair to its threads and does not starve `main` ends. -/
theorem not_fair (start : Reached cfg (r.state 0)) (fair : ∀ i, r.WeaklyFair fun t => t = some i)
    (strong : r.StronglyFair fun t => t = none) : False := by
  have weak : ∀ t, r.WeaklyFair fun u => u = t := by
    intro t
    cases t with
    | none => exact strong.weaklyFair
    | some i => exact fair i
  -- the steps of `main` are few, so from some time on it takes none and can take none
  obtain ⟨c, hrelated, -⟩ := start.atomic
  obtain ⟨quiet, -, hquiet⟩ := quiet_of_pays (readsSafely_program cfg) (closing_program cfg)
    (pays_mainBehind cfg) r ⟨start.closed, c, hrelated, trivial, le_refl _⟩
  have kept : ∀ m, quiet ≤ m → r.label m ≠ none := by simpa using hquiet
  obtain ⟨k, hle, hdisabled⟩ := strong.disabled kept
  obtain ⟨threads, hjoins⟩ := joining_of_kept r weak start
    (fun m hm => kept m (hle.trans hm)) hdisabled
  -- there it joins its threads, and every step is paid for
  have hreached : Reached cfg (r.state k) := r.invariant reached_step (Nat.zero_le k) start
  obtain ⟨c, hrelated, hphase⟩ := hreached.atomic
  have hlocal := hrelated.tracks none
  rw [hjoins] at hlocal
  have hmain : c.locals none = .joining threads := hlocal
  rw [hmain] at hphase
  exact not_of_pays (readsSafely_program cfg) (closing_program cfg) (pays_stepsBehind cfg) r
    ⟨hreached.closed, c, hrelated, ⟨hphase.2, threads, hmain, hphase.1⟩, le_refl _⟩

end Fair

/-- The scan ends.  No infinite run of the process with its mutexes is fair to every thread and does
not starve `main`, that is, lets it go on where it can do so again and again: a mutex that is free
again and again while `main` waits for it is handed to it.  A run that can go no further has
returned. -/
theorem lockedScan_ends (cfg : Config) (entries : List (Traversed FileEntry)) :
    (∀ r : InfiniteRun (Step (program (n := n) cfg)), r.state 0 = (start entries).start →
      (∀ i, r.WeaklyFair fun t => t = some i) → ¬ r.StronglyFair fun t => t = none) ∧
    ∀ (labels : List (Option (Fin n))) (s : Interleaved (Option (Fin n)) Guarded (Point n)),
      Process cfg entries labels s → (∀ t s', ¬ Step (program cfg) s t s') → Returned s := by
  constructor
  · intro r hstart fair strong
    exact not_fair r (hstart ▸ reached_start cfg entries) fair strong
  · intro labels s run stuck
    exact returned_of_stuck run stuck

/-- The sections on the queue: `file_entry_next`, and the append of `main`. -/
theorem queue_section {t : Option (Fin n)} {p : Point n} {body : List (Access n .queue)}
    (command : program cfg t p = .critical .queue body) :
    body = fileEntryNext ∨ ∃ op, body = [op] := by
  cases t with
  | none =>
      cases p with
      | appending fe rest =>
          cases command
          exact .inr ⟨_, rfl⟩
      | reading rest =>
          rcases rest with _ | ⟨_ | fe, rest⟩ <;>
            simp only [program, mainNext, progressLock] at command
          · cases command
          all_goals split at command <;> cases command
      | joining threads => cases threads <;> cases command
      | _ => cases command
  | some i =>
      cases p with
      | popping =>
          cases command
          exact .inl rfl
      | visiting fe =>
          simp only [program, threadNext, progressLock] at command
          split at command
          · split at command <;> cases command
          · cases command
      | recorded old fm =>
          simp only [program, threadNext] at command
          split at command <;> cases command
      | reporting old fm =>
          simp only [program, threadNext, progressLock] at command
          split at command
          · split at command <;> cases command
          · cases command
      | completing =>
          simp only [program, threadNext, progressLock] at command
          split at command <;> cases command
      | _ => cases command

/-- Only the last access of such a section changes the queue. -/
theorem changesLast_queue (cfg : Config) : ChangesLast (program (n := n) cfg) .queue := by
  intro t p before rest command hrest x
  have hne : rest ≠ [] := by
    rintro rfl
    simp [Op.accesses] at hrest
  cases before with
  | nil => rfl
  | cons first before =>
      rcases queue_section command with hbody | ⟨op, hbody⟩
      · obtain ⟨rfl, hlast⟩ := List.cons.inj hbody
        have hnil : before = [] := by
          rcases List.append_eq_singleton_iff.mp hlast with ⟨hnil, -⟩ | ⟨-, hnil⟩
          · exact hnil
          · exact absurd hnil hne
        subst hnil
        rcases x with ⟨_ | ⟨fe, queue⟩, p⟩ <;> rfl
      · exact absurd (List.append_eq_nil_iff.mp (List.cons.inj hbody).2).2 hne

/-- Once `done` is set, no scheduler keeps the process from its return: of all its steps, the
accesses in the sections, the mutexes taken and released, the joins, at most 27 are left for each
file in the queue, 32 for each thread, and one. -/
theorem shutdown_bounded (cfg : Config) (entries : List (Traversed FileEntry))
    (labels after : List (Option (Fin n)))
    (s t : Interleaved (Option (Fin n)) Guarded (Point n)) (run : Process cfg entries labels s)
    (hdone : s.shared .done = true) (rest : Run (Step (program cfg)) s after t) :
    after.length ≤ 27 * (s.shared .queue).length + 32 * n + 1 := by
  have hreached : Reached cfg s := run.invariant reached_step (reached_start cfg entries)
  obtain ⟨c, hrelated, hphase⟩ := hreached.atomic
  have hqueue : c.shared .queue = s.shared .queue := hrelated.synced (changesLast_queue cfg)
  have hjoining : Joining c := by
    apply hphase.joining
    rw [hrelated.synced (changesLast_done cfg), hdone]
  have hlength := length_le_of_pays (readsSafely_program cfg) (closing_program cfg)
    (pays_stepsBehind cfg) rest ⟨hreached.closed, c, hrelated, hjoining, le_refl _⟩
  have hleft := left_le_cost hrelated hreached.closed
  have hmain : (s.places none).left (program cfg) none + mainBehind (c.locals none) ≤ n + 1 := by
    obtain ⟨-, threads, hmain, hthreads⟩ := hjoining
    have hleft := hleft none
    have hcost := cost_joining cfg threads
    rw [hmain] at hleft ⊢
    simp only [program, mainBehind] at hleft ⊢
    omega
  have hthreads : ∑ i : Fin n, ((s.places (some i)).left (program cfg) (some i) +
      behind (c.locals (some i))) ≤ 31 * n := by
    have hsum := Finset.sum_le_card_nsmul (Finset.univ : Finset (Fin n))
      (fun i => (s.places (some i)).left (program cfg) (some i) + behind (c.locals (some i))) 31
      fun i _ => by
        have hleft := hleft (some i)
        have hcost := cost_threadNext_le cfg (c.locals (some i))
        have hall := ahead_behind_le (c.locals (some i))
        simp only [program] at hleft
        omega
    simpa [mul_comm] using hsum
  rw [Finset.sum_add_distrib] at hthreads
  rw [Fintype.sum_option, stepsBehind, hqueue] at hlength
  omega

/-- Two equal files that are still queued when `done` is set, in a verbose run. -/
theorem shutdown_bounded_loud :
    ∃ (after : List (Option (Fin 1))) (s t : Interleaved (Option (Fin 1)) Guarded (Point 1)),
      Run (Step (program loud)) s after t ∧ Returned t ∧
        after.length ≤ 27 * (s.shared .queue).length + 32 * 1 + 1 := by
  obtain ⟨before, after, s, t, run, hdone, rest, returned⟩ := exists_returned
  exact ⟨after, s, t, rest, returned,
    shutdown_bounded loud twoEntries before after s t run hdone rest⟩

end Dedup.LockedScan
