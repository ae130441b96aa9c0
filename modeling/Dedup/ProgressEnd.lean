/-
Module: Dedup.ProgressEnd
Purpose: The progress bar over a whole threaded scan: the counters displayed never go back, and
  when the threads have returned the total is the number of eligible files and what the completed
  count lacks to it are the files left in the queue.
Imports: Dedup.ProgressBar, Dedup.ThreadedScan
Trusted boundary: the counters stay below `2 ^ 64`
Main exports: Progress.Le, Forward, forward_step, uncounted, counted_step, progress_at_end
-/
import Dedup.ProgressBar
import Dedup.ThreadedScan

namespace Dedup.WorkQueue

/-- Neither counter goes back from `p` to `q`. -/
structure Progress.Le (p q : Progress) : Prop where
  total : p.totalUnitCount ≤ q.totalUnitCount
  completed : p.completedUnitCount ≤ q.completedUnitCount

section Machine

variable {α : Type} {n : Nat}

/-! ### The counters go forward -/

/-- The counters displayed so far go forward, up to the ones the bar stands at. -/
def Forward (s : State α n) : Prop :=
  (s.displayed ++ s.progress.toList).Pairwise Progress.Le

/-- A bar that is displayed goes on from where it stood. -/
theorem forward_of_display {s s' : State α n} (h : Forward s) (update : Progress → Progress)
    (hupdate : ∀ p, Progress.Le p (update p)) (progress : s'.progress = s.progress.map update)
    (displayed : s'.displayed = s.displayed ++ s'.progress.toList) : Forward s' := by
  unfold Forward at h ⊢
  rw [displayed, progress]
  cases hp : s.progress with
  | none => simpa [hp] using h
  | some p =>
      simp only [hp, Option.toList_some, Option.map_some] at h ⊢
      have hlater : ∀ q ∈ s.displayed, Progress.Le q (update p) := by
        intro q hq
        have hqp := (List.pairwise_append.mp h).2.2 q hq p (by simp)
        exact ⟨hqp.total.trans (hupdate p).total, hqp.completed.trans (hupdate p).completed⟩
      have hbefore := (List.pairwise_append.mp h).1
      simp only [List.append_assoc, List.pairwise_append, List.mem_singleton, List.mem_append]
      refine ⟨hbefore, ⟨by simp, by simp, ?_⟩, ?_⟩
      · rintro _ rfl _ rfl
        exact ⟨le_refl _, le_refl _⟩
      · rintro q hq _ (rfl | rfl)
        · exact hlater q hq
        · exact hlater q hq

/-- Every step keeps the counters going forward. -/
theorem forward_step {s s' : State α n} (hstep : BarStep s s') (h : Forward s) : Forward s' := by
  cases hstep with
  | quiet progress displayed balance next =>
      unfold Forward
      rw [progress, displayed]
      exact h
  | failed progress displayed balance reported =>
      exact forward_of_display h id (fun p => ⟨le_refl _, le_refl _⟩)
        (by simpa using progress) displayed
  | counted progress displayed balance =>
      refine forward_of_display h _ (fun p => ?_) progress displayed
      exact ⟨Nat.le_succ _, le_refl _⟩
  | completed progress displayed balance =>
      refine forward_of_display h _ (fun p => ?_) progress displayed
      exact ⟨le_refl _, Nat.le_succ _⟩

/-! ### The total -/

/-- The files that `main` has still to count. -/
def uncounted : MainPc α → Nat
  | .reading rest => (eligible rest).length
  | .appending _ rest => (eligible rest).length
  | .joining => 0

/-- The total and the files that are still to be counted are the eligible files. -/
def Counted (files : Nat) (s : State α n) : Prop :=
  ∀ p, s.progress = some p → p.totalUnitCount + uncounted s.main = files

/-- Every step keeps the total and the files to be counted. -/
theorem counted_step {files : Nat} {s s' : State α n} {label : Label n}
    (hstep : Step s label s') (h : Counted files s) : Counted files s' := by
  unfold Counted at h ⊢
  cases hstep with
  | readFailed rest pc => simpa [State.display, uncounted, pc, eligible] using h
  | count entry rest pc =>
      intro p hp
      simp only [State.display, Option.map_eq_some_iff] at hp
      obtain ⟨before, hbefore, rfl⟩ := hp
      have htotal := h before hbefore
      simp only [uncounted, pc, eligible, List.length_cons] at htotal ⊢
      omega
  | append entry rest pc => simpa [uncounted, pc] using h
  | finish pc => simpa [uncounted, pc, eligible] using h
  | complete i pc =>
      intro p hp
      simp only [State.display, State.setWorker, Option.map_eq_some_iff] at hp
      obtain ⟨before, hbefore, rfl⟩ := hp
      exact h before hbefore
  | _ => exact h

/-- The completed count and the backlog are the total. -/
def Balanced (s : State α n) : Prop :=
  ∀ p, s.progress = some p → p.completedUnitCount + backlog s = p.totalUnitCount

/-- Every step keeps the balance, with a failure at the start of the traversal too. -/
theorem balanced_step {s s' : State α n} (hstep : BarStep s s') (h : Balanced s) :
    Balanced s' := by
  unfold Balanced at h ⊢
  cases hstep with
  | quiet progress displayed balance next => rwa [progress, balance]
  | failed progress displayed balance reported => rwa [progress, balance]
  | counted progress displayed balance =>
      intro p hp
      rw [progress, Option.map_eq_some_iff] at hp
      obtain ⟨before, hbefore, rfl⟩ := hp
      have hbalance := h before hbefore
      dsimp only
      omega
  | completed progress displayed balance =>
      intro p hp
      rw [progress, Option.map_eq_some_iff] at hp
      obtain ⟨before, hbefore, rfl⟩ := hp
      have hbalance := h before hbefore
      dsimp only
      omega

/-- Some bar is shown at the end where one was shown at the start. -/
theorem shown_step {s s' : State α n} (hstep : BarStep s s') (h : s.progress.isSome) :
    s'.progress.isSome := by
  cases hstep with
  | quiet progress | failed progress => rwa [progress]
  | counted progress | completed progress => simpa [progress] using h

/-- Where every worker has returned after `done`, the backlog is the queue. -/
theorem backlog_returned {s : State α n} (hmain : s.main = .joining)
    (returned : ∀ i, s.workers i = .returned) : backlog s = s.queue.length := by
  simp [backlog, hmain, returned, unappended, unfinished]

/-- The bar of the work queue at the end of a scan. -/
theorem bar_at_end {entries : List (Traversed α)} {s : State α n} {labels : List (Label n)}
    (run : Run Step (State.init entries (some ⟨0, 0⟩)) labels s) (hdone : s.done = true)
    (returned : ∀ i, s.workers i = .returned) :
    ∃ p, s.progress = some p ∧ p.totalUnitCount = (eligible entries).length ∧
      p.completedUnitCount + s.queue.length = p.totalUnitCount ∧
      (s.displayed ++ [p]).Pairwise Progress.Le := by
  have hmain : s.main = .joining :=
    run.invariant (I := fun u => u.done = true → u.main = .joining)
      (fun _ _ _ hstep h => done_step hstep h) (by simp [State.init]) hdone
  have hshown : s.progress.isSome :=
    run.invariant (I := fun u => u.progress.isSome)
      (fun _ _ _ hstep => shown_step (barStep_of_step hstep)) rfl
  have hcounted : Counted (eligible entries).length s :=
    run.invariant (fun _ _ _ => counted_step)
      (by simp [Counted, State.init, uncounted])
  have hforward : Forward s :=
    run.invariant (fun _ _ _ hstep => forward_step (barStep_of_step hstep))
      (by simp [Forward, State.init])
  have hbalanced : Balanced s :=
    run.invariant (fun _ _ _ hstep => balanced_step (barStep_of_step hstep))
      (by simp [Balanced, State.init, backlog, unappended, unfinished])
  obtain ⟨p, hp⟩ := Option.isSome_iff_exists.mp hshown
  refine ⟨p, hp, ?_, ?_, ?_⟩
  · have htotal := hcounted p hp
    simpa [hmain, uncounted] using htotal
  · have hbalance := hbalanced p hp
    rwa [backlog_returned hmain returned] at hbalance
  · simpa [Forward, hp] using hforward

end Machine

end Dedup.WorkQueue

namespace Dedup.ThreadedScan

open WorkQueue (Traversed eligible Progress)

/-- The progress bar at the end of a threaded scan.  Its total is the number of eligible files, the
completed files and those left in the queue make it up, and the counters displayed on the way, the
last ones included, never went back; so the bar ends at `N` of `N` exactly where no file was
lost. -/
theorem progress_at_end {n : Nat} (env : ScanEnv) (entries : List (Traversed FileEntry))
    (s : State n) (labels : List (Label n))
    (run : Run (Step env) (State.init entries (some ⟨0, 0⟩)) labels s) (hdone : s.done = true)
    (returned : ∀ i, s.threads i = .returned) :
    ∃ p : Progress, s.progress = some p ∧ p.totalUnitCount = (eligible entries).length ∧
      p.completedUnitCount + s.queue.length = p.totalUnitCount ∧
      (s.displayed ++ [p]).Pairwise Progress.Le := by
  obtain ⟨w, qrun, visited, rfl⟩ := (queueSimulation env).run run ⟨[], rfl⟩
  refine WorkQueue.bar_at_end qrun hdone fun i => ?_
  simp [State.queueView, returned i, ThreadPc.worker]

/-- A thread that reads `done` before it pops leaves the bar at `0` of `1`. -/
theorem progress_at_end_lostFile :
    ∃ (s : State 1) (p : Progress), s.progress = some p ∧
      p.totalUnitCount = (eligible [.eligible (oneByteFile 1 ['a'])]).length ∧
      p.completedUnitCount + s.queue.length = p.totalUnitCount ∧
      (s.displayed ++ [p]).Pairwise Progress.Le := by
  obtain ⟨s, run, hdone, returned⟩ : ∃ s : State 1,
      Run (Step oneByteEnv) (State.init [.eligible (oneByteFile 1 ['a'])] (some ⟨0, 0⟩))
        [.count, .append, .finish, .enter 0] s ∧ s.done = true ∧
      ∀ i, s.threads i = .returned := by
    refine ⟨_, .cons (.count _ _ _ rfl) (.cons (.append _ _ _ rfl) (.cons (.finish _ rfl)
      (.cons (.enter _ 0 rfl) (.nil _)))), rfl, fun i => ?_⟩
    rw [Subsingleton.elim i 0]
    rfl
  exact ⟨s, progress_at_end oneByteEnv _ s _ run hdone returned⟩

end Dedup.ThreadedScan
