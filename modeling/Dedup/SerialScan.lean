/-
Module: Dedup.SerialScan
Purpose: The scan without threads.  `main` calls `dedup_work` after every append, and the call
  leaves its loop after one file, so it always finds the queue with that one file and never polls:
  the files are visited in the order of the traversal, none is lost, and the number of steps is
  fixed by the traversal.
Imports: Dedup.ProgressBar
Trusted boundary: human-reviewed spec of the sections as atomic steps
Main exports: SerialAt, serialInvariant_step, SerialInvariant.visited_first, serialRank,
  serialScan_visits_all
-/
import Dedup.ProgressBar

namespace Dedup.WorkQueue

variable {α : Type}

/-! ### Where the files are -/

/-- Where the files are while the call of `dedup_work` is at a point: behind the visited ones comes
the one the call is about, in the queue or in its hand, and then the ones to be appended. -/
def SerialAt (entries : List (Traversed α)) (s : State α 1) : WorkerPc α → Prop
  | .starting | .popping =>
      s.done = false ∧ ∃ entry, s.queue = [entry] ∧
        s.visited ++ entry :: pending s.main = eligible entries
  | .visiting entry =>
      s.done = false ∧ s.queue = [] ∧ s.visited ++ entry :: pending s.main = eligible entries
  | .completing | .returned => s.queue = [] ∧ s.visited ++ pending s.main = eligible entries
  | .checking => False

/-- The files are where the point of the call says, and `done` is set after the traversal only. -/
structure SerialInvariant (entries : List (Traversed α)) (s : State α 1) : Prop where
  place : SerialAt entries s (s.workers 0)
  done_iff : s.done = true ↔ s.main = .joining

theorem serialInvariant_init (entries : List (Traversed α)) (progress : Option Progress) :
    SerialInvariant entries (serialInit entries progress) where
  place := by simp [serialInit, SerialAt, State.init, pending]
  done_iff := by simp [serialInit, State.init]

/-- The one worker after it moved. -/
theorem setWorker_workers (s : State α 1) (pc : WorkerPc α) :
    (s.setWorker 0 pc).workers 0 = pc := by
  simp [State.setWorker]

/-- Every step keeps the files in place. -/
theorem serialInvariant_step {entries : List (Traversed α)} {s s' : State α 1} {label : Label 1}
    (hstep : SerialStep s label s') (h : SerialInvariant entries s) :
    SerialInvariant entries s' := by
  obtain ⟨hplace, hdone⟩ := h
  cases hstep with
  | main hstep hlabel outside =>
      rw [outside] at hplace
      cases hstep with
      | readFailed rest pc =>
          refine ⟨?_, by simpa [pc] using hdone⟩
          simpa [outside, SerialAt, pc, pending, eligible] using hplace
      | count entry rest pc =>
          refine ⟨?_, by simpa [pc] using hdone⟩
          simpa [outside, SerialAt, pc, pending, eligible] using hplace
      | finish pc =>
          refine ⟨?_, by simp⟩
          simpa [outside, SerialAt, pc, pending, eligible] using hplace
      | _ => simp at hlabel
  | append hstep outside =>
      rw [outside] at hplace
      cases hstep with
      | append entry rest pc =>
          have hnot : s.done = false := by simpa [pc] using hdone
          refine ⟨?_, by simp [hnot]⟩
          rw [setWorker_workers]
          simpa [SerialAt, hnot, hplace.1, pc, pending] using hplace.2
  | work hstep hlabel =>
      cases hstep with
      | enter i pc =>
          obtain rfl := Subsingleton.elim i 0
          rw [pc] at hplace
          refine ⟨?_, hdone⟩
          rw [setWorker_workers, hplace.1]
          exact hplace
      | popEmpty i pc empty =>
          obtain rfl := Subsingleton.elim i 0
          rw [pc] at hplace
          obtain ⟨-, entry, hqueue, -⟩ := hplace
          simp [empty] at hqueue
      | pop i entry rest pc front =>
          obtain rfl := Subsingleton.elim i 0
          rw [pc] at hplace
          obtain ⟨hnot, entry', hqueue, hfiles⟩ := hplace
          obtain ⟨rfl, rfl⟩ : entry = entry' ∧ rest = [] := by simpa [front] using hqueue
          exact ⟨by simpa [State.setWorker, SerialAt] using ⟨hnot, hfiles⟩, hdone⟩
      | check i pc =>
          obtain rfl := Subsingleton.elim i 0
          rw [pc] at hplace
          exact hplace.elim
      | visit i entry pc =>
          obtain rfl := Subsingleton.elim i 0
          rw [pc] at hplace
          obtain ⟨-, hqueue, hfiles⟩ := hplace
          exact ⟨by simpa [State.setWorker, SerialAt, hqueue] using hfiles, hdone⟩
      | _ => simp at hlabel
  | complete hstep =>
      cases hstep with
      | complete i pc =>
          rw [pc] at hplace
          exact ⟨by simpa [State.setWorker, SerialAt] using hplace, hdone⟩

/-- The visited files are the first eligible ones. -/
theorem SerialInvariant.visited_first {entries : List (Traversed α)} {s : State α 1}
    (h : SerialInvariant entries s) : s.visited <+: eligible entries := by
  have hplace := h.place
  cases hpc : s.workers 0 with
  | starting | popping =>
      rw [hpc] at hplace
      obtain ⟨-, entry, -, hfiles⟩ := hplace
      exact ⟨_, hfiles⟩
  | visiting entry =>
      rw [hpc] at hplace
      exact ⟨_, hplace.2.2⟩
  | completing | returned =>
      rw [hpc] at hplace
      exact ⟨_, hplace.2⟩
  | checking =>
      rw [hpc] at hplace
      exact hplace.elim

/-! ### How far the scan is -/

/-- The steps of the entries of a traversal: one for a failure, and six for a file. -/
def serialSteps : List (Traversed α) → Nat
  | [] => 0
  | .failed :: rest => serialSteps rest + 1
  | .eligible _ :: rest => serialSteps rest + 6

/-- The steps that `main` has still to take, with those of its calls. -/
def mainLeft : MainPc α → Nat
  | .reading rest => serialSteps rest + 1
  | .appending _ rest => serialSteps rest + 6
  | .joining => 0

/-- The steps that are left of a call. -/
def callLeft : WorkerPc α → Nat
  | .starting => 4
  | .popping => 3
  | .visiting _ => 2
  | .completing => 1
  | .checking | .returned => 0

/-- The steps that are left: those of `main`, and those of the call it is in. -/
def serialRank (s : State α 1) : Nat :=
  mainLeft s.main + ∑ i, callLeft (s.workers i)

/-- Every step is one of those that were left. -/
theorem serialRank_step {entries : List (Traversed α)} {s s' : State α 1} {label : Label 1}
    (hstep : SerialStep s label s') (h : SerialInvariant entries s) :
    serialRank s' + 1 = serialRank s := by
  have hplace := h.place
  cases hstep with
  | main hstep hlabel outside =>
      cases hstep with
      | readFailed rest pc => simp [serialRank, mainLeft, callLeft, serialSteps, outside, pc]
      | count entry rest pc => simp [serialRank, mainLeft, callLeft, serialSteps, outside, pc]
      | finish pc => simp [serialRank, mainLeft, callLeft, serialSteps, outside, pc]
      | _ => simp at hlabel
  | append hstep outside =>
      cases hstep with
      | append entry rest pc => simp [serialRank, mainLeft, callLeft, outside, pc, State.setWorker]
  | work hstep hlabel =>
      cases hstep with
      | enter i pc =>
          obtain rfl := Subsingleton.elim i 0
          rw [pc] at hplace
          simp [serialRank, callLeft, State.setWorker, pc, hplace.1]
      | popEmpty i pc empty =>
          obtain rfl := Subsingleton.elim i 0
          rw [pc] at hplace
          obtain ⟨-, entry, hqueue, -⟩ := hplace
          simp [empty] at hqueue
      | pop i entry rest pc front =>
          obtain rfl := Subsingleton.elim i 0
          simp [serialRank, callLeft, State.setWorker, pc]
      | check i pc =>
          obtain rfl := Subsingleton.elim i 0
          rw [pc] at hplace
          exact hplace.elim
      | visit i entry pc =>
          obtain rfl := Subsingleton.elim i 0
          simp [serialRank, callLeft, State.setWorker, pc]
      | _ => simp at hlabel
  | complete hstep =>
      cases hstep with
      | complete i pc => simp [serialRank, callLeft, State.setWorker, pc]

/-- A scan that can take no further step has set `done`, outside of the call. -/
theorem serial_finished {entries : List (Traversed α)} {s : State α 1}
    (h : SerialInvariant entries s) (stuck : ∀ label s', ¬ SerialStep s label s') :
    s.main = .joining ∧ s.workers 0 = .returned := by
  have hplace := h.place
  cases hpc : s.workers 0 with
  | starting => exact absurd (.work (.enter s 0 hpc) (by simp)) (stuck _ _)
  | popping =>
      rw [hpc] at hplace
      obtain ⟨-, entry, hqueue, -⟩ := hplace
      exact absurd (.work (.pop s 0 entry [] hpc hqueue) (by simp)) (stuck _ _)
  | checking =>
      rw [hpc] at hplace
      exact hplace.elim
  | visiting entry => exact absurd (.work (.visit s 0 entry hpc) (by simp)) (stuck _ _)
  | completing => exact absurd (.complete (.complete s 0 hpc)) (stuck _ _)
  | returned =>
      refine ⟨?_, rfl⟩
      cases hmain : s.main with
      | joining => rfl
      | appending entry rest =>
          exact absurd (.append (.append s entry rest hmain) hpc) (stuck _ _)
      | reading rest =>
          cases rest with
          | nil => exact absurd (.main (.finish s hmain) (by simp) hpc) (stuck _ _)
          | cons first rest =>
              cases first with
              | failed =>
                  exact absurd (.main (.readFailed s rest hmain) (by simp) hpc) (stuck _ _)
              | eligible entry =>
                  exact absurd (.main (.count s entry rest hmain) (by simp) hpc) (stuck _ _)

/-- What is left of a run, step by step. -/
theorem serialRank_run {entries : List (Traversed α)} {s t : State α 1} {labels : List (Label 1)}
    (run : Run SerialStep s labels t) (h : SerialInvariant entries s) :
    SerialInvariant entries t ∧ labels.length + serialRank t = serialRank s := by
  induction run with
  | nil => exact ⟨h, by simp⟩
  | cons hstep _ ih =>
      obtain ⟨hend, hlength⟩ := ih (serialInvariant_step hstep h)
      have hrank := serialRank_step hstep h
      refine ⟨hend, ?_⟩
      simp only [List.length_cons]
      omega

/-- A scan without threads loses no file: in every run the visited files are the first eligible
ones, in the order of the traversal, and a run that can take no further step has taken exactly one
for each failure, six for each file and one to set `done`, and has visited every eligible file. -/
theorem serialScan_visits_all (entries : List (Traversed α)) (progress : Option Progress)
    (s : State α 1) (labels : List (Label 1))
    (run : Run SerialStep (serialInit entries progress) labels s) :
    s.visited <+: eligible entries ∧ labels.length ≤ serialSteps entries + 1 ∧
      ((∀ label s', ¬ SerialStep s label s') → s.done = true ∧ s.queue = [] ∧
        s.visited = eligible entries ∧ labels.length = serialSteps entries + 1) := by
  obtain ⟨h, hlength⟩ := serialRank_run run (serialInvariant_init entries progress)
  have hinit : serialRank (serialInit entries progress) = serialSteps entries + 1 := by
    simp [serialRank, mainLeft, callLeft, serialInit, State.init]
  refine ⟨h.visited_first, by omega, fun stuck => ?_⟩
  obtain ⟨hmain, hreturned⟩ := serial_finished h stuck
  obtain ⟨hqueue, hfiles⟩ : s.queue = [] ∧ s.visited ++ pending s.main = eligible entries := by
    have hplace := h.place
    rwa [hreturned] at hplace
  have hzero : serialRank s = 0 := by simp [serialRank, mainLeft, callLeft, hmain, hreturned]
  refine ⟨h.done_iff.mpr hmain, hqueue, ?_, by omega⟩
  simpa [hmain, pending] using hfiles

/-- A failure and a file. -/
theorem serialScan_visits_all_oneFile :
    ∃ s : State Nat 1, s.visited <+: eligible [.failed, .eligible 7] ∧
      [Label.readFailed, .count, .append, .enter (0 : Fin 1), .pop 0, .visit 0, .complete 0,
        .finish].length ≤ serialSteps [(.failed : Traversed Nat), .eligible 7] + 1 ∧
      ((∀ label s', ¬ SerialStep s label s') → s.done = true ∧ s.queue = [] ∧
        s.visited = eligible [.failed, .eligible 7] ∧
        [Label.readFailed, .count, .append, .enter (0 : Fin 1), .pop 0, .visit 0, .complete 0,
          .finish].length = serialSteps [(.failed : Traversed Nat), .eligible 7] + 1) := by
  obtain ⟨s, run⟩ : ∃ s : State Nat 1,
      Run SerialStep (serialInit [.failed, .eligible 7] none)
        [.readFailed, .count, .append, .enter 0, .pop 0, .visit 0, .complete 0, .finish] s :=
    ⟨_, .cons (.main (.readFailed _ _ rfl) (by simp) rfl)
      (.cons (.main (.count _ _ _ rfl) (by simp) rfl) (.cons (.append (.append _ _ _ rfl) rfl)
      (.cons (.work (.enter _ 0 rfl) (by simp)) (.cons (.work (.pop _ 0 7 [] rfl rfl) (by simp))
      (.cons (.work (.visit _ 0 7 rfl) (by simp)) (.cons (.complete (.complete _ 0 rfl))
      (.cons (.main (.finish _ rfl) (by simp) rfl) (.nil _))))))))⟩
  exact ⟨s, serialScan_visits_all _ none s _ run⟩

end Dedup.WorkQueue
