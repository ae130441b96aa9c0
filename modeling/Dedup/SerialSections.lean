/-
Module: Dedup.SerialSections
Purpose: The scan without threads, section by section.  `main` calls `dedup_work` after every
  append, and the call leaves its loop after one file.  With a visit as one step this is the serial
  machine of the work queue, and between two calls the context is that of `visit_entry` on the
  visited files, one after the other.
Imports: Dedup.SerialScan, Dedup.ThreadedScan
Trusted boundary: human-reviewed spec of the sections as atomic steps
Main exports: SerialStep, State.serialInit, serialSimulation, CallContext, callContext_step,
  SerialRepresents, serialRepresents_step, SerialRepresents.returned
-/
import Dedup.SerialScan
import Dedup.ThreadedScan

namespace Dedup.ThreadedScan

open WorkQueue (Traversed eligible pending Progress SerialInvariant)

/-! ### The machine -/

/-- The sections with `thread_count == 0`.  The one thread of the state is `main`'s own call of
`dedup_work`: `main` is in its loop where that call has returned, and an append enters it. -/
inductive SerialStep (env : ScanEnv) : State 1 → Label 1 → State 1 → Prop where
  /-- A section of `main` other than an append. -/
  | main {s s' : State 1} {label : Label 1} (hstep : Step env s label s')
      (hlabel : label = .readFailed ∨ label = .count ∨ label = .finish)
      (outside : s.threads 0 = .returned) : SerialStep env s label s'
  /-- `main` appends a file and calls `dedup_work`. -/
  | append {s s' : State 1} (hstep : Step env s .append s') (outside : s.threads 0 = .returned) :
      SerialStep env s .append (s'.setThread 0 .starting)
  /-- A section of the call before the last one. -/
  | work {s s' : State 1} {label : Label 1} (hstep : Step env s label s')
      (hlabel : label = .enter 0 ∨ label = .popEmpty 0 ∨ label = .pop 0 ∨ label = .check 0 ∨
        label = .skip 0 ∨ label = .insert 0 ∨ label = .record 0 ∨ label = .found 0) :
      SerialStep env s label s'
  /-- The progress section, after which the call leaves its loop. -/
  | complete {s s' : State 1} (hstep : Step env s (.complete 0) s') :
      SerialStep env s (.complete 0) (s'.setThread 0 .returned)

/-- `main` at the start of a traversal without threads. -/
def State.serialInit (entries : List (Traversed FileEntry)) (progress : Option Progress) :
    State 1 :=
  { (State.init entries progress : State 1) with threads := fun _ => .returned }

/-! ### The serial work queue -/

theorem outside_queueView {s : State 1} (visited : List FileEntry)
    (outside : s.threads 0 = .returned) : (s.queueView visited).workers 0 = .returned := by
  simp [State.queueView, outside, ThreadPc.worker]

/-- Every section is a step of the serial work queue, or none. -/
theorem serialSimulation {env : ScanEnv} {s s' : State 1} {label : Label 1}
    (visited : List FileEntry) (hstep : SerialStep env s label s') :
    Run WorkQueue.SerialStep (s.queueView visited) (queueLabels label)
      (s'.queueView (visited ++ seen s label)) := by
  cases hstep with
  | main hstep hlabel outside =>
      have hqueue := queueView_step visited hstep
      have houtside := outside_queueView visited outside
      rcases hlabel with rfl | rfl | rfl
      · exact .cons (.main hqueue.of_single (.inl rfl) houtside) (.nil _)
      · exact .cons (.main hqueue.of_single (.inr (.inl rfl)) houtside) (.nil _)
      · exact .cons (.main hqueue.of_single (.inr (.inr rfl)) houtside) (.nil _)
  | append hstep outside =>
      rw [queueView_setThread]
      exact .cons (.append (queueView_step visited hstep).of_single
        (outside_queueView visited outside)) (.nil _)
  | work hstep hlabel =>
      have hqueue := queueView_step visited hstep
      rcases hlabel with rfl | rfl | rfl | rfl | rfl | rfl | rfl | rfl
      · exact .cons (.work hqueue.of_single (by simp)) (.nil _)
      · exact .cons (.work hqueue.of_single (by simp)) (.nil _)
      · exact .cons (.work hqueue.of_single (by simp)) (.nil _)
      · exact .cons (.work hqueue.of_single (by simp)) (.nil _)
      · exact .cons (.work hqueue.of_single (by simp)) (.nil _)
      · exact .cons (.work hqueue.of_single (by simp)) (.nil _)
      · exact hqueue.eq_of_nil ▸ .nil _
      · exact hqueue.eq_of_nil ▸ .nil _
  | complete hstep =>
      rw [queueView_setThread]
      exact .cons (.complete (queueView_step visited hstep).of_single) (.nil _)

/-! ### The context -/

/-- The context in the middle of a call: what is still to be done for the file makes it that of the
visits so far. -/
def CallContext (env : ScanEnv) (order : List FileEntry) (ctx : ScanContext) : ThreadPc → Prop
  | .matched old fm =>
      { ctx with
        duplicates := recordDuplicate ctx.duplicates old fm
        found := countFound ctx.found old fm } = visitAll env order
  | .recorded old fm => { ctx with found := countFound ctx.found old fm } = visitAll env order
  | _ => ctx = visitAll env order

theorem visitAll_append_singleton (env : ScanEnv) (order : List FileEntry) (fe : FileEntry) :
    visitAll env (order ++ [fe]) = visitEntry env (visitAll env order) fe := by
  simp [visitAll, List.foldl_append]

theorem setThread_threads (s : State 1) (pc : ThreadPc) : (s.setThread 0 pc).threads 0 = pc := by
  simp [State.setThread]

/-- Every section keeps the context what the visits make it. -/
theorem callContext_step {env : ScanEnv} {s s' : State 1} {label : Label 1}
    {order : List FileEntry} (hstep : Step env s label s')
    (h : CallContext env order s.ctx (s.threads 0)) :
    CallContext env (order ++ seen s label) s'.ctx (s'.threads 0) := by
  cases hstep with
  | readFailed rest pc | count fe rest pc | append fe rest pc | finish pc =>
      rw [append_seen order rfl]
      exact h
  | enter i pc | check i pc =>
      obtain rfl := Subsingleton.elim i 0
      rw [pc] at h
      rw [append_seen order rfl, setThread_threads]
      split
      · exact h
      · exact h
  | popEmpty i pc empty =>
      obtain rfl := Subsingleton.elim i 0
      rw [pc] at h
      rw [append_seen order rfl, setThread_threads]
      exact h
  | pop i fe rest pc front =>
      obtain rfl := Subsingleton.elim i 0
      rw [pc] at h
      rw [append_seen order rfl]
      change CallContext env order s.ctx ((s.setThread 0 (.visiting fe)).threads 0)
      rw [setThread_threads]
      exact h
  | skip i fe pc unreadable =>
      obtain rfl := Subsingleton.elim i 0
      rw [pc] at h
      have hseen : seen s (.skip 0) = [fe] := by simp only [seen, pc]
      rw [hseen, setThread_threads]
      change s.ctx = visitAll env (order ++ [fe])
      rw [visitAll_append_singleton, ← show s.ctx = visitAll env order from h, visitEntry,
        unreadable]
  | insert i fe fm pc readable =>
      obtain rfl := Subsingleton.elim i 0
      rw [pc] at h
      have hseen : seen s (.insert 0) = [fe] := by simp only [seen, pc]
      have hvisit : visitAll env (order ++ [fe]) = visitEntry env s.ctx fe := by
        rw [visitAll_append_singleton, ← show s.ctx = visitAll env order from h]
      simp only [visitEntry, readable] at hvisit
      rw [hseen]
      change CallContext env _ { s.ctx with visited := (visitedTreeInsert env s.ctx.visited fm).1 }
        ((s.setThread 0 (afterInsert (visitedTreeInsert env s.ctx.visited fm).2.1
          (visitedTreeInsert env s.ctx.visited fm).2.2)).threads 0)
      rw [setThread_threads]
      generalize visitedTreeInsert env s.ctx.visited fm = inserted at hvisit ⊢
      obtain ⟨visited, fm', old⟩ := inserted
      cases old with
      | none => exact hvisit.symm
      | some old => exact hvisit.symm
  | record i old fm pc =>
      obtain rfl := Subsingleton.elim i 0
      rw [pc] at h
      rw [append_seen order rfl]
      change CallContext env _ _ ((s.setThread 0 _).threads 0)
      rw [setThread_threads]
      exact h
  | found i old fm pc =>
      obtain rfl := Subsingleton.elim i 0
      rw [pc] at h
      rw [append_seen order rfl]
      change CallContext env _ _ ((s.setThread 0 _).threads 0)
      rw [setThread_threads]
      exact h
  | complete i pc =>
      obtain rfl := Subsingleton.elim i 0
      rw [pc] at h
      rw [append_seen order rfl, setThread_threads]
      exact h

/-- So does every step without threads. -/
theorem callContext_serialStep {env : ScanEnv} {s s' : State 1} {label : Label 1}
    {order : List FileEntry} (hstep : SerialStep env s label s')
    (h : CallContext env order s.ctx (s.threads 0)) :
    CallContext env (order ++ seen s label) s'.ctx (s'.threads 0) := by
  cases hstep with
  | main hstep _ _ => exact callContext_step hstep h
  | work hstep _ => exact callContext_step hstep h
  | append hstep outside =>
      have hafter := callContext_step hstep h
      cases hstep with
      | append fe rest pc =>
          rw [setThread_threads]
          change CallContext env _ s.ctx (s.threads 0) at hafter
          rw [outside] at hafter
          exact hafter
  | complete hstep =>
      have hafter := callContext_step hstep h
      cases hstep with
      | complete i pc =>
          rw [setThread_threads] at hafter ⊢
          exact hafter

/-! ### Whole runs -/

/-- The machine and the files visited so far. -/
structure SerialRepresents (env : ScanEnv) (entries : List (Traversed FileEntry)) (s : State 1)
    (order : List FileEntry) : Prop where
  queue : SerialInvariant entries (s.queueView order)
  context : CallContext env order s.ctx (s.threads 0)

theorem serialRepresents_init (env : ScanEnv) (entries : List (Traversed FileEntry))
    (progress : Option Progress) :
    SerialRepresents env entries (State.serialInit entries progress) [] where
  queue := WorkQueue.serialInvariant_init entries progress
  context := rfl

/-- Every step keeps the files in place, and the context what the visits make it. -/
theorem serialRepresents_step {env : ScanEnv} {entries : List (Traversed FileEntry)}
    {s s' : State 1} {label : Label 1} {order : List FileEntry}
    (hstep : SerialStep env s label s') (h : SerialRepresents env entries s order) :
    SerialRepresents env entries s' (order ++ seen s label) where
  queue := (serialSimulation order hstep).invariant
    (fun _ _ _ => WorkQueue.serialInvariant_step) h.queue
  context := callContext_serialStep hstep h.context

/-- When `main` is behind the traversal, every eligible file has been visited, in the order of the
traversal. -/
theorem SerialRepresents.returned {env : ScanEnv} {entries : List (Traversed FileEntry)}
    {s : State 1} {order : List FileEntry} (h : SerialRepresents env entries s order)
    (hmain : s.main = .joining) (houtside : s.threads 0 = .returned) :
    s.queue = [] ∧ order = eligible entries ∧ s.ctx = visitAll env (eligible entries) := by
  have hplace := h.queue.place
  rw [outside_queueView order houtside] at hplace
  obtain ⟨hqueue, hfiles⟩ : s.queue = [] ∧ order ++ pending s.main = eligible entries := hplace
  rw [hmain, pending, List.append_nil] at hfiles
  have hcontext := h.context
  rw [houtside, hfiles] at hcontext
  exact ⟨hqueue, hfiles, hcontext⟩

end Dedup.ThreadedScan
