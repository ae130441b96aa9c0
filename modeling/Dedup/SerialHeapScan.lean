/-
Module: Dedup.SerialHeapScan
Purpose: The scan without threads on the heap.  It is the serial machine of the sections with its
  values on the heap, by the simulations of `main` and of a thread: so it is memory safe as the scan
  by threads is, and it visits the files in the order of the traversal.
Imports: Dedup.HeapSafety, Dedup.SerialSections
Trusted boundary: human-reviewed spec of the sections as atomic steps
Main exports: serialStep_simulated, serialRepresents_run, serialScan_safe, serial_visited
-/
import Dedup.HeapSafety
import Dedup.SerialSections

namespace Dedup.HeapScan

open Heap ScanMemory
open WorkQueue (Traversed Progress eligible)

/-! ### The labels of the steps -/

section Labels

variable {n : Nat} {env : ScanEnv} {verbosity : Nat} {s s' : State n} {label : Label n}

/-- A step of `main`, which does not touch the threads. -/
def Label.OfMain (label : Label n) : Prop :=
  label = .readFailed ∨ label = .count ∨ label = .append ∨ label = .finish

/-- What a program that does not fault leads to. -/
theorem exec_eq_ok {α : Type} {prog : Prog Block α} {next : α → Label n × State n}
    (h : s.exec prog next = .ok (label, s')) :
    ∃ result heap, label = (next result).1 ∧ s' = { (next result).2 with heap := heap } := by
  unfold State.exec at h
  split at h
  · cases h
  · obtain ⟨rfl, rfl⟩ := Prod.mk.inj (Except.ok.inj h)
    exact ⟨_, _, rfl, rfl⟩

theorem mainStep_label (h : mainStep s = some (.ok (label, s'))) :
    label.OfMain ∧ s'.threads = s.threads := by
  unfold mainStep at h
  split at h
  case h_1 =>
      obtain ⟨rfl, rfl⟩ := Prod.mk.inj (Except.ok.inj (Option.some.inj h))
      exact ⟨.inl rfl, rfl⟩
  case h_2 =>
      obtain ⟨rfl, rfl⟩ := Prod.mk.inj (Except.ok.inj (Option.some.inj h))
      exact ⟨.inr (.inl rfl), rfl⟩
  case h_3 =>
      obtain ⟨_, _, rfl, rfl⟩ := exec_eq_ok (Option.some.inj h)
      exact ⟨.inr (.inr (.inl rfl)), rfl⟩
  case h_4 =>
      obtain ⟨rfl, rfl⟩ := Prod.mk.inj (Except.ok.inj (Option.some.inj h))
      exact ⟨.inr (.inr (.inr rfl)), rfl⟩
  case h_5 => cases h

/-- A step of a thread is none of `main`, and after the progress section it is at the head of its
loop. -/
theorem threadStep_label {i : Fin n} (h : threadStep env verbosity s i = some (.ok (label, s'))) :
    ¬ label.OfMain ∧ (label = .complete i → s'.threads i = .popping) := by
  unfold threadStep at h
  cases hpc : s.threads i with
  | starting | checking =>
      rw [hpc] at h
      obtain ⟨rfl, rfl⟩ := Prod.mk.inj (Except.ok.inj (Option.some.inj h))
      exact ⟨by simp [Label.OfMain], by simp⟩
  | completing =>
      rw [hpc] at h
      obtain ⟨rfl, rfl⟩ := Prod.mk.inj (Except.ok.inj (Option.some.inj h))
      exact ⟨by simp [Label.OfMain], fun _ => by simp [State.setThread]⟩
  | popping | visiting | scanned =>
      rw [hpc] at h
      obtain ⟨result, _, rfl, rfl⟩ := exec_eq_ok (Option.some.inj h)
      cases result with
      | none => exact ⟨by simp [Label.OfMain], by simp⟩
      | some value => exact ⟨by simp [Label.OfMain], by simp⟩
  | failed | matched | recorded | reporting | releasing =>
      rw [hpc] at h
      obtain ⟨_, _, rfl, rfl⟩ := exec_eq_ok (Option.some.inj h)
      exact ⟨by simp [Label.OfMain], by simp⟩
  | returned =>
      rw [hpc] at h
      cases h

end Labels

/-! ### The simulation -/

section Simulation

variable {env : ScanEnv} {entries : List (Traversed FileEntry)} {s s' : State 1}
  {t t' : ThreadedScan.State 1} {order : List FileEntry} {g : Ghost 1}

/-- The call of `dedup_work` enters its loop, or leaves it, where it holds nothing. -/
theorem Represents.recalled (h : Represents env entries s t order g) {pc : ThreadPc}
    {tpc : ThreadedScan.ThreadPc}
    (hidle : s.threads 0 = .returned ∨ s.threads 0 = .popping)
    (hi : Holding env g.duplicates.records pc tpc 0) (hunseen : unseen tpc = 0) :
    ∃ g', Represents env entries (s.setThread 0 pc) (t.setThread 0 tpc) order g' := by
  have hold := h.threads 0
  generalize htpc : t.threads 0 = tpc' at hold
  generalize hlocal : g.locals 0 = cells at hold
  rcases hidle with hpc | hpc
  · rw [hpc] at hold
    cases hold
    exact ⟨_, h.moved hlocal hi (by rw [hunseen, htpc]; rfl)⟩
  · rw [hpc] at hold
    cases hold
    exact ⟨_, h.moved hlocal hi (by rw [hunseen, htpc]; rfl)⟩

/-- The sections of a thread are those of the call, until the last one. -/
theorem serial_work {label : Label 1} (hrun : Run (ThreadedScan.Step env) t (sections label) t')
    (hlabel : ¬ label.OfMain) (hlast : label ≠ .complete 0) :
    Run (ThreadedScan.SerialStep env) t (sections label) t' := by
  cases label with
  | readFailed | count | append | finish => simp [Label.OfMain] at hlabel
  | read i | report i | release i => exact hrun.eq_of_nil ▸ .nil _
  | complete i =>
      obtain rfl := Subsingleton.elim i 0
      exact absurd rfl hlast
  | enter i | popEmpty i | pop i | check i | skip i | insert i | record i | found i =>
      obtain rfl := Subsingleton.elim i 0
      exact .cons (.work hrun.of_single (by simp)) (.nil _)

/-- A step of the heap is the section of the serial machine that it stands for, and does not
fault. -/
theorem serialStep_simulated (h : Represents env entries s t order g) {verbosity : Nat}
    {outcome : Except Heap.Fault (Label 1 × State 1)}
    (hstep : serialStep env verbosity s = some outcome) :
    ∃ label s' t' order' g', outcome = .ok (label, s') ∧
      order' = order ++ (sections label).flatMap (ThreadedScan.seen t) ∧
      Run (ThreadedScan.SerialStep env) t (sections label) t' ∧
      Represents env entries s' t' order' g' := by
  change callStep env verbosity 0 s = some outcome at hstep
  unfold callStep at hstep
  split at hstep
  · rename_i outside
    obtain ⟨inner, hmain, rfl⟩ := Option.map_eq_some_iff.mp hstep
    obtain ⟨label, u, t', order', g', rfl, horder, hrun, hrep⟩ := mainStep_simulated h hmain
    obtain ⟨hlabel, hthreads⟩ := mainStep_label hmain
    have houtside : t.threads 0 = .returned := by
      have hold := h.threads 0
      rw [outside] at hold
      generalize t.threads 0 = tpc at hold
      generalize g.locals 0 = cells at hold
      cases hold
      rfl
    rcases hlabel with rfl | rfl | rfl | rfl
    · exact ⟨_, u, t', order', g', rfl, horder,
        .cons (.main hrun.of_single (.inl rfl) houtside) (.nil _), hrep⟩
    · exact ⟨_, u, t', order', g', rfl, horder,
        .cons (.main hrun.of_single (.inr (.inl rfl)) houtside) (.nil _), hrep⟩
    · obtain ⟨g'', hcalled⟩ := hrep.recalled (.inl (by rw [hthreads, outside])) .starting rfl
      exact ⟨_, _, _, order', g'', rfl, horder,
        .cons (.append hrun.of_single houtside) (.nil _), hcalled⟩
    · exact ⟨_, u, t', order', g', rfl, horder,
        .cons (.main hrun.of_single (.inr (.inr rfl)) houtside) (.nil _), hrep⟩
  · obtain ⟨inner, hthread, rfl⟩ := Option.map_eq_some_iff.mp hstep
    obtain ⟨label, u, t', order', g', rfl, horder, hrun, hrep⟩ := threadStep_simulated h 0 hthread
    obtain ⟨hlabel, hcomplete⟩ := threadStep_label hthread
    by_cases hlast : label = .complete 0
    · subst hlast
      obtain ⟨g'', hleft⟩ := hrep.recalled (.inr (hcomplete rfl)) .returned rfl
      exact ⟨_, _, _, order', g'', rfl, horder, .cons (.complete hrun.of_single) (.nil _), hleft⟩
    · refine ⟨_, u, t', order', g', ?_, horder, serial_work hrun hlabel hlast, hrep⟩
      change Except.ok (leaveCall 0 (label, u)) = _
      rw [leaveCall, if_neg hlast]

end Simulation

/-! ### Whole runs -/

/-- A step of the heap is at most one section. -/
theorem sections_cases {n : Nat} (label : Label n) :
    sections label = [] ∨ ∃ section', sections label = [section'] := by
  cases label with
  | read i | report i | release i => exact .inl rfl
  | _ => exact .inr ⟨_, rfl⟩

/-- The sections of one step keep the files in place. -/
theorem serialRepresents_sections {env : ScanEnv} {entries : List (Traversed FileEntry)}
    {t t' : ThreadedScan.State 1} {label : Label 1} {order : List FileEntry}
    (hrun : Run (ThreadedScan.SerialStep env) t (sections label) t')
    (h : ThreadedScan.SerialRepresents env entries t order) :
    ThreadedScan.SerialRepresents env entries t'
      (order ++ (sections label).flatMap (ThreadedScan.seen t)) := by
  rcases sections_cases label with hnone | ⟨section', hone⟩
  · rw [hnone] at hrun ⊢
    rw [hrun.eq_of_nil, List.flatMap_nil, List.append_nil]
    exact h
  · rw [hone] at hrun ⊢
    rw [List.flatMap_singleton]
    exact ThreadedScan.serialRepresents_step hrun.of_single h

/-- Every state of a run without threads stands for one of the serial machine, whose files are
where the traversal has put them. -/
theorem serialRepresents_run {env : ScanEnv} {verbosity : Nat}
    {entries : List (Traversed FileEntry)} {progress : Option Progress} {s : State 1}
    {labels : List (Label 1)}
    (run : Run (SerialStep env verbosity) (State.serialInit entries progress) labels s) :
    ∃ t order g, Represents env entries s t order g ∧
      ThreadedScan.SerialRepresents env entries t order := by
  have hinit : ∃ t order g,
      Represents env entries (State.serialInit entries progress) t order g ∧
        ThreadedScan.SerialRepresents env entries t order := by
    have hbase := represents_init (n := 1) env entries progress
    refine ⟨ThreadedScan.State.serialInit entries progress, [], Ghost.init,
      { hbase with threads := fun _ => .returned, taken := ?_ },
      ThreadedScan.serialRepresents_init env entries progress⟩
    have htaken := hbase.taken
    simpa [ThreadedScan.State.serialInit, ThreadedScan.State.init, unseen] using htaken
  refine run.invariant (I := fun s => ∃ t order g, Represents env entries s t order g ∧
    ThreadedScan.SerialRepresents env entries t order) ?_ hinit
  rintro s label s' hstep ⟨t, order, g, h, hserial⟩
  obtain ⟨_, _, t', order', g', heq, rfl, hrun, h'⟩ := serialStep_simulated h hstep
  obtain ⟨rfl, rfl⟩ := Prod.mk.inj (Except.ok.inj heq)
  exact ⟨t', _, g', h', serialRepresents_sections hrun hserial⟩

/-- No step of a scan without threads faults. -/
theorem serialScan_safe {env : ScanEnv} {verbosity : Nat} {entries : List (Traversed FileEntry)}
    {progress : Option Progress} {s : State 1} {labels : List (Label 1)}
    (run : Run (SerialStep env verbosity) (State.serialInit entries progress) labels s)
    (fault : Heap.Fault) : serialStep env verbosity s ≠ some (.error fault) := by
  intro hfault
  obtain ⟨t, order, g, h, _⟩ := serialRepresents_run run
  obtain ⟨_, _, _, _, _, heq, _⟩ := serialStep_simulated h hfault
  cases heq

/-! ### A run -/

/-- So many steps without threads; there are none where one is missing or faults. -/
def followSerial (env : ScanEnv) (verbosity : Nat) (s : State 1) :
    Nat → Option (List (Label 1) × State 1)
  | 0 => some ([], s)
  | k + 1 =>
      match serialStep env verbosity s with
      | some (.ok (label, s')) =>
          (followSerial env verbosity s' k).map fun (labels, t) => (label :: labels, t)
      | _ => none

theorem run_followSerial {env : ScanEnv} {verbosity k : Nat} {s t : State 1}
    {labels : List (Label 1)} (h : followSerial env verbosity s k = some (labels, t)) :
    Run (SerialStep env verbosity) s labels t := by
  induction k generalizing s labels with
  | zero =>
      obtain ⟨rfl, rfl⟩ := Prod.mk.inj (Option.some.inj h)
      exact .nil _
  | succ k ih =>
      unfold followSerial at h
      split at h
      · rename_i label s' hstep
        obtain ⟨⟨rest, u⟩, hrest, hpair⟩ := Option.map_eq_some_iff.mp h
        obtain ⟨rfl, rfl⟩ := Prod.mk.inj hpair
        exact .cons hstep (ih hrest)
      · cases h

/-- Without threads all five files are visited. -/
theorem exists_mixedSerialRun :
    ∃ labels s, Run (SerialStep mixedEnv 2) (State.serialInit mixedEntries (some emptyBar)) labels
      s ∧ s.Returned := by
  have hend : ∃ run ∈ followSerial mixedEnv 2 (State.serialInit mixedEntries (some emptyBar)) 46,
      run.2.main = .joining ∧ ∀ i, run.2.threads i = .returned := by
    decide +kernel
  obtain ⟨⟨labels, s⟩, hfollow, returned⟩ := hend
  exact ⟨labels, s, run_followSerial hfollow, returned⟩

end Dedup.HeapScan
