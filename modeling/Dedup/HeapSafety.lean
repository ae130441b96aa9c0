/-
Module: Dedup.HeapSafety
Purpose: The scan is memory safe.  At every moment the blocks of the heap are those of the queue,
  of the two trees, of what each thread holds, and the strings that were lost with an overwritten
  shortcut, with no block in two of these; so no step of any schedule touches a block that was
  freed or frees one twice, and the machine on the heap is the threaded scan.
Imports: Dedup.DuplicateOwnership, Dedup.HeapScan, Dedup.LostStrings, Dedup.QueueOwnership
Trusted boundary: human-reviewed spec of the lock-protected sections as atomic steps
Main exports: Holding, Ghost, Represents, threadStep_simulated, mainStep_simulated, heapSimulation,
  represents_run, heapScan_safe
-/
import Dedup.DuplicateOwnership
import Dedup.HeapScan
import Dedup.LostStrings
import Dedup.QueueOwnership

namespace Dedup.HeapScan

open Heap ScanMemory
open WorkQueue (Traversed MainPc Progress eligible pending)

variable {n : Nat}

theorem strings_append (fms fms' : List FileMetadata) :
    strings (fms ++ fms') = strings fms + strings fms' := by
  simp [strings]

/-! ### Who owns what -/

/-- What a thread holds on the heap where the threaded scan holds values.  A record that was added
to a list is still read by its thread, and owned by the list. -/
inductive Holding (env : ScanEnv) (records : List HeldRecord) :
    ThreadPc → ThreadedScan.ThreadPc → Multiset Cell → Prop where
  | starting : Holding env records .starting .starting 0
  | popping : Holding env records .popping .popping 0
  | checking : Holding env records .checking .checking 0
  | visiting (entry : HeldEntry) (link : Option Addr) :
      Holding env records (.visiting entry.addr) (.visiting entry.fe) (takenCells entry link)
  | failed (entry : HeldEntry) (link : Option Addr) :
      Holding env records (.failed entry.addr) .completing (takenCells entry link)
  | scanned (entry : HeldEntry) (link : Option Addr) (held : HeldRecord)
      (read : Dedup.metadataFromEntry env entry.fe = some held.fm) :
      Holding env records (.scanned entry.addr held.addr) (.visiting entry.fe)
        (held.cells + takenCells entry link)
  | matched (entry : HeldEntry) (link : Option Addr) (old held : HeldRecord) :
      Holding env records (.matched entry.addr old.addr held.addr) (.matched old.fm held.fm)
        (old.cells + held.cells + takenCells entry link)
  | recorded (entry : HeldEntry) (link : Option Addr) (old held : HeldRecord)
      (listed : held ∈ records) :
      Holding env records (.recorded entry.addr old.addr held.addr) (.recorded old.fm held.fm)
        (old.cells + takenCells entry link)
  | reporting (entry : HeldEntry) (link : Option Addr) (old held : HeldRecord)
      (listed : held ∈ records) :
      Holding env records (.reporting entry.addr old.addr held.addr) .completing
        (old.cells + takenCells entry link)
  | releasing (entry : HeldEntry) (link : Option Addr) (held : Option HeldRecord) :
      Holding env records (.releasing entry.addr (held.map HeldRecord.addr)) .completing
        (heldCells held + takenCells entry link)
  | completing : Holding env records .completing .completing 0
  | returned : Holding env records .returned .returned 0

/-- Records that stay in the lists stay readable. -/
theorem Holding.mono {env : ScanEnv} {records records' : List HeldRecord} {pc : ThreadPc}
    {tpc : ThreadedScan.ThreadPc} {cells : Multiset Cell} (h : Holding env records pc tpc cells)
    (hsub : records ⊆ records') : Holding env records' pc tpc cells := by
  cases h with
  | starting => exact .starting
  | popping => exact .popping
  | checking => exact .checking
  | visiting entry link => exact .visiting entry link
  | failed entry link => exact .failed entry link
  | scanned entry link held read => exact .scanned entry link held read
  | matched entry link old held => exact .matched entry link old held
  | recorded entry link old held listed => exact .recorded entry link old held (hsub listed)
  | reporting entry link old held listed => exact .reporting entry link old held (hsub listed)
  | releasing entry link held => exact .releasing entry link held
  | completing => exact .completing
  | returned => exact .returned

/-- What hangs where on the heap. -/
structure Ghost (n : Nat) where
  queue : List HeldEntry
  visited : TreeAt
  duplicates : DuplicatesAt
  locals : Fin n → Multiset Cell
  lost : Multiset Cell

namespace Ghost

/-- What all threads but one own. -/
def others (g : Ghost n) (i : Fin n) : Multiset Cell :=
  ∑ j ∈ Finset.univ.erase i, g.locals j

/-- All blocks. -/
def total (g : Ghost n) (queue : Addr) : Multiset Cell :=
  ∑ i, g.locals i + entriesCells queue g.queue + g.visited.cells + g.duplicates.cells + g.lost

/-- Thread `i` owns `cells` from now on, and the rest is as given. -/
def next (g : Ghost n) (i : Fin n) (cells : Multiset Cell) (queue : List HeldEntry)
    (visited : TreeAt) (duplicates : DuplicatesAt) (lost : Multiset Cell) : Ghost n where
  queue := queue
  visited := visited
  duplicates := duplicates
  locals := Function.update g.locals i cells
  lost := lost

theorem total_eq (g : Ghost n) (addr : Addr) (i : Fin n) :
    g.total addr = g.locals i + g.others i + entriesCells addr g.queue + g.visited.cells +
      g.duplicates.cells + g.lost := by
  have hsum : ∑ j, g.locals j = _ := sum_pool g.locals i id
  rw [total, hsum]
  rfl

theorem total_next (g : Ghost n) (addr : Addr) (i : Fin n) (cells : Multiset Cell)
    (queue : List HeldEntry) (visited : TreeAt) (duplicates : DuplicatesAt)
    (lost : Multiset Cell) :
    (g.next i cells queue visited duplicates lost).total addr =
      cells + g.others i + entriesCells addr queue + visited.cells + duplicates.cells + lost := by
  have hsum : ∑ j, (g.next i cells queue visited duplicates lost).locals j = _ :=
    sum_pool_update g.locals i cells id
  rw [total, hsum]
  rfl

end Ghost

/-- The file a thread has taken and the visited tree has not seen. -/
def unseen : ThreadedScan.ThreadPc → Multiset FileEntry
  | .visiting fe => {fe}
  | _ => 0

/-- The machine on the heap stands for the threaded scan: `order` lists the files that the visited
tree was shown, and those that could not be read, in the order of their visits. -/
structure Represents (env : ScanEnv) (entries : List (Traversed FileEntry)) (s : State n)
    (t : ThreadedScan.State n) (order : List FileEntry) (g : Ghost n) : Prop where
  owns : Owns s.heap (g.total s.queue)
  visited_addr : g.visited.addr = s.visited
  duplicates_addr : g.duplicates.addr = s.duplicates
  queue : t.queue = g.queue.map HeldEntry.fe
  visited : g.visited.Stands t.ctx.visited
  duplicates : g.duplicates.Stands t.ctx.duplicates
  threads : ∀ i, Holding env g.duplicates.records (s.threads i) (t.threads i) (g.locals i)
  inserted : t.ctx.visited =
    (insertions env (order.filterMap (Dedup.metadataFromEntry env))).1
  lost : g.lost.map Prod.snd =
    strings (insertions env (order.filterMap (Dedup.metadataFromEntry env))).2 + streams env order
  taken : (order : Multiset FileEntry) + ∑ i, unseen (t.threads i) + t.queue + pending t.main =
    eligible entries
  main : t.main = s.main
  done : t.done = s.done
  found : t.ctx.found = s.found
  progress : t.progress = s.progress
  displayed : t.displayed = s.displayed

/-- A step does not fault, and is the section of the threaded scan that it stands for. -/
def Simulated (env : ScanEnv) (entries : List (Traversed FileEntry)) (t : ThreadedScan.State n)
    (order : List FileEntry) (outcome : Except Heap.Fault (Label n × State n)) : Prop :=
  ∃ label s' t' order' g', outcome = .ok (label, s') ∧
    order' = order ++ (sections label).flatMap (ThreadedScan.seen t) ∧
    Run (ThreadedScan.Step env) t (sections label) t' ∧ Represents env entries s' t' order' g'

/-- A program whose part of the heap is there runs. -/
theorem exec_of_triple {α : Type} {s : State n} {prog : Prog Block α} {part frame : Multiset Cell}
    {post : α → Multiset Cell → Prop} (hprog : Triple part prog post)
    (howns : Owns s.heap (part + frame)) (next : α → Label n × State n) :
    ∃ result heap cells,
      s.exec prog next = .ok ((next result).1, { (next result).2 with heap := heap }) ∧
      post result cells ∧ Owns heap (cells + frame) := by
  obtain ⟨result, heap, cells, hrun, hpost, howns'⟩ := hprog s.heap frame howns
  refine ⟨result, heap, cells, ?_, hpost, howns'⟩
  rw [State.exec, hrun]

section Threads

variable {env : ScanEnv} {entries : List (Traversed FileEntry)} {s : State n}
  {t : ThreadedScan.State n} {order : List FileEntry} {g : Ghost n} {i : Fin n}

/-- What the threads hold after one of them moved. -/
theorem Represents.holding (h : Represents env entries s t order g) {records : List HeldRecord}
    (hsub : g.duplicates.records ⊆ records) {pc : ThreadPc} {tpc : ThreadedScan.ThreadPc}
    {cells : Multiset Cell} (hi : Holding env records pc tpc cells) (j : Fin n) :
    Holding env records (Function.update s.threads i pc j) (Function.update t.threads i tpc j)
      (Function.update g.locals i cells j) := by
  by_cases hj : j = i
  · subst hj
    simpa using hi
  · simpa [hj] using (h.threads j).mono hsub

/-- The files not seen yet, where one thread moves. -/
theorem taken_move (tpc : ThreadedScan.ThreadPc) :
    ∑ j, unseen (Function.update t.threads i tpc j) =
      unseen tpc + ∑ j ∈ Finset.univ.erase i, unseen (t.threads j) :=
  sum_pool_update t.threads i tpc unseen

/-- A thread that holds nothing moves to where it holds nothing. -/
theorem Represents.moved (h : Represents env entries s t order g) {pc : ThreadPc}
    {tpc : ThreadedScan.ThreadPc} (hlocal : g.locals i = 0)
    (hi : Holding env g.duplicates.records pc tpc 0) (hunseen : unseen tpc = unseen (t.threads i)) :
    Represents env entries (s.setThread i pc) (t.setThread i tpc) order
      (g.next i 0 g.queue g.visited g.duplicates g.lost) :=
  { h with
    owns := by
      have howns := h.owns
      rw [g.total_eq s.queue i, hlocal] at howns
      rw [Ghost.total_next]
      exact howns
    threads := h.holding (List.Subset.refl _) hi
    taken := by
      have htaken := h.taken
      rw [sum_pool t.threads i unseen, ← hunseen, ← taken_move] at htaken
      exact htaken }

/-- The progress bar holds nothing of the heap. -/
theorem Represents.display (h : Represents env entries s t order g)
    (update : Progress → Progress) :
    Represents env entries (s.display update) (t.display update) order g :=
  { h with
    progress := by simp only [State.display, ThreadedScan.State.display, h.progress]
    displayed := by
      simp only [State.display, ThreadedScan.State.display, h.progress, h.displayed] }

/-- A read of `done`: the first one, or the one after an empty pop. -/
theorem readDone_simulated (h : Represents env entries s t order g) (hlocal : g.locals i = 0)
    (hunseen : unseen (t.threads i) = 0) (label : Label n) {section' : ThreadedScan.Label n}
    (hsection : sections label = [section']) (hseen : ThreadedScan.seen t section' = [])
    (hstep : ThreadedScan.Step env t section'
      (t.setThread i (if t.done then .returned else .popping))) :
    Simulated env entries t order
      (.ok (label, s.setThread i (if s.done then .returned else .popping))) := by
  have hrun : Run (ThreadedScan.Step env) t (sections label)
      (t.setThread i (if t.done then .returned else .popping)) := by
    rw [hsection]
    exact .cons hstep (.nil _)
  have hholding : Holding env g.duplicates.records (if s.done then .returned else .popping)
      (if t.done then .returned else .popping) 0 := by
    rw [h.done]
    cases s.done with
    | false => exact .popping
    | true => exact .returned
  have hidle : unseen (if t.done then .returned else .popping) = unseen (t.threads i) := by
    rw [hunseen]
    cases t.done <;> rfl
  have horder : order = order ++ (sections label).flatMap (ThreadedScan.seen t) := by
    simp [hsection, hseen]
  exact ⟨_, _, _, order, _, rfl, horder, hrun, h.moved hlocal hholding hidle⟩

/-- `file_entry_next` under the queue's lock. -/
theorem popping_simulated (h : Represents env entries s t order g)
    (hpc : s.threads i = .popping) :
    Simulated env entries t order (s.exec (fileEntryNext s.queue) fun fe =>
        match fe with
        | none => (.popEmpty i, s.setThread i .checking)
        | some fe => (.pop i, s.setThread i (.visiting fe))) := by
  have hold := h.threads i
  rw [hpc] at hold
  generalize htpc : t.threads i = tpc at hold
  generalize hlocal : g.locals i = cells at hold
  cases hold
  have howns : Owns s.heap (entriesCells s.queue g.queue +
      (g.others i + g.visited.cells + g.duplicates.cells + g.lost)) := by
    convert h.owns using 1
    rw [g.total_eq s.queue i, hlocal]
    abel
  obtain ⟨result, heap, cells, hexec, hpost, howns'⟩ :=
    exec_of_triple (fileEntryNext_spec s.queue g.queue) howns fun fe =>
      match fe with
      | none => (Label.popEmpty i, s.setThread i .checking)
      | some fe => (Label.pop i, s.setThread i (.visiting fe))
  rw [hexec]
  rcases hpost with ⟨hnil, rfl, rfl⟩ | ⟨entry, rest, link, hqueue, rfl, rfl⟩
  · have hmoved := h.moved hlocal .checking (by rw [htpc]; rfl)
    have hheap : Owns heap ((g.next i 0 g.queue g.visited g.duplicates g.lost).total s.queue) := by
      convert howns' using 1
      rw [Ghost.total_next]
      abel
    exact ⟨_, _, _, order, _, rfl, (List.append_nil _).symm,
      .cons (.popEmpty t i htpc (by rw [h.queue, hnil]; rfl)) (.nil _),
      { hmoved with owns := hheap }⟩
  · have hfront : t.queue = entry.fe :: rest.map HeldEntry.fe := by rw [h.queue, hqueue]; rfl
    have hheap : Owns heap ((g.next i (takenCells entry link) rest g.visited g.duplicates
        g.lost).total s.queue) := by
      convert howns' using 1
      rw [Ghost.total_next]
      abel
    refine ⟨_, _, _, order, _, rfl, (List.append_nil _).symm,
      .cons (.pop t i entry.fe _ htpc hfront) (.nil _),
      { h with
        owns := hheap
        queue := rfl
        threads := h.holding (List.Subset.refl _) (.visiting entry link)
        taken := ?_ }⟩
    have htaken := h.taken
    rw [sum_pool t.threads i unseen, htpc, hfront, ← Multiset.cons_coe,
      ← Multiset.singleton_add] at htaken
    rw [← htaken]
    change _ + ∑ j, unseen (Function.update t.threads i _ j) + _ + _ = _
    rw [taken_move]
    simp only [unseen]
    abel

/-- One more file was visited. -/
theorem coe_append_singleton (fe : FileEntry) :
    ((order ++ [fe] : List FileEntry) : Multiset FileEntry) = order + {fe} := by
  rw [← Multiset.coe_add, Multiset.coe_singleton]

/-- `metadata_from_entry`, outside every lock. -/
theorem visiting_simulated (h : Represents env entries s t order g) {fe : Addr}
    (hpc : s.threads i = .visiting fe) :
    Simulated env entries t order (s.exec (ScanMemory.metadataFromEntry env fe) fun fm =>
        match fm with
        | none => (.skip i, s.setThread i (.failed fe))
        | some fm => (.read i, s.setThread i (.scanned fe fm))) := by
  have hold := h.threads i
  rw [hpc] at hold
  generalize htpc : t.threads i = tpc at hold
  generalize hlocal : g.locals i = cells at hold
  cases hold with
  | visiting entry link =>
  have howns : Owns s.heap (takenCells entry link + (g.others i + entriesCells s.queue g.queue +
      g.visited.cells + g.duplicates.cells + g.lost)) := by
    convert h.owns using 1
    rw [g.total_eq s.queue i, hlocal]
    abel
  obtain ⟨result, heap, cells, hexec, ⟨held, left, rfl, hread, hleft, rfl⟩, howns'⟩ :=
    exec_of_triple (metadataFromEntry_spec env entry link) howns fun fm =>
      match fm with
      | none => (Label.skip i, s.setThread i (.failed entry.addr))
      | some fm => (Label.read i, s.setThread i (.scanned entry.addr fm))
  rw [hexec]
  have hheap : Owns heap ((g.next i (heldCells held + takenCells entry link) g.queue g.visited
      g.duplicates (g.lost + left)).total s.queue) := by
    convert howns' using 1
    rw [Ghost.total_next]
    abel
  cases held with
  | none =>
      have hunreadable : Dedup.metadataFromEntry env entry.fe = none := hread.symm
      have horder : (order ++ [entry.fe]).filterMap (Dedup.metadataFromEntry env) =
          order.filterMap (Dedup.metadataFromEntry env) := by
        simp [List.filterMap_append, hunreadable]
      have hseen : order ++ [entry.fe] =
          order ++ (sections (.skip i)).flatMap (ThreadedScan.seen t) := by
        simp [sections, ThreadedScan.seen, htpc]
      rw [heldCells_none, zero_add] at hheap
      refine ⟨_, _, _, order ++ [entry.fe], _, rfl, hseen,
        .cons (.skip t i entry.fe htpc hunreadable) (.nil _),
        { h with
          owns := hheap
          threads := h.holding (List.Subset.refl _) (.failed entry link)
          inserted := by rw [horder]; exact h.inserted
          lost := ?_
          taken := ?_ }⟩
      · change (g.lost + left).map Prod.snd = _
        rw [horder, streams_append_singleton, Multiset.map_add, h.lost, hleft, add_assoc]
      · have htaken := h.taken
        rw [sum_pool t.threads i unseen, htpc] at htaken
        rw [← htaken]
        change _ + ∑ j, unseen (Function.update t.threads i _ j) + _ + _ = _
        rw [taken_move, coe_append_singleton]
        simp only [unseen]
        abel
  | some held =>
      -- the stream is closed, so nothing is lost
      rw [streams_of_read hread.symm, Multiset.map_eq_zero] at hleft
      rw [hleft, add_zero] at hheap
      have hself : Function.update t.threads i (.visiting entry.fe) = t.threads := by
        rw [← htpc, Function.update_eq_self]
      have hholding := h.holding (i := i) (List.Subset.refl _) (.scanned entry link held hread.symm)
      rw [hself] at hholding
      exact ⟨_, _, t, order, _, rfl, (List.append_nil _).symm, .nil _,
        { h with owns := hheap, threads := hholding }⟩

/-- A section of a thread that only prints, and moves on to free. -/
theorem printing_simulated (h : Represents env entries s t order g) {pc : ThreadPc}
    {prog : Prog Block Unit} (htpc : t.threads i = .completing)
    (hprog : Triple (g.locals i + g.duplicates.cells) prog fun _ cells =>
      cells = g.locals i + g.duplicates.cells)
    (hi : Holding env g.duplicates.records pc .completing (g.locals i)) :
    Simulated env entries t order (s.exec prog fun _ => (.report i, s.setThread i pc)) := by
  have howns : Owns s.heap (g.locals i + g.duplicates.cells + (g.others i +
      entriesCells s.queue g.queue + g.visited.cells + g.lost)) := by
    convert h.owns using 1
    rw [g.total_eq s.queue i]
    abel
  obtain ⟨result, heap, cells, hexec, rfl, howns'⟩ :=
    exec_of_triple hprog howns fun _ => (Label.report i, s.setThread i pc)
  rw [hexec]
  have hheap : Owns heap (g.total s.queue) := by
    convert howns' using 1
    rw [g.total_eq s.queue i]
    abel
  have hself : Function.update t.threads i .completing = t.threads := by
    rw [← htpc, Function.update_eq_self]
  have hholding := h.holding (i := i) (List.Subset.refl _) hi
  rw [hself, Function.update_eq_self] at hholding
  exact ⟨_, _, t, order, g, rfl, (List.append_nil _).symm, .nil _,
    { h with owns := hheap, threads := hholding }⟩

/-- The failure message of a file without a record. -/
theorem failed_simulated (h : Represents env entries s t order g) {fe : Addr}
    (hpc : s.threads i = .failed fe) :
    Simulated env entries t order (s.exec (printing s.progress.isSome (printEntry fe)) fun _ =>
        (.report i, s.setThread i (.releasing fe none))) := by
  have hold := h.threads i
  rw [hpc] at hold
  generalize htpc : t.threads i = tpc at hold
  generalize hlocal : g.locals i = cells at hold
  cases hold with
  | failed entry link =>
  have hreleasing : Holding env g.duplicates.records (.releasing entry.addr none) .completing
      (heldCells none + takenCells entry link) := .releasing entry link none
  rw [heldCells_none, zero_add, ← hlocal] at hreleasing
  have howned : takenCells entry link ≤ g.locals i + g.duplicates.cells := by
    rw [hlocal]
    exact Multiset.le_add_right _ _
  exact printing_simulated h htpc (printing_spec (printEntry_spec entry howned)) hreleasing

/-- The section under `visited_mutex`. -/
theorem scanned_simulated (h : Represents env entries s t order g) {fe fm : Addr}
    (hpc : s.threads i = .scanned fe fm) :
    Simulated env entries t order (s.exec (insertSection env s.visited fm) fun old =>
        match old with
        | none => (.insert i, s.setThread i (.releasing fe (some fm)))
        | some old => (.insert i, s.setThread i (.matched fe old fm))) := by
  have hold := h.threads i
  rw [hpc] at hold
  generalize htpc : t.threads i = tpc at hold
  generalize hlocal : g.locals i = cells at hold
  cases hold with
  | scanned entry link held hread =>
  have howns : Owns s.heap (g.visited.cells + held.cells + (takenCells entry link + g.others i +
      entriesCells s.queue g.queue + g.duplicates.cells + g.lost)) := by
    convert h.owns using 1
    rw [g.total_eq s.queue i, hlocal]
    abel
  have hspec := insertSection_spec env g.visited t.ctx.visited held h.visited
  rw [h.visited_addr] at hspec
  obtain ⟨result, heap, cells, hexec, ⟨visited', old, lost', haddr, hstands, rfl, hmatch, rfl,
    hlost⟩, howns'⟩ := exec_of_triple hspec howns fun old =>
      match old with
      | none => (Label.insert i, s.setThread i (.releasing entry.addr (some held.addr)))
      | some old => (Label.insert i, s.setThread i (.matched entry.addr old held.addr))
  rw [hexec]
  -- the record has the digest that was written into it, and the tree the leaf
  let held' := held.put (Dedup.visitedTreeInsert env t.ctx.visited held.fm).2.1
  have hscanned : (order ++ [entry.fe]).filterMap (Dedup.metadataFromEntry env) =
      order.filterMap (Dedup.metadataFromEntry env) ++ [held.fm] := by
    simp [List.filterMap_append, hread]
  have hstep : ThreadedScan.Step env t (.insert i) _ := .insert t i entry.fe held.fm htpc hread
  rw [← hmatch] at hstep
  have hseen : order ++ [entry.fe] =
      order ++ (sections (.insert i)).flatMap (ThreadedScan.seen t) := by
    simp [sections, ThreadedScan.seen, htpc]
  have hinserted : (Dedup.visitedTreeInsert env t.ctx.visited held.fm).1 =
      (insertions env ((order ++ [entry.fe]).filterMap (Dedup.metadataFromEntry env))).1 := by
    rw [hscanned, insertions_append_singleton, ← h.inserted]
  have hstrings : (g.lost + lost').map Prod.snd =
      strings (insertions env ((order ++ [entry.fe]).filterMap
        (Dedup.metadataFromEntry env))).2 + streams env (order ++ [entry.fe]) := by
    rw [hscanned, insertions_append_singleton, ← h.inserted, strings_append, Multiset.map_add,
      h.lost, hlost, streams_append_singleton, streams_of_read hread, add_zero]
    abel
  have htaken : ∀ tpc, unseen tpc = 0 → ((order ++ [entry.fe] : List FileEntry) :
      Multiset FileEntry) + ∑ j, unseen (Function.update t.threads i tpc j) + t.queue +
        pending t.main = eligible entries := by
    intro tpc htpc'
    have htaken := h.taken
    rw [sum_pool t.threads i unseen, htpc] at htaken
    rw [← htaken, taken_move, coe_append_singleton, htpc']
    simp only [unseen]
    abel
  cases old with
  | none =>
      have hheap : Owns heap ((g.next i (heldCells (some held') + takenCells entry link) g.queue
          visited' g.duplicates (g.lost + lost')).total s.queue) := by
        convert howns' using 1
        simp only [Ghost.total_next, heldCells_none, heldCells_some, held']
        abel
      exact ⟨_, _, _, order ++ [entry.fe], _, rfl, hseen, .cons hstep (.nil _),
        { h with
          owns := hheap
          visited_addr := haddr
          visited := hstands
          threads := h.holding (List.Subset.refl _) (.releasing entry link (some held'))
          inserted := hinserted
          lost := hstrings
          taken := htaken _ rfl }⟩
  | some old =>
      have hheap : Owns heap ((g.next i (old.cells + held'.cells + takenCells entry link) g.queue
          visited' g.duplicates (g.lost + lost')).total s.queue) := by
        convert howns' using 1
        simp only [Ghost.total_next, heldCells_some, held']
        abel
      exact ⟨_, _, _, order ++ [entry.fe], _, rfl, hseen, .cons hstep (.nil _),
        { h with
          owns := hheap
          visited_addr := haddr
          visited := hstands
          threads := h.holding (List.Subset.refl _) (.matched entry link old held')
          inserted := hinserted
          lost := hstrings
          taken := htaken _ rfl }⟩

/-- The section under `duplicates_mutex`. -/
theorem matched_simulated (h : Represents env entries s t order g) (verbose : Bool)
    {fe old fm : Addr} (hpc : s.threads i = .matched fe old fm) :
    Simulated env entries t order
      (s.exec (recordSection 2 s.heap.next verbose s.duplicates old fm) fun _ =>
        (.record i, s.setThread i (.recorded fe old fm))) := by
  have hold := h.threads i
  rw [hpc] at hold
  generalize htpc : t.threads i = tpc at hold
  generalize hlocal : g.locals i = cells at hold
  cases hold with
  | matched entry link old held =>
  have howns : Owns s.heap (g.duplicates.cells + old.cells + held.cells +
      (takenCells entry link + g.others i + entriesCells s.queue g.queue + g.visited.cells +
        g.lost)) := by
    convert h.owns using 1
    rw [g.total_eq s.queue i, hlocal]
    abel
  -- the records of the lists are fewer than the addresses that were handed out
  have hrounds : g.duplicates.records.length + 1 < s.heap.next := by
    have hcard := howns.card_le_next
    have hle := g.duplicates.length_records_le
    simp only [Multiset.card_add, HeldRecord.cells, Multiset.card_cons,
      Multiset.card_singleton] at hcard
    omega
  have hspec := recordSection_spec g.duplicates t.ctx.duplicates old held h.duplicates hrounds
    verbose
  rw [h.duplicates_addr] at hspec
  obtain ⟨result, heap, cells, hexec, ⟨duplicates', haddr, hstands, hkept, hlisted, rfl⟩, howns'⟩ :=
    exec_of_triple hspec howns fun _ =>
      (Label.record i, s.setThread i (.recorded entry.addr old.addr held.addr))
  rw [hexec]
  have hheap : Owns heap ((g.next i (old.cells + takenCells entry link) g.queue g.visited
      duplicates' g.lost).total s.queue) := by
    convert howns' using 1
    rw [Ghost.total_next]
    abel
  have hmoved := h.taken
  rw [sum_pool t.threads i unseen, htpc] at hmoved
  refine ⟨_, _, _, order, _, rfl, (List.append_nil _).symm,
    .cons (.record t i old.fm held.fm htpc) (.nil _),
    { h with
      owns := hheap
      duplicates_addr := haddr
      duplicates := hstands
      threads := h.holding hkept (.recorded entry link old held hlisted)
      taken := ?_ }⟩
  rw [← hmoved]
  change _ + ∑ j, unseen (Function.update t.threads i _ j) + _ + _ = _
  rw [taken_move]
  rfl

/-- The comparison of the clone ids, and the section under `metrics_mutex`. -/
theorem recorded_simulated (h : Represents env entries s t order g) {fe old fm : Addr}
    (hpc : s.threads i = .recorded fe old fm) :
    Simulated env entries t order (s.exec (cloneIdsDiffer old fm) fun differ =>
        (.found i,
          { s.setThread i (if differ then .reporting fe old fm else .releasing fe (some old)) with
            found := if differ then s.found + 1 else s.found })) := by
  have hold := h.threads i
  rw [hpc] at hold
  generalize htpc : t.threads i = tpc at hold
  generalize hlocal : g.locals i = cells at hold
  cases hold with
  | recorded entry link old held hlisted =>
  have howns : Owns s.heap (old.cells + g.duplicates.cells + (takenCells entry link +
      g.others i + entriesCells s.queue g.queue + g.visited.cells + g.lost)) := by
    convert h.owns using 1
    rw [g.total_eq s.queue i, hlocal]
    abel
  -- the record is read where the list keeps it
  have hspec := cloneIdsDiffer_spec old held (Multiset.le_add_right old.cells g.duplicates.cells)
    ((cells_le_of_mem_records hlisted).trans (Multiset.le_add_left _ _))
  obtain ⟨result, heap, cells, hexec, ⟨rfl, rfl⟩, howns'⟩ :=
    exec_of_triple hspec howns fun differ =>
      (Label.found i,
        { s.setThread i (if differ then .reporting entry.addr old.addr held.addr
            else .releasing entry.addr (some old.addr)) with
          found := if differ then s.found + 1 else s.found })
  rw [hexec]
  have hheap : Owns heap ((g.next i (old.cells + takenCells entry link) g.queue
      g.visited g.duplicates g.lost).total s.queue) := by
    convert howns' using 1
    rw [Ghost.total_next]
    abel
  have hnext : Holding env g.duplicates.records
      (if decide (held.fm.cloneId ≠ old.fm.cloneId) = true then
        .reporting entry.addr old.addr held.addr else .releasing entry.addr (some old.addr))
      .completing (old.cells + takenCells entry link) := by
    split
    · exact .reporting entry link old held hlisted
    · exact .releasing entry link (some old)
  have hmoved := h.taken
  rw [sum_pool t.threads i unseen, htpc] at hmoved
  refine ⟨_, _, _, order, _, rfl, (List.append_nil _).symm,
    .cons (.found t i old.fm held.fm htpc) (.nil _),
    { h with
      owns := hheap
      threads := h.holding (List.Subset.refl _) hnext
      found := ?_
      taken := ?_ }⟩
  · rw [← hmoved]
    change _ + ∑ j, unseen (Function.update t.threads i _ j) + _ + _ = _
    rw [taken_move]
    rfl
  · simp [countFound, h.found]

/-- What a very verbose run prints of a match. -/
theorem reporting_simulated (h : Represents env entries s t order g) (shown : Bool)
    {fe old fm : Addr} (hpc : s.threads i = .reporting fe old fm) :
    Simulated env entries t order (s.exec (printing shown (printMatch old fm)) fun _ =>
        (.report i, s.setThread i (.releasing fe (some old)))) := by
  have hold := h.threads i
  rw [hpc] at hold
  generalize htpc : t.threads i = tpc at hold
  generalize hlocal : g.locals i = cells at hold
  cases hold with
  | reporting entry link old held hlisted =>
  have hreleasing : Holding env g.duplicates.records (.releasing entry.addr (some old.addr))
      .completing (old.cells + takenCells entry link) := .releasing entry link (some old)
  rw [← hlocal] at hreleasing
  have hearlier : old.cells ≤ g.locals i + g.duplicates.cells := by
    rw [hlocal, add_assoc]
    exact Multiset.le_add_right _ _
  have hlater : held.cells ≤ g.locals i + g.duplicates.cells :=
    (cells_le_of_mem_records hlisted).trans (Multiset.le_add_left _ _)
  exact printing_simulated h htpc (printing_spec (printMatch_spec old held hearlier hlater))
    hreleasing

/-- What a thread frees by itself. -/
theorem release_spec (entry : HeldEntry) (link : Option Addr) (held : Option HeldRecord) :
    Triple (heldCells held + takenCells entry link)
      (release entry.addr (held.map HeldRecord.addr)) fun _ cells => cells = 0 := by
  cases held with
  | none =>
      rw [heldCells_none, zero_add]
      exact fileEntryFree_spec entry link
  | some held =>
      refine (freeMetadata_spec held).call _ rfl ?_
      rintro _ _ rfl
      rw [zero_add]
      exact fileEntryFree_spec entry link

theorem releasing_simulated (h : Represents env entries s t order g) {fe : Addr}
    {fm : Option Addr} (hpc : s.threads i = .releasing fe fm) :
    Simulated env entries t order (s.exec (release fe fm) fun _ =>
        (.release i, s.setThread i .completing)) := by
  have hold := h.threads i
  rw [hpc] at hold
  generalize htpc : t.threads i = tpc at hold
  generalize hlocal : g.locals i = cells at hold
  cases hold with
  | releasing entry link held =>
  have howns : Owns s.heap (heldCells held + takenCells entry link + (g.others i +
      entriesCells s.queue g.queue + g.visited.cells + g.duplicates.cells + g.lost)) := by
    convert h.owns using 1
    rw [g.total_eq s.queue i, hlocal]
    abel
  obtain ⟨result, heap, cells, hexec, rfl, howns'⟩ :=
    exec_of_triple (release_spec entry link held) howns fun _ =>
      (Label.release i, s.setThread i .completing)
  rw [hexec]
  have hheap : Owns heap ((g.next i 0 g.queue g.visited g.duplicates g.lost).total s.queue) := by
    convert howns' using 1
    rw [Ghost.total_next]
    abel
  have hself : Function.update t.threads i .completing = t.threads := by
    rw [← htpc, Function.update_eq_self]
  have hholding := h.holding (i := i) (List.Subset.refl _) .completing
  rw [hself] at hholding
  exact ⟨_, _, t, order, _, rfl, (List.append_nil _).symm, .nil _,
    { h with owns := hheap, threads := hholding }⟩

/-- No step of a thread faults, and each is the section that it stands for. -/
theorem threadStep_simulated (h : Represents env entries s t order g) {verbosity : Nat} (i : Fin n)
    {outcome : Except Heap.Fault (Label n × State n)}
    (hstep : threadStep env verbosity s i = some outcome) :
    Simulated env entries t order outcome := by
  have hold := h.threads i
  unfold threadStep at hstep
  cases hpc : s.threads i with
  | starting =>
      rw [hpc] at hold hstep
      generalize htpc : t.threads i = tpc at hold
      generalize hlocal : g.locals i = cells at hold
      cases hold
      obtain rfl := (Option.some.inj hstep).symm
      exact readDone_simulated h hlocal (by rw [htpc]; rfl) (.enter i) rfl rfl
        (.enter t i htpc)
  | popping =>
      rw [hpc] at hstep
      obtain rfl := (Option.some.inj hstep).symm
      exact popping_simulated h hpc
  | checking =>
      rw [hpc] at hold hstep
      generalize htpc : t.threads i = tpc at hold
      generalize hlocal : g.locals i = cells at hold
      cases hold
      obtain rfl := (Option.some.inj hstep).symm
      exact readDone_simulated h hlocal (by rw [htpc]; rfl) (.check i) rfl rfl
        (.check t i htpc)
  | visiting fe =>
      rw [hpc] at hstep
      obtain rfl := (Option.some.inj hstep).symm
      exact visiting_simulated h hpc
  | failed fe =>
      rw [hpc] at hstep
      obtain rfl := (Option.some.inj hstep).symm
      exact failed_simulated h hpc
  | scanned fe fm =>
      rw [hpc] at hstep
      obtain rfl := (Option.some.inj hstep).symm
      exact scanned_simulated h hpc
  | matched fe old fm =>
      rw [hpc] at hstep
      obtain rfl := (Option.some.inj hstep).symm
      exact matched_simulated h _ hpc
  | recorded fe old fm =>
      rw [hpc] at hstep
      obtain rfl := (Option.some.inj hstep).symm
      exact recorded_simulated h hpc
  | reporting fe old fm =>
      rw [hpc] at hstep
      obtain rfl := (Option.some.inj hstep).symm
      exact reporting_simulated h _ hpc
  | releasing fe fm =>
      rw [hpc] at hstep
      obtain rfl := (Option.some.inj hstep).symm
      exact releasing_simulated h hpc
  | completing =>
      rw [hpc] at hold hstep
      generalize htpc : t.threads i = tpc at hold
      generalize hlocal : g.locals i = cells at hold
      cases hold
      obtain rfl := (Option.some.inj hstep).symm
      have hmoved := (h.display fun p =>
        { p with completedUnitCount := p.completedUnitCount + 1 }).moved hlocal .popping
          (by change _ = unseen (t.threads i); rw [htpc]; rfl)
      exact ⟨_, _, _, order, _, rfl, (List.append_nil _).symm,
        .cons (.complete t i htpc) (.nil _), hmoved⟩
  | returned =>
      rw [hpc] at hstep
      cases hstep

/-- `file_entry_queue_append` under the queue's lock. -/
theorem appending_simulated (h : Represents env entries s t order g) {fe : FileEntry}
    {rest : List (Traversed FileEntry)} (hpc : s.main = .appending fe rest) :
    Simulated env entries t order (s.exec (fileEntryQueueAppend s.queue fe) fun _ =>
        (.append, { s with main := .reading rest })) := by
  have htpc : t.main = .appending fe rest := h.main.trans hpc
  have howns : Owns s.heap (entriesCells s.queue g.queue +
      (∑ j, g.locals j + g.visited.cells + g.duplicates.cells + g.lost)) := by
    convert h.owns using 1
    rw [Ghost.total]
    abel
  obtain ⟨result, heap, cells, hexec, ⟨entry, rfl, rfl⟩, howns'⟩ :=
    exec_of_triple (fileEntryQueueAppend_spec s.queue g.queue fe) howns fun _ =>
      (Label.append, { s with main := .reading rest })
  rw [hexec]
  have hheap : Owns heap (({ g with queue := g.queue ++ [entry] } : Ghost n).total s.queue) := by
    convert howns' using 1
    simp only [Ghost.total]
    abel
  refine ⟨_, _, _, order, _, rfl, (List.append_nil _).symm,
    .cons (.append t entry.fe rest htpc) (.nil _),
    { h with
      owns := hheap
      queue := by simp [h.queue]
      main := rfl
      taken := ?_ }⟩
  have htaken := h.taken
  rw [htpc] at htaken
  rw [← htaken, ← Multiset.coe_add, Multiset.coe_singleton]
  simp only [pending, ← Multiset.cons_coe, ← Multiset.singleton_add]
  abel

/-- No step of `main` faults, and each is the section that it stands for. -/
theorem mainStep_simulated (h : Represents env entries s t order g)
    {outcome : Except Heap.Fault (Label n × State n)} (hstep : mainStep s = some outcome) :
    Simulated env entries t order outcome := by
  unfold mainStep at hstep
  split at hstep
  case h_1 rest hpc =>
      obtain rfl := (Option.some.inj hstep).symm
      have htpc := h.main.trans hpc
      have htaken := h.taken
      rw [htpc] at htaken
      exact ⟨_, _, _, order, _, rfl, (List.append_nil _).symm,
        .cons (.readFailed t rest htpc) (.nil _),
        { h.display id with main := rfl, taken := htaken }⟩
  case h_2 fe rest hpc =>
      obtain rfl := (Option.some.inj hstep).symm
      have htpc := h.main.trans hpc
      have htaken := h.taken
      rw [htpc] at htaken
      exact ⟨_, _, _, order, _, rfl, (List.append_nil _).symm,
        .cons (.count t fe rest htpc) (.nil _),
        { h.display (fun p => { p with totalUnitCount := p.totalUnitCount + 1 }) with
          main := rfl
          taken := htaken }⟩
  case h_3 fe rest hpc =>
      obtain rfl := (Option.some.inj hstep).symm
      exact appending_simulated h hpc
  case h_4 hpc =>
      obtain rfl := (Option.some.inj hstep).symm
      have htpc := h.main.trans hpc
      have htaken := h.taken
      rw [htpc] at htaken
      exact ⟨_, _, _, order, _, rfl, (List.append_nil _).symm,
        .cons (.finish t htpc) (.nil _),
        { h with main := rfl, done := rfl, taken := htaken }⟩
  case h_5 => cases hstep

end Threads

/-! ### Whole runs -/

/-- The machine on the heap is the threaded scan. -/
theorem heapSimulation (env : ScanEnv) (verbosity : Nat) (entries : List (Traversed FileEntry)) :
    Simulation (Step (n := n) env verbosity) (ThreadedScan.Step env) sections
      fun s t => ∃ order g, Represents env entries s t order g := by
  rintro s label s' t hstep ⟨order, g, h⟩
  have hsimulated : Simulated env entries t order (.ok (label, s')) := by
    rcases hstep with hmain | ⟨i, hthread⟩
    · exact mainStep_simulated h hmain
    · exact threadStep_simulated h i hthread
  obtain ⟨_, _, t', order', g', heq, _, hrun, h'⟩ := hsimulated
  obtain ⟨rfl, rfl⟩ := Prod.mk.inj (Except.ok.inj heq)
  exact ⟨t', hrun, order', g', h'⟩

/-- Before the traversal there are the head of the queue and the two empty trees. -/
def Ghost.init : Ghost n where
  queue := []
  visited := { addr := started.1.2.1, children := [] }
  duplicates := { addr := started.1.2.2, nodes := [] }
  locals := fun _ => 0
  lost := 0

/-- The three blocks that `main` allocates. -/
theorem start_spec : Triple 0 start fun result cells =>
    cells = (result.2.2, .rbTree []) ::ₘ (result.2.1, .rbTree []) ::ₘ
      {(result.1, .queueHead none none)} := by
  refine Triple.malloc_then fun queue => ?_
  refine Triple.malloc_then fun visited => ?_
  exact Triple.malloc_then fun duplicates => Triple.pure rfl

theorem started_owns : Owns started.2 ((Ghost.init : Ghost n).total started.1.1) := by
  obtain ⟨result, heap, _, hrun, rfl, howns⟩ := start_spec Heap.empty 0
    (by rw [add_zero]; exact owns_empty)
  have hstarted : started = (result, heap) := by rw [started, hrun]
  have hlocals : ∑ i, (Ghost.init : Ghost n).locals i = 0 := Finset.sum_const_zero
  have htotal : (Ghost.init : Ghost n).total started.1.1 =
      {(started.1.1, .queueHead none none)} + {(started.1.2.1, .rbTree [])} +
        {(started.1.2.2, .rbTree [])} := by
    rw [Ghost.total, hlocals, zero_add]
    rfl
  rw [htotal, hstarted]
  convert howns using 1
  simp only [← Multiset.singleton_add]
  abel

theorem represents_init (env : ScanEnv) (entries : List (Traversed FileEntry))
    (progress : Option Progress) :
    Represents env entries (State.init (n := n) entries progress)
      (ThreadedScan.State.init entries progress) [] Ghost.init where
  owns := started_owns
  visited_addr := rfl
  duplicates_addr := rfl
  queue := rfl
  visited := by
    intro key
    have hleaf : Dedup.leaf newVisitedTree key = none := by simp [leaf, newVisitedTree]
    change Option.Rel LastAt.Stands none (Dedup.leaf newVisitedTree key)
    rw [hleaf]
    exact .none
  duplicates := ⟨List.Pairwise.nil, fun digest => Std.TreeMap.getElem?_emptyc⟩
  threads := fun _ => .starting
  inserted := rfl
  lost := rfl
  taken := by simp [ThreadedScan.State.init, unseen, pending]
  main := rfl
  done := rfl
  found := rfl
  progress := rfl
  displayed := rfl

/-- Every state of a run stands for one of the threaded scan. -/
theorem represents_run {env : ScanEnv} {verbosity : Nat} {entries : List (Traversed FileEntry)}
    {progress : Option Progress} {s : State n} {labels : List (Label n)}
    (run : Run (Step env verbosity) (State.init entries progress) labels s) :
    ∃ t order g, Run (ThreadedScan.Step env) (ThreadedScan.State.init entries progress)
      (labels.flatMap sections) t ∧ Represents env entries s t order g := by
  obtain ⟨t, trun, order, g, h⟩ :=
    (heapSimulation env verbosity entries).run run ⟨[], Ghost.init, represents_init env entries progress⟩
  exact ⟨t, order, g, trun, h⟩

theorem Represents.not_faults {env : ScanEnv} {entries : List (Traversed FileEntry)} {s : State n}
    {t : ThreadedScan.State n} {order : List FileEntry} {g : Ghost n}
    (h : Represents env entries s t order g) (verbosity : Nat) : ¬ Faults env verbosity s := by
  rintro ⟨fault, hmain | ⟨i, hthread⟩⟩
  · obtain ⟨_, _, _, _, _, heq, _⟩ := mainStep_simulated h hmain
    cases heq
  · obtain ⟨_, _, _, _, _, heq, _⟩ := threadStep_simulated h i hthread
    cases heq

/-! ### A run -/

/-- The steps of a schedule, in which `none` is `main`; there are none where one is missing or
faults. -/
def follow (env : ScanEnv) (verbosity : Nat) (s : State n) :
    List (Option (Fin n)) → Option (List (Label n) × State n)
  | [] => some ([], s)
  | turn :: schedule =>
      match turn.elim (mainStep s) (threadStep env verbosity s) with
      | some (.ok (label, s')) =>
          (follow env verbosity s' schedule).map fun (labels, t) => (label :: labels, t)
      | _ => none

theorem run_follow {env : ScanEnv} {verbosity : Nat} {s t : State n} {labels : List (Label n)}
    {schedule : List (Option (Fin n))} (h : follow env verbosity s schedule = some (labels, t)) :
    Run (Step env verbosity) s labels t := by
  induction schedule generalizing s labels with
  | nil =>
      obtain ⟨rfl, rfl⟩ := Prod.mk.inj (Option.some.inj h)
      exact .nil _
  | cons turn schedule ih =>
      unfold follow at h
      split at h
      · rename_i label s' hturn
        obtain ⟨⟨rest, u⟩, hrest, hpair⟩ := Option.map_eq_some_iff.mp h
        obtain ⟨rfl, rfl⟩ := Prod.mk.inj hpair
        refine .cons ?_ (ih hrest)
        cases turn with
        | none => exact .inl hturn
        | some i => exact .inr ⟨i, hturn⟩
      · cases h

/-- One-byte files with clone ids of their own; `c` cannot be read, and `x` not hashed. -/
def mixedEnv : ScanEnv :=
  { oneByteEnv with
    cloneId := fun path => some path.length
    firstFgetcOk := fun path => path ≠ ['c']
    openOk := fun path => path ≠ ['x'] }

/-- The file that cannot be hashed, two equal ones, the one that cannot be read, and one more. -/
def mixedEntries : List (Traversed FileEntry) :=
  [.eligible (oneByteFile 1 ['x']), .eligible (oneByteFile 1 ['a']), .eligible (oneByteFile 1 ['c']),
    .eligible (oneByteFile 1 ['a', 'b']), .eligible (oneByteFile 1 ['d'])]

/-- A bar that counts nothing yet. -/
def emptyBar : Progress :=
  { totalUnitCount := 0, completedUnitCount := 0 }

/-- Thread `i` visits the first four files, and finds the queue empty before the last one comes. -/
def mixedSchedule (i : Fin n) : List (Option (Fin n)) :=
  some i :: List.replicate 8 none ++ List.replicate 24 (some i) ++ [none, none, none, some i]

/-- The run by this schedule comes to its end, with an insertion, a match and what follows it. -/
theorem exists_mixedRun :
    ∃ labels s, Run (Step (n := 1) mixedEnv 2) (State.init mixedEntries (some emptyBar)) labels s ∧
      s.Returned ∧ .skip 0 ∈ labels ∧ .insert 0 ∈ labels ∧ .record 0 ∈ labels ∧
      .report 0 ∈ labels ∧ .release 0 ∈ labels := by
  have hend : ∃ run ∈ follow (n := 1) mixedEnv 2 (State.init mixedEntries (some emptyBar))
      (mixedSchedule 0), (run.2.main = .joining ∧ ∀ i, run.2.threads i = .returned) ∧
        .skip 0 ∈ run.1 ∧ .insert 0 ∈ run.1 ∧ .record 0 ∈ run.1 ∧ .report 0 ∈ run.1 ∧
        .release 0 ∈ run.1 := by
    decide +kernel
  obtain ⟨⟨labels, s⟩, hfollow, returned, hlabels⟩ := hend
  exact ⟨labels, s, run_follow hfollow, returned, hlabels⟩

/-! ### Memory safety -/

/-- No step of any schedule faults: no thread reads or writes a block that was freed, and none is
freed twice.  What the machine does on the heap is what the threaded scan does. -/
theorem heapScan_safe (env : ScanEnv) (verbosity : Nat) (entries : List (Traversed FileEntry))
    (progress : Option Progress) (s : State n) (labels : List (Label n))
    (run : Run (Step env verbosity) (State.init entries progress) labels s) :
    ¬ Faults env verbosity s ∧
      ∃ t order g, Run (ThreadedScan.Step env) (ThreadedScan.State.init entries progress)
        (labels.flatMap sections) t ∧ Represents env entries s t order g := by
  obtain ⟨t, order, g, trun, h⟩ := represents_run run
  exact ⟨h.not_faults verbosity, t, order, g, trun, h⟩

/-- A whole run of one thread, with a file that cannot be read, a match, the list of it and what is
given back. -/
theorem heapScan_safe_mixed :
    ∃ (labels : List (Label 1)) (s : State 1), .skip 0 ∈ labels ∧ .insert 0 ∈ labels ∧
      .record 0 ∈ labels ∧ .report 0 ∈ labels ∧ .release 0 ∈ labels ∧ s.Returned ∧
      ¬ Faults mixedEnv 2 s ∧
      ∃ t order g, Run (ThreadedScan.Step mixedEnv)
        (ThreadedScan.State.init mixedEntries (some emptyBar)) (labels.flatMap sections) t ∧
        Represents mixedEnv mixedEntries s t order g := by
  obtain ⟨labels, s, run, returned, hskip, hinsert, hrecord, hreport, hrelease⟩ := exists_mixedRun
  exact ⟨labels, s, hskip, hinsert, hrecord, hreport, hrelease, returned,
    heapScan_safe mixedEnv 2 mixedEntries (some emptyBar) s labels run⟩

end Dedup.HeapScan
