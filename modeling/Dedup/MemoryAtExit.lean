/-
Module: Dedup.MemoryAtExit
Purpose: What the process still holds when `main` returns.  From any end of a scan on, by threads or
  without them, no free and no access of `main` faults, the replacements are those of the model on
  the lists of the scan, and the blocks that were never given back are the files left in the queue,
  the paths that the visited tree lost and the streams that were left open: no others, whatever the
  scheduler did.
Imports: Dedup.CloneSafety, Dedup.DeduplicateOwnership, Dedup.SerialHeapScan
Trusted boundary: human-reviewed spec of the lock-protected sections as atomic steps
Main exports: finish_spec, Represents.returned, Leaks, Represents.ends, process_ends
-/
import Dedup.CloneSafety
import Dedup.DeduplicateOwnership
import Dedup.SerialHeapScan

namespace Dedup.HeapScan

open Heap ScanMemory TailQueue
open WorkQueue (Traversed Progress eligible pending)

variable {n : Nat}

/-- `main` from where the threads were joined gives back what hangs in the two trees and the head of
the queue, and does what the model does on the lists. -/
theorem finish_spec {W : Type} (calls : Calls W) (opts : Options) {fuel : Nat} (queue : Addr)
    (entries : List HeldEntry) {visited : TreeAt} {duplicates : DuplicatesAt} {tree : DuplicateTree}
    (hstands : duplicates.Stands tree) (hvisited : Multiset.card visited.cells ≤ fuel)
    (hduplicates : Multiset.card duplicates.cells ≤ fuel) (ctx : Context W) :
    Triple (entriesCells queue entries + visited.cells + duplicates.cells)
      (finish calls opts fuel queue visited.addr duplicates.addr ctx) fun result after =>
        result = deduplicateAll calls opts (duplicateSets tree) ctx ∧
          after = chainCells entries none := by
  have hhead : entriesCells queue entries + visited.cells + duplicates.cells =
      (queue, queueHead.pack (entries.head?.map Entry.addr) (entries.getLast?.map Entry.addr)) ::ₘ
        (visited.cells + (duplicates.cells + chainCells entries none)) := by
    simp only [entriesCells, queueCells, ← Multiset.singleton_add]
    abel
  refine Triple.free_then hhead ?_
  refine (freeVisitedTree_spec visited hvisited).call _ rfl ?_
  rintro _ _ rfl
  rw [zero_add]
  refine (deduplicateLists_spec calls hstands hduplicates ctx).call _ rfl ?_
  rintro _ _ ⟨rfl, rfl⟩
  refine (freeDuplicateTree_spec duplicates hduplicates).call _ rfl ?_
  rintro _ _ rfl
  exact Triple.pure ⟨rfl, zero_add _⟩

/-- The threads of the threaded scan have returned as well, and hold nothing. -/
theorem Represents.returned {env : ScanEnv} {entries : List (Traversed FileEntry)} {s : State n}
    {t : ThreadedScan.State n} {order : List FileEntry} {g : Ghost n}
    (h : Represents env entries s t order g) (returned : s.Returned) :
    t.main = .joining ∧ (∀ i, t.threads i = .returned) ∧ ∀ i, g.locals i = 0 := by
  have hheld : ∀ i, t.threads i = .returned ∧ g.locals i = 0 := by
    intro i
    have hold := h.threads i
    rw [returned.2 i] at hold
    generalize t.threads i = tpc at hold
    generalize g.locals i = cells at hold
    cases hold
    exact ⟨rfl, rfl⟩
  exact ⟨h.main.trans returned.1, fun i => (hheld i).1, fun i => (hheld i).2⟩

/-- What was never given back when `main` has visited the files of `order` and left those of `left`
in the queue: these entries, linked as they were, a string for the path of every file that the
visited tree lost, and the stream of every file that opened and could not be read. -/
def Leaks (env : ScanEnv) (order left : List FileEntry) (heap : Heap Block) : Prop :=
  ∃ (held : List HeldEntry) (lost : Multiset Cell),
    held.map HeldEntry.fe = left ∧ Owns heap (chainCells held none + lost) ∧
    lost.map Prod.snd =
      strings (superseded env (order.filterMap (metadataFromEntry env))) + streams env order

/-- From a state in which the threads are joined `main` comes to its end, on the lists of the
threaded scan. -/
theorem Represents.ends {env : ScanEnv} {entries : List (Traversed FileEntry)} {s : State n}
    {t : ThreadedScan.State n} {order : List FileEntry} {g : Ghost n}
    (h : Represents env entries s t order g) (returned : s.Returned) {W : Type} (calls : Calls W)
    (opts : Options) {fuel : Nat} (hfuel : s.heap.next ≤ fuel) (ctx : Context W) :
    ∃ heap, (finish calls opts fuel s.queue s.visited s.duplicates ctx).run s.heap =
        .ok (deduplicateAll calls opts (duplicateSets t.ctx.duplicates) ctx, heap) ∧
      Leaks env order t.queue heap := by
  obtain ⟨_, _, hlocals⟩ := h.returned returned
  have htotal : g.total s.queue =
      entriesCells s.queue g.queue + g.visited.cells + g.duplicates.cells + g.lost := by
    rw [Ghost.total, Finset.sum_eq_zero fun i _ => hlocals i, zero_add]
  have hcard := h.owns.card_le_next
  rw [htotal] at hcard
  simp only [Multiset.card_add] at hcard
  have howns := h.owns
  rw [htotal] at howns
  have hvisited : Multiset.card g.visited.cells ≤ fuel := le_trans (by omega) hfuel
  have hduplicates : Multiset.card g.duplicates.cells ≤ fuel := le_trans (by omega) hfuel
  have hspec := finish_spec calls opts s.queue g.queue h.duplicates hvisited hduplicates ctx
  rw [h.visited_addr, h.duplicates_addr] at hspec
  obtain ⟨_, heap, _, hrun, ⟨rfl, rfl⟩, hleft⟩ := hspec s.heap g.lost howns
  refine ⟨heap, hrun, g.queue, g.lost, h.queue.symm, hleft, ?_⟩
  rw [h.lost, insertions_lost]

/-- The files are visited, or still in the queue. -/
theorem Represents.perm {env : ScanEnv} {entries : List (Traversed FileEntry)} {s : State n}
    {t : ThreadedScan.State n} {order : List FileEntry} {g : Ghost n}
    (h : Represents env entries s t order g) (returned : s.Returned) :
    (order ++ t.queue).Perm (eligible entries) := by
  obtain ⟨hmain, hthreads, _⟩ := h.returned returned
  have htaken := h.taken
  rw [hmain, Finset.sum_eq_zero fun i _ => by rw [hthreads i]; rfl] at htaken
  rw [← Multiset.coe_eq_coe, ← Multiset.coe_add, ← htaken]
  simp [pending]

/-- `main` comes to its end from every end of a scan: it reports and replaces what the model does on
the lists of the scan, and what it leaves on the heap is exactly told.  With threads this holds
whatever the scheduler did; without them no step before faults either, and every file has been
visited, in the order of the traversal. -/
theorem process_ends (env : ScanEnv) (verbosity : Nat) (entries : List (Traversed FileEntry))
    (progress : Option Progress) {W : Type} (calls : Calls W) (opts : Options) (ctx : Context W) :
    (∀ (n : Nat) (s : State n) (labels : List (Label n)),
      Run (Step env verbosity) (State.init entries progress) labels s → s.Returned →
      ∀ fuel, s.heap.next ≤ fuel →
      ∃ (t : ThreadedScan.State n) (order : List FileEntry) (heap : Heap Block),
        Run (ThreadedScan.Step env) (ThreadedScan.State.init entries progress)
          (labels.flatMap sections) t ∧ t.main = .joining ∧ (∀ i, t.threads i = .returned) ∧
        (finish calls opts fuel s.queue s.visited s.duplicates ctx).run s.heap =
          .ok (deduplicateAll calls opts (duplicateSets t.ctx.duplicates) ctx, heap) ∧
        (order ++ t.queue).Perm (eligible entries) ∧ Leaks env order t.queue heap) ∧
    (∀ (s : State 1) (labels : List (Label 1)),
      Run (SerialStep env verbosity) (State.serialInit entries progress) labels s →
      (∀ fault, serialStep env verbosity s ≠ some (.error fault)) ∧
      (s.Returned → ∀ fuel, s.heap.next ≤ fuel → ∃ heap : Heap Block,
        (finish calls opts fuel s.queue s.visited s.duplicates ctx).run s.heap =
          .ok (deduplicateAll calls opts
            (duplicateSets (visitAll env (eligible entries)).duplicates) ctx, heap) ∧
        Leaks env (eligible entries) [] heap)) := by
  refine ⟨fun n s labels run returned fuel hfuel => ?_, fun s labels run => ⟨?_, ?_⟩⟩
  · obtain ⟨t, order, g, trun, h⟩ := represents_run run
    obtain ⟨hmain, hthreads, _⟩ := h.returned returned
    obtain ⟨heap, hrun, leaks⟩ := h.ends returned calls opts hfuel ctx
    exact ⟨t, order, heap, trun, hmain, hthreads, hrun, h.perm returned, leaks⟩
  · exact serialScan_safe run
  · intro returned fuel hfuel
    obtain ⟨t, order, g, h, hserial⟩ := serialRepresents_run run
    obtain ⟨hmain, hthreads, _⟩ := h.returned returned
    obtain ⟨hqueue, rfl, hctx⟩ := hserial.returned hmain (hthreads 0)
    obtain ⟨heap, hrun, leaks⟩ := h.ends returned calls opts hfuel ctx
    rw [hctx] at hrun
    rw [hqueue] at leaks
    exact ⟨heap, hrun, leaks⟩

/-- By one thread the last file is left in the queue; without threads every file is visited.  Both
runs lose the path of the file that cannot be hashed, and the stream of the one that cannot be
read. -/
theorem process_ends_mixed :
    ∃ ctx : Context CloneWorld,
      (∃ (s : State 1) (t : ThreadedScan.State 1) (order : List FileEntry) (heap : Heap Block),
        s.Returned ∧
        (finish idealCalls cloneOptions s.heap.next s.queue s.visited s.duplicates ctx).run s.heap =
          .ok (deduplicateAll idealCalls cloneOptions (duplicateSets t.ctx.duplicates) ctx, heap) ∧
        Leaks mixedEnv order t.queue heap) ∧
      ∃ (s : State 1) (heap : Heap Block), s.Returned ∧
        (finish idealCalls cloneOptions s.heap.next s.queue s.visited s.duplicates ctx).run s.heap =
          .ok (deduplicateAll idealCalls cloneOptions
            (duplicateSets (visitAll mixedEnv (eligible mixedEntries)).duplicates) ctx, heap) ∧
        Leaks mixedEnv (eligible mixedEntries) [] heap := by
  let ctx : Context CloneWorld :=
    { saved := 0, alreadySaved := 0, reports := [],
      world := { cloneId := fun _ => 1, calls := [] } }
  obtain ⟨threaded, serial⟩ := process_ends mixedEnv 2 mixedEntries (some emptyBar) idealCalls
    cloneOptions ctx
  obtain ⟨labels, s, run, returned, _⟩ := exists_mixedRun
  obtain ⟨t, order, heap, _, _, _, hrun, _, leaks⟩ :=
    threaded 1 s labels run returned s.heap.next le_rfl
  obtain ⟨labels', s', run', returned'⟩ := exists_mixedSerialRun
  obtain ⟨heap', hrun', leaks'⟩ := (serial s' labels' run').2 returned' s'.heap.next le_rfl
  exact ⟨ctx, ⟨s, t, order, heap, returned, hrun, leaks⟩, s', heap', returned', hrun', leaks'⟩

end Dedup.HeapScan
