/-
Module: Dedup.DeduplicateMemory
Purpose: `deduplicate` on the heap of the process: its loops over a list of pointers, the tree of
  clone ids, whose nodes point to records that the list owns, and the replacement loop, which tells
  the origin from the other files by its pointer.
Imports: Dedup.Deduplicate, Dedup.ScanMemory
Trusted boundary: as for the scan on the heap; counters that do not overflow
Main exports: readMember, moreHardlinks, cloneIdTreeIncrement, cloneIdTreeMax, freeCloneIdCounts,
  selectAmongClones, deduplicate, deduplicateLists
-/
import Dedup.Deduplicate
import Dedup.ScanMemory

namespace Dedup.ScanMemory

open Heap IntrusiveTree

/-! ### Elements of a list -/

/-- What is read through a pointer to a record.  An element is told apart by its address. -/
def readMember (fm : Addr) : Prog Block Member := do
  let record ← loadAs Block.metadata? fm
  let path ← loadAs Block.path? record.path
  return { index := fm, fm := record.read path }

/-- The paths of a list from `i` on. -/
def pathsFrom (fuel : Nat) (list : Addr) (i : Nat) : Prog Block (List Path) :=
  forElements list (fun paths fm => do
    return .yield (paths ++ [(← readMember fm).fm.path])) i [] fuel

/-! ### The choice of the origin -/

/-- One turn of the first loop of `deduplicate`. -/
def moreHardlinks (origin : Option Addr) (fm : Addr) : Prog Block (ForInStep (Option Addr)) := do
  let record ← loadAs Block.metadata? fm
  match origin with
  | none => return .yield (if record.nlink > 1 then some fm else none)
  | some best => do
      let bestRecord ← loadAs Block.metadata? best
      return .yield
        (if record.nlink > 1 ∧ bestRecord.nlink < record.nlink then some fm else some best)

/-- `clone_id_tree_increment`; the node points to the first element with its id. -/
def cloneIdTreeIncrement (tree fm : Addr) : Prog Block Unit := do
  let record ← loadAs Block.metadata? fm
  let node ← findOrCreate treeRoot Block.idCountKey tree record.cloneId
    (.idCountNode record.cloneId 0 fm)
  let (id, count, first) ← loadAs Block.idCountNode? node
  store node (.idCountNode id (count + 1) first)

/-- One turn of the loop of `clone_id_tree_max`. -/
def moreClones (best : Option Addr × Nat) (node : Addr) : Prog Block (Option Addr × Nat) := do
  let (_, count, first) ← loadAs Block.idCountNode? node
  return if count > best.2 then (some first, count) else best

/-- `clone_id_tree_max`. -/
def cloneIdTreeMax (tree : Addr) : Prog Block (Option Addr) := do
  let (fm, _) ← forEach treeRoot moreClones (none, 0) tree
  return fm

/-- `free_clone_id_counts`. -/
def freeCloneIdCounts (fuel : Nat) (tree : Addr) : Prog Block Unit := do
  drain treeRoot Block.idCountKey free tree fuel
  free tree

section Program

variable {W : Type}

/-- What is done where all clone ids are equal. -/
def reportAlreadyCloned (opts : Options) (fuel : Nat) (list : Addr) (ctx : Context W) :
    Prog Block (Context W) := do
  match (← alistGet list 0) with
  | none => fail .dangling
  | some origin => do
      let origin ← readMember origin
      let ctx := ctx.addAlreadySaved (origin.fm.size * ((← alistSize list) - 1))
      if opts.verbosity > 0 then
        return ctx.report (.alreadyClonedTo origin.fm.path (← pathsFrom fuel list 1))
      else return ctx

/-- One turn of the loop that looks for a file that is not compressed. -/
def skipCompressed (opts : Options) (locals : Option Addr × Context W) (fm : Addr) :
    Prog Block (ForInStep (Option Addr × Context W)) := do
  let m ← readMember fm
  let (_, ctx) := locals
  if m.fm.compressed then
    return .yield
      (none, if opts.verbosity > 1 then ctx.report (.foundCompressed m.fm.path) else ctx)
  else return .done (some fm, ctx)

/-- What is reported where all files are compressed. -/
def reportAllCompressed (opts : Options) (fuel : Nat) (list : Addr) (ctx : Context W) :
    Prog Block (Context W) := do
  if opts.verbosity > 0 then return ctx.report (.allCompressed (← pathsFrom fuel list 0))
  else return ctx

/-- The choice where no file has several links, with the counts of the clone ids; there is none
where `deduplicate` returns at once. -/
def selectAmongClones (opts : Options) (fuel : Nat) (list : Addr) (ctx : Context W) :
    Prog Block (Option (Addr × Reason) × Context W) := do
  let cloneCounts ← newTree
  forElements list (fun _ fm => do
    cloneIdTreeIncrement cloneCounts fm
    return .yield ()) 0 () fuel
  if (← count treeRoot cloneCounts) = 1 then do
    let ctx ← reportAlreadyCloned opts fuel list ctx
    freeCloneIdCounts fuel cloneCounts
    return (none, ctx)
  else if (← count treeRoot cloneCounts) = (← alistSize list) then do
    match (← forElements list (skipCompressed opts) 0 (none, ctx) fuel) with
    | (some origin, ctx) => do
        freeCloneIdCounts fuel cloneCounts
        return (some (origin, .firstSeen), ctx)
    | (none, ctx) => do
        let ctx ← reportAllCompressed opts fuel list ctx
        freeCloneIdCounts fuel cloneCounts
        return (none, ctx)
  else do
    let origin ← cloneIdTreeMax cloneCounts
    freeCloneIdCounts fuel cloneCounts
    match origin with
    | none => fail .dangling
    | some origin => return (some (origin, .mostClones), ctx)

/-! ### The replacement loop -/

/-- One turn of the replacement loop, which reads the origin and the element through their pointers;
`fm == origin` compares these. -/
def replaceElement (calls : Calls W) (opts : Options) (origin : Addr) (originCloneId : Nat)
    (ctx : Context W) (fm : Addr) : Prog Block (ForInStep (Context W)) := do
  let originMember ← readMember origin
  let m ← readMember fm
  return .yield (replaceMember calls opts originMember originCloneId ctx m)

/-- `deduplicate` from where the origin is known. -/
def replaceElements (calls : Calls W) (opts : Options) (fuel : Nat) (list origin : Addr)
    (reason : Reason) (ctx : Context W) : Prog Block (Context W) := do
  let originMember ← readMember origin
  let ctx := ctx.report (.using originMember.fm.path reason)
  let (originCloneId, world) := calls.getCloneId originMember.fm.path ctx.world
  forElements list (replaceElement calls opts origin originCloneId) 0 { ctx with world := world }
    fuel

/-- `deduplicate`; `fuel` bounds the rounds of each loop. -/
def deduplicate (calls : Calls W) (opts : Options) (fuel : Nat) (list : Addr) (ctx : Context W) :
    Prog Block (Context W) := do
  match (← forElements list moreHardlinks 0 none fuel) with
  | some origin => replaceElements calls opts fuel list origin .mostHardlinks ctx
  | none => do
      match (← selectAmongClones opts fuel list ctx) with
      | (none, ctx) => return ctx
      | (some (origin, reason), ctx) => replaceElements calls opts fuel list origin reason ctx

/-- The loop of `main` over the duplicate tree. -/
def deduplicateLists (calls : Calls W) (opts : Options) (fuel : Nat) (tree : Addr)
    (ctx : Context W) : Prog Block (Context W) :=
  forEach treeRoot (fun ctx node => do
    let (_, list) ← loadAs Block.listNode? node
    deduplicate calls opts fuel list ctx) ctx tree

end Program

end Dedup.ScanMemory
