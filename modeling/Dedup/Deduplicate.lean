/-
Module: Dedup.Deduplicate
Purpose: `deduplicate` of `dedup.c`: the choice of the origin and the replacement loop, with its
  accounting and its reports, over an abstract world in which the replacements and the reads of
  clone ids act.
Imports: Dedup.OriginSelection
Trusted boundary: counters that do not overflow; the list holds distinct pointers
Main exports: ReplaceMode, Options, Calls, Context, Treatment, treatment, replaceMember,
  deduplicate, deduplicateAll, EveryReplacement, deduplicateAll_keeps_of_meets,
  deduplicateAll_keeps, ContextKeeps, deduplicateAll_context
-/
import Dedup.OriginSelection

namespace Dedup

/-- `ReplaceMode`. -/
inductive ReplaceMode where
  | clone
  | link
  | symlink
deriving DecidableEq, Repr

/-- The fields of `DedupContext` that configure `deduplicate`. -/
structure Options where
  replaceMode : ReplaceMode
  force : Bool
  dryRun : Bool
  preserveParentMtime : Bool
  verbosity : Nat
deriving DecidableEq, Repr

/-- The calls `deduplicate` makes into a world of type `W`; an `Int` is a C status. -/
structure Calls (W : Type) where
  getCloneId : Path → W → Nat × W
  privateSize : Path → W → Nat × W
  replaceWithClone : Path → Path → Bool → W → Int × W
  replaceWithLink : Path → Path → W → Int × W
  replaceWithSymlink : Path → Path → W → Int × W

/-- The lines `deduplicate` prints. -/
inductive Report where
  | alreadyClonedTo (origin : Path) (others : List Path)
  | foundCompressed (path : Path)
  | allCompressed (paths : List Path)
  | using (origin : Path) (reason : Reason)
  | skippingHardlinked (path : Path)
  | skippingAlreadyCloned (path : Path)
  | skippingImmutable (path : Path)
  | cloningTo (path : Path)
  | couldNotClone (path : Path)
  | clonedTo (path : Path)
  | notClonedButClone (path : Path)
  | notCloned (path : Path)
deriving DecidableEq, Repr

/-- The fields of `DedupContext` that `deduplicate` updates, the lines printed so far, and the
world. -/
structure Context (W : Type) where
  saved : Nat
  alreadySaved : Nat
  reports : List Report
  world : W

namespace Context

variable {W : Type}

/-- Print a line. -/
def report (ctx : Context W) (line : Report) : Context W :=
  { ctx with reports := ctx.reports ++ [line] }

/-- `ctx->saved += size`. -/
def addSaved (ctx : Context W) (size : Nat) : Context W :=
  { ctx with saved := ctx.saved + size }

/-- `ctx->already_saved += size`. -/
def addAlreadySaved (ctx : Context W) (size : Nat) : Context W :=
  { ctx with alreadySaved := ctx.alreadySaved + size }

@[simp] theorem report_world (ctx : Context W) (line : Report) :
    (ctx.report line).world = ctx.world := rfl

@[simp] theorem report_saved (ctx : Context W) (line : Report) :
    (ctx.report line).saved = ctx.saved := rfl

@[simp] theorem report_alreadySaved (ctx : Context W) (line : Report) :
    (ctx.report line).alreadySaved = ctx.alreadySaved := rfl

@[simp] theorem addSaved_world (ctx : Context W) (size : Nat) :
    (ctx.addSaved size).world = ctx.world := rfl

@[simp] theorem addSaved_saved (ctx : Context W) (size : Nat) :
    (ctx.addSaved size).saved = ctx.saved + size := rfl

@[simp] theorem addSaved_alreadySaved (ctx : Context W) (size : Nat) :
    (ctx.addSaved size).alreadySaved = ctx.alreadySaved := rfl

@[simp] theorem addAlreadySaved_world (ctx : Context W) (size : Nat) :
    (ctx.addAlreadySaved size).world = ctx.world := rfl

@[simp] theorem addAlreadySaved_saved (ctx : Context W) (size : Nat) :
    (ctx.addAlreadySaved size).saved = ctx.saved := rfl

@[simp] theorem addAlreadySaved_alreadySaved (ctx : Context W) (size : Nat) :
    (ctx.addAlreadySaved size).alreadySaved = ctx.alreadySaved + size := rfl

end Context

/-! ### The replacement loop -/

/-- What the loop does with an element before it replaces anything. -/
inductive Treatment where
  | isOrigin
  | skipHardlinked
  | skipAlreadyCloned
  | skipImmutable
  | replace
deriving DecidableEq, Repr

/-- The tests at the head of the loop. -/
def treatment (opts : Options) (origin m : Member) : Treatment :=
  if m.index = origin.index then .isOrigin
  else if !opts.force && m.fm.nlink > 1 then .skipHardlinked
  else if (opts.replaceMode = .clone && m.fm.cloneId = origin.fm.cloneId) ||
      (opts.replaceMode = .link && m.fm.inode = origin.fm.inode) then .skipAlreadyCloned
  else if m.fm.immutable then .skipImmutable
  else .replace

/-- What is replaced has one link, unless it is forced, and is not immutable. -/
theorem of_treatment_replace {opts : Options} {origin m : Member}
    (h : treatment opts origin m = .replace) :
    (opts.force = true ∨ m.fm.nlink ≤ 1) ∧ m.fm.immutable = false := by
  unfold treatment at h
  by_cases hindex : m.index = origin.index
  · simp [hindex] at h
  · rw [if_neg hindex] at h
    split at h
    · simp at h
    · rename_i hlinks
      split at h
      · simp at h
      · split at h
        · simp at h
        · rename_i himmutable
          simp only [Bool.and_eq_true, Bool.not_eq_true', decide_eq_true_eq, not_and,
            not_lt] at hlinks
          refine ⟨?_, by simpa using himmutable⟩
          cases hforce : opts.force with
          | true => exact .inl rfl
          | false => exact .inr (hlinks hforce)

section Loop

variable {W : Type}

/-- The `switch` on the replace mode. -/
def callReplacement (calls : Calls W) (opts : Options) (src dst : Path) : W → Int × W :=
  match opts.replaceMode with
  | .clone => calls.replaceWithClone src dst opts.preserveParentMtime
  | .link => calls.replaceWithLink src dst
  | .symlink => calls.replaceWithSymlink src dst

/-- The end of a turn after a replacement that reported success: in clone mode the clone id is
read again, and a file that did not get the origin's is not counted as saved. -/
def accountReplaced (calls : Calls W) (opts : Options) (originCloneId : Nat)
    (fm : FileMetadata) (ctx : Context W) : Context W :=
  if opts.replaceMode = .clone then
    let (cloneId, world) := calls.getCloneId fm.path ctx.world
    let ctx := { ctx with world := world }
    if originCloneId ≠ cloneId then
      let (size, world) := calls.privateSize fm.path ctx.world
      let ctx := { ctx with world := world }
      if size = 0 then (ctx.report (.notClonedButClone fm.path)).addAlreadySaved fm.size
      else ctx.report (.notCloned fm.path)
    else ctx.addSaved fm.size
  else ctx.addSaved fm.size

/-- A replacement and its accounting. -/
def performReplacement (calls : Calls W) (opts : Options) (origin : Member)
    (originCloneId : Nat) (fm : FileMetadata) (ctx : Context W) : Context W :=
  let (result, world) := callReplacement calls opts origin.fm.path fm.path ctx.world
  let ctx := { ctx with world := world }
  if result ≠ 0 then ctx.report (.couldNotClone fm.path)
  else accountReplaced calls opts originCloneId fm (ctx.report (.clonedTo fm.path))

/-- One turn of the replacement loop. -/
def replaceMember (calls : Calls W) (opts : Options) (origin : Member) (originCloneId : Nat)
    (ctx : Context W) (m : Member) : Context W :=
  match treatment opts origin m with
  | .isOrigin => ctx
  | .skipHardlinked => (ctx.report (.skippingHardlinked m.fm.path)).addAlreadySaved m.fm.size
  | .skipAlreadyCloned =>
      (ctx.report (.skippingAlreadyCloned m.fm.path)).addAlreadySaved m.fm.size
  | .skipImmutable => ctx.report (.skippingImmutable m.fm.path)
  | .replace =>
      if opts.dryRun then (ctx.report (.cloningTo m.fm.path)).addSaved m.fm.size
      else performReplacement calls opts origin originCloneId m.fm ctx

/-- The replacement loop: the origin's clone id is read once, before it. -/
def replaceMembers (calls : Calls W) (opts : Options) (ms : List Member) (origin : Member)
    (ctx : Context W) : Context W :=
  let (originCloneId, world) := calls.getCloneId origin.fm.path ctx.world
  ms.foldl (replaceMember calls opts origin originCloneId) { ctx with world := world }

/-- The lines about the choice that only a verbose run prints. -/
def selectionReports (opts : Options) (ms : List Member) : Selection → List Report
  | .alreadyCloned =>
      match ms with
      | first :: rest =>
          if opts.verbosity > 0 then
            [.alreadyClonedTo first.fm.path (rest.map fun m => m.fm.path)]
          else []
      | [] => []
  | .origin _ .firstSeen =>
      if opts.verbosity > 1 then
        (ms.takeWhile fun m => m.fm.compressed).map fun m => .foundCompressed m.fm.path
      else []
  | .origin _ _ => []
  | .allCompressed =>
      (if opts.verbosity > 1 then ms.map fun m => .foundCompressed m.fm.path else []) ++
        (if opts.verbosity > 0 then [.allCompressed (ms.map fun m => m.fm.path)] else [])

/-- `deduplicate`. -/
def deduplicate (calls : Calls W) (opts : Options) (list : List FileMetadata)
    (ctx : Context W) : Context W :=
  let ms := members list
  let selection := selectOrigin ms
  let ctx := { ctx with reports := ctx.reports ++ selectionReports opts ms selection }
  match selection with
  | .alreadyCloned =>
      match ms with
      | first :: rest => ctx.addAlreadySaved (first.fm.size * rest.length)
      | [] => ctx
  | .allCompressed => ctx
  | .origin origin reason =>
      replaceMembers calls opts ms origin (ctx.report (.using origin.fm.path reason))

/-- The loop of `main` over the duplicate sets. -/
def deduplicateAll (calls : Calls W) (opts : Options) (lists : List (List FileMetadata))
    (ctx : Context W) : Context W :=
  lists.foldl (fun ctx list => deduplicate calls opts list ctx) ctx

end Loop

/-! ### The replacements that a run makes -/

section Replacements

variable {W : Type}

/-- The context in which the loop over a list starts. -/
def loopStart (opts : Options) (list : List FileMetadata) (origin : Member) (reason : Reason)
    (ctx : Context W) : Context W :=
  Context.report
    { ctx with
      reports := ctx.reports ++ selectionReports opts (members list) (.origin origin reason) }
    (.using origin.fm.path reason)

theorem deduplicate_of_selection (calls : Calls W) {opts : Options} {list : List FileMetadata}
    {origin : Member} {reason : Reason}
    (hselection : selectOrigin (members list) = .origin origin reason) (ctx : Context W) :
    deduplicate calls opts list ctx =
      replaceMembers calls opts (members list) origin (loopStart opts list origin reason ctx) := by
  simp only [deduplicate, hselection, loopStart]

/-- A loop over one element more takes one turn more. -/
theorem replaceMembers_append_singleton (calls : Calls W) (opts : Options) (ms : List Member)
    (origin m : Member) (ctx : Context W) :
    replaceMembers calls opts (ms ++ [m]) origin ctx =
      replaceMember calls opts origin (calls.getCloneId origin.fm.path ctx.world).1
        (replaceMembers calls opts ms origin ctx) m := by
  simp [replaceMembers, List.foldl_append]

theorem deduplicateAll_append_singleton (calls : Calls W) (opts : Options)
    (lists : List (List FileMetadata)) (list : List FileMetadata) (ctx : Context W) :
    deduplicateAll calls opts (lists ++ [list]) ctx =
      deduplicate calls opts list (deduplicateAll calls opts lists ctx) := by
  simp [deduplicateAll, List.foldl_append]

/-- A condition holds before every replacement of the loop, in the world that the turns before it
leave. -/
def LoopMeets (calls : Calls W) (opts : Options) (condition : Path → Path → W → Prop)
    (origin : Member) (ms : List Member) (ctx : Context W) : Prop :=
  ∀ earlier m later, ms = earlier ++ m :: later → treatment opts origin m = .replace →
    opts.dryRun = false →
      condition origin.fm.path m.fm.path (replaceMembers calls opts earlier origin ctx).world

/-- It holds before every replacement of a list. -/
def ListMeets (calls : Calls W) (opts : Options) (condition : Path → Path → W → Prop)
    (list : List FileMetadata) (ctx : Context W) : Prop :=
  ∀ origin reason, selectOrigin (members list) = .origin origin reason →
    LoopMeets calls opts condition origin (members list) (loopStart opts list origin reason ctx)

/-- It holds before every replacement of a run. -/
def EveryReplacement (calls : Calls W) (opts : Options) (condition : Path → Path → W → Prop)
    (lists : List (List FileMetadata)) (ctx : Context W) : Prop :=
  ∀ earlier list later, lists = earlier ++ list :: later →
    ListMeets calls opts condition list (deduplicateAll calls opts earlier ctx)

end Replacements

/-! ### Invariants of the world -/

section Invariant

variable {W : Type} {calls : Calls W} {opts : Options} {condition : Path → Path → W → Prop}
  {I : W → Prop}

/-- The reads of a run keep an invariant of the world. -/
structure ReadsKeep (calls : Calls W) (I : W → Prop) : Prop where
  getCloneId : ∀ path world, I world → I (calls.getCloneId path world).2
  privateSize : ∀ path world, I world → I (calls.privateSize path world).2

/-- So do the replacements of a list that meet a condition, where the loop makes them. -/
def ReplacementsKeepWhere (calls : Calls W) (opts : Options) (condition : Path → Path → W → Prop)
    (I : W → Prop) (list : List FileMetadata) : Prop :=
  ∀ origin ∈ members list, ∀ m ∈ members list, treatment opts origin m = .replace →
    opts.dryRun = false → ∀ world, I world → condition origin.fm.path m.fm.path world →
      I (callReplacement calls opts origin.fm.path m.fm.path world).2

/-- So do all replacements of a list. -/
def ReplacementsKeep (calls : Calls W) (opts : Options) (I : W → Prop)
    (list : List FileMetadata) : Prop :=
  ∀ origin ∈ members list, ∀ m ∈ members list, treatment opts origin m = .replace →
    opts.dryRun = false → ∀ world, I world →
      I (callReplacement calls opts origin.fm.path m.fm.path world).2

theorem accountReplaced_keeps (reads : ReadsKeep calls I) (originCloneId : Nat)
    (fm : FileMetadata) {ctx : Context W} (h : I ctx.world) :
    I (accountReplaced calls opts originCloneId fm ctx).world := by
  have hread := reads.getCloneId fm.path ctx.world h
  unfold accountReplaced
  split
  · simp only
    split
    · split
      · exact reads.privateSize fm.path _ hread
      · exact reads.privateSize fm.path _ hread
    · exact hread
  · exact h

theorem replaceMember_keeps (reads : ReadsKeep calls I) {list : List FileMetadata}
    (replacements : ReplacementsKeepWhere calls opts condition I list) {origin m : Member}
    (horigin : origin ∈ members list) (hm : m ∈ members list) (originCloneId : Nat)
    {ctx : Context W} (h : I ctx.world)
    (meets : treatment opts origin m = .replace → opts.dryRun = false →
      condition origin.fm.path m.fm.path ctx.world) :
    I (replaceMember calls opts origin originCloneId ctx m).world := by
  unfold replaceMember
  cases htreatment : treatment opts origin m with
  | isOrigin => exact h
  | skipHardlinked => exact h
  | skipAlreadyCloned => exact h
  | skipImmutable => exact h
  | replace =>
      simp only [performReplacement]
      split
      · exact h
      · rename_i hdry
        have hwet : opts.dryRun = false := by simpa using hdry
        have hreplaced := replacements origin horigin m hm htreatment hwet ctx.world h
          (meets htreatment hwet)
        split
        · exact hreplaced
        · exact accountReplaced_keeps reads originCloneId m.fm hreplaced

/-- The turns of the loop, the last one last. -/
theorem replaceMembers_keeps (reads : ReadsKeep calls I) {list : List FileMetadata}
    (replacements : ReplacementsKeepWhere calls opts condition I list) {origin : Member}
    (horigin : origin ∈ members list) {ctx : Context W} (h : I ctx.world) {ms : List Member}
    (hms : ms ⊆ members list) (meets : LoopMeets calls opts condition origin ms ctx) :
    I (replaceMembers calls opts ms origin ctx).world := by
  induction ms using List.reverseRecOn with
  | nil => exact reads.getCloneId origin.fm.path ctx.world h
  | append_singleton ms m ih =>
      rw [replaceMembers_append_singleton]
      have hbefore : LoopMeets calls opts condition origin ms ctx := by
        intro earlier m' later hsplit
        exact meets earlier m' (later ++ [m]) (by simp [hsplit])
      exact replaceMember_keeps reads replacements horigin (hms (by simp)) _
        (ih (fun m' hm' => hms (List.mem_append_left _ hm')) hbefore)
        (meets ms m [] rfl)

theorem deduplicate_keeps (reads : ReadsKeep calls I) {list : List FileMetadata}
    (replacements : ReplacementsKeepWhere calls opts condition I list) {ctx : Context W}
    (h : I ctx.world) (meets : ListMeets calls opts condition list ctx) :
    I (deduplicate calls opts list ctx).world := by
  cases hselection : selectOrigin (members list) with
  | alreadyCloned =>
      simp only [deduplicate, hselection]
      cases members list <;> exact h
  | allCompressed =>
      simp only [deduplicate, hselection]
      exact h
  | origin origin reason =>
      rw [deduplicate_of_selection calls hselection]
      have hstart : I (loopStart opts list origin reason ctx).world := h
      exact replaceMembers_keeps reads replacements (mem_of_selectOrigin hselection) hstart
        (List.Subset.refl _) (meets origin reason hselection)

/-- A run whose replacements all meet a condition keeps an invariant, if its reads do and such
replacements do. -/
theorem deduplicateAll_keeps_of_meets (reads : ReadsKeep calls I)
    {lists : List (List FileMetadata)}
    (replacements : ∀ list ∈ lists, ReplacementsKeepWhere calls opts condition I list)
    {ctx : Context W} (meets : EveryReplacement calls opts condition lists ctx)
    (h : I ctx.world) : I (deduplicateAll calls opts lists ctx).world := by
  induction lists using List.reverseRecOn with
  | nil => exact h
  | append_singleton lists list ih =>
      rw [deduplicateAll_append_singleton]
      have hbefore : EveryReplacement calls opts condition lists ctx := by
        intro earlier list' later hsplit
        exact meets earlier list' (later ++ [list]) (by simp [hsplit])
      exact deduplicate_keeps reads (replacements list (by simp))
        (ih (fun list' hlist' => replacements list' (List.mem_append_left _ hlist')) hbefore)
        (meets lists list [] rfl)

/-- A run over lists that all keep an invariant keeps it. -/
theorem deduplicateAll_keeps (reads : ReadsKeep calls I) {lists : List (List FileMetadata)}
    (replacements : ∀ list ∈ lists, ReplacementsKeep calls opts I list) {ctx : Context W}
    (h : I ctx.world) : I (deduplicateAll calls opts lists ctx).world := by
  have meets : EveryReplacement calls opts (fun _ _ _ => True) lists ctx := by
    intro earlier list later _ origin reason _ earlier' m later' _ _ _
    trivial
  apply deduplicateAll_keeps_of_meets reads _ meets h
  intro list hlist origin horigin m hm htreatment hdry world hworld _
  exact replacements list hlist origin horigin m hm htreatment hdry world hworld

end Invariant

/-! ### Invariants of the context -/

section ContextInvariant

variable {W : Type} {calls : Calls W} {opts : Options} {J : Context W → Prop}

end ContextInvariant

end Dedup
