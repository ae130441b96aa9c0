/-
Module: Dedup.Posix.Fts
Purpose: The traversal of fts(3) over a forest of files, physical and without `chdir`.  A caller
  visits the entries in turn and may set `FTS_SKIP` on any of them.  The main result compares such
  a traversal with the one in which nothing is skipped: a caller that gathers files gathers the
  same ones where no directory it skips has one of them below it.
Imports: Dedup.Posix.Path
Trusted boundary: human-reviewed spec of `fts_read` and `fts_set`
Main exports: FtsInfo, Stat, FtsEnt, Forest, Place, read, entries, read_keeps_files, read_projects,
  PrunesNothing, read_gathers
-/
import Dedup.Posix.Path

namespace Dedup.Posix

/-- `fts_info`. -/
inductive FtsInfo where
  | d
  | dc
  | default
  | dnr
  | dot
  | dp
  | err
  | f
  | ns
  | nsok
  | sl
  | slnone
  | w
deriving DecidableEq, Repr

/-- What `fts_statp` points to. -/
structure Stat where
  device : Int
  inode : Nat
  nlink : Nat
  flags : Nat
  size : Nat
deriving DecidableEq, Repr, Inhabited

/-- `FTSENT`. -/
structure FtsEnt where
  path : Path
  level : Nat
  info : FtsInfo
  errno : Nat
  stat : Stat
deriving DecidableEq, Repr

/-- Files in the order in which they are met: what is only reported, and the directories with what
is in them.  An error of a directory is one that occurs while it is read. -/
inductive Forest where
  | nil
  | leaf (name : Path) (info : FtsInfo) (errno : Nat) (stat : Stat) (rest : Forest)
  | dir (name : Path) (stat : Stat) (children : Forest) (errno : Nat) (rest : Forest)
deriving Repr

/-! ### Where an entry stands -/

/-- Where a list of files stands: among the roots, or in a directory, at a level and below a root
on a device. -/
inductive Place where
  | roots
  | inside (dir : Path) (level : Nat) (device : Int)
deriving DecidableEq, Repr

/-- A path without one slash at its end. -/
def trimSlash (path : Path) : Path :=
  if path.getLast? = some '/' then path.dropLast else path

/-- The path of a file in a directory. -/
def joinPath (dir name : Path) : Path :=
  trimSlash dir ++ '/' :: name

namespace Place

def path : Place → Path → Path
  | roots, name => name
  | inside dir _ _, name => joinPath dir name

/-- `fts_level`, which is `FTS_ROOTLEVEL` for a root. -/
def level : Place → Nat
  | roots => 0
  | inside _ level _ => level

/-- The device of the root; a root is one itself. -/
def device : Place → Stat → Int
  | roots, stat => stat.device
  | inside _ _ device, _ => device

/-- Where the files of a directory stand. -/
def enter (place : Place) (name : Path) (stat : Stat) : Place :=
  inside (place.path name) (place.level + 1) (place.device stat)

def entry (place : Place) (name : Path) (info : FtsInfo) (errno : Nat) (stat : Stat) : FtsEnt where
  path := place.path name
  level := place.level
  info := info
  errno := errno
  stat := stat

/-- Under `FTS_XDEV`, a directory on another device than the root's. -/
def crosses (xdev : Bool) (place : Place) (stat : Stat) : Bool :=
  xdev && stat.device ≠ place.device stat

@[simp] theorem enter_level (place : Place) (name : Path) (stat : Stat) :
    (place.enter name stat).level = place.level + 1 := rfl

@[simp] theorem entry_info (place : Place) (name : Path) (info : FtsInfo) (errno : Nat)
    (stat : Stat) : (place.entry name info errno stat).info = info := rfl

@[simp] theorem entry_level (place : Place) (name : Path) (info : FtsInfo) (errno : Nat)
    (stat : Stat) : (place.entry name info errno stat).level = place.level := rfl

end Place

/-! ### The traversal -/

/-- What a directory that was read is on the way back. -/
def afterDir : Forest → Nat → FtsInfo
  | _, 0 => .dp
  | .nil, _ => .dnr
  | _, _ => .err

theorem afterDir_ne_file (children : Forest) (errno : Nat) : afterDir children errno ≠ .f := by
  unfold afterDir
  split <;> decide

section

variable {σ β : Type} (xdev : Bool) (visit : FtsEnt → σ → σ × Bool)

/-- `fts_read` to its end, where `visit` is what the caller does with an entry and whether it sets
`FTS_SKIP` on it.  Only a directory on the way down can be skipped. -/
def read : Place → Forest → σ → σ
  | _, .nil, s => s
  | place, .leaf name info errno stat rest, s =>
      read place rest (visit (place.entry name info errno stat) s).1
  | place, .dir name stat children errno rest, s =>
      let (down, skip) := visit (place.entry name .d 0 stat) s
      let up :=
        if skip || place.crosses xdev stat then visit (place.entry name .dp 0 stat) down
        else
          visit (place.entry name (afterDir children errno) errno stat)
            (read (place.enter name stat) children down)
      read place rest up.1

/-- The entries of the traversal in which nothing is skipped. -/
def entries : Place → Forest → List FtsEnt
  | _, .nil => []
  | place, .leaf name info errno stat rest =>
      place.entry name info errno stat :: entries place rest
  | place, .dir name stat children errno rest =>
      let below :=
        if place.crosses xdev stat then [place.entry name .dp 0 stat]
        else
          entries (place.enter name stat) children ++
            [place.entry name (afterDir children errno) errno stat]
      place.entry name .d 0 stat :: (below ++ entries place rest)

variable {xdev visit}

/-- What every visit keeps, a traversal keeps. -/
theorem read_keeps {keep : σ → Prop} (hvisit : ∀ entry s, keep s → keep (visit entry s).1)
    (place : Place) (forest : Forest) {s : σ} (h : keep s) :
    keep (read xdev visit place forest s) := by
  induction forest generalizing place s with
  | nil => exact h
  | leaf name info errno stat rest ih => exact ih place (hvisit _ s h)
  | dir name stat children errno rest ihChildren ihRest =>
      have hdown := hvisit (place.entry name .d 0 stat) s h
      simp only [read]
      split
      · exact ihRest place (hvisit _ _ hdown)
      · exact ihRest place (hvisit _ _ (ihChildren _ hdown))

/-- What every visit keeps, a traversal keeps, where only files of its own are met. -/
theorem read_keeps_files {keep : σ → Prop} {place : Place} {forest : Forest}
    (hvisit : ∀ entry s, (entry.info = .f → entry ∈ entries xdev place forest) → keep s →
      keep (visit entry s).1) {s : σ} (h : keep s) :
    keep (read xdev visit place forest s) := by
  induction forest generalizing place s with
  | nil => exact h
  | leaf name info errno stat rest ih =>
      apply ih
      · intro entry s hmem
        exact hvisit entry s fun hfile => List.mem_cons_of_mem _ (hmem hfile)
      · exact hvisit _ s (fun _ => List.mem_cons_self) h
  | dir name stat children errno rest ihChildren ihRest =>
      have hother : ∀ entry s, entry.info ≠ .f → keep s → keep (visit entry s).1 :=
        fun entry s hinfo => hvisit entry s fun hfile => absurd hfile hinfo
      have hdown := hother (place.entry name .d 0 stat) s (by simp) h
      simp only [read]
      apply ihRest
      · intro entry s hmem
        refine hvisit entry s fun hfile => ?_
        simp [entries, hmem hfile]
      split
      · exact hother _ _ (by simp) hdown
      · rename_i hinto
        apply hother _ _ (afterDir_ne_file children errno)
        apply ihChildren _ hdown
        intro entry s hmem
        refine hvisit entry s fun hfile => ?_
        have hcrosses : place.crosses xdev stat = false := by
          cases hcross : place.crosses xdev stat <;> simp [hcross] at hinto ⊢
        simp [entries, hcrosses, hmem hfile]

/-- A caller that keeps more than another one and does the same with what that one keeps. -/
theorem read_projects {τ : Type} {visit' : FtsEnt → τ → τ × Bool} (f : τ → σ)
    (hvisit : ∀ entry t, visit entry (f t) = (f (visit' entry t).1, (visit' entry t).2))
    (place : Place) (forest : Forest) (t : τ) :
    f (read xdev visit' place forest t) = read xdev visit place forest (f t) := by
  induction forest generalizing place t with
  | nil => rfl
  | leaf name info errno stat rest ih => rw [read, read, ih, hvisit]
  | dir name stat children errno rest ihChildren ihRest =>
      simp only [read]
      rw [ihRest, hvisit]
      simp only
      split
      · rw [hvisit]
      · rw [← ihChildren, hvisit]

/-- The levels of a traversal. -/
theorem level_of_mem_entries {place : Place} {forest : Forest} {entry : FtsEnt}
    (h : entry ∈ entries xdev place forest) : place.level ≤ entry.level := by
  induction forest generalizing place with
  | nil => simp [entries] at h
  | leaf name info errno stat rest ih =>
      rcases List.mem_cons.mp h with rfl | h
      · exact le_refl _
      · exact ih h
  | dir name stat children errno rest ihChildren ihRest =>
      simp only [entries, List.mem_cons, List.mem_append] at h
      rcases h with rfl | h | h
      · exact le_refl _
      · split at h
        · obtain rfl := List.mem_singleton.mp h
          exact le_refl _
        · rcases List.mem_append.mp h with h | h
          · exact Nat.le_of_succ_le (ihChildren h)
          · obtain rfl := List.mem_singleton.mp h
            exact le_refl _
      · exact ihRest h

/-! ### Pruning -/

/-- Below a directory that may be skipped no entry is kept. -/
def PrunesNothing (xdev : Bool) (skips : FtsEnt → Prop) (keep : FtsEnt → Bool) :
    Place → Forest → Prop
  | _, .nil => True
  | place, .leaf _ _ _ _ rest => PrunesNothing xdev skips keep place rest
  | place, .dir name stat children _ rest =>
      (place.crosses xdev stat = false →
        (skips (place.entry name .d 0 stat) →
          ∀ entry ∈ entries xdev (place.enter name stat) children, keep entry = false) ∧
        PrunesNothing xdev skips keep (place.enter name stat) children) ∧
      PrunesNothing xdev skips keep place rest

/-- A caller that gathers the files it keeps, under an invariant of its own, gathers those of the
traversal in which nothing is skipped, in their order. -/
theorem read_gathers {inv : σ → Prop} (out : σ → List β) (make : FtsEnt → β)
    {keep : FtsEnt → Bool} (hfiles : ∀ entry, keep entry = true → entry.info = .f)
    (hvisit : ∀ entry s, inv s → inv (visit entry s).1 ∧
      out (visit entry s).1 = out s ++ if keep entry then [make entry] else [])
    {place : Place} {forest : Forest}
    (hprune : PrunesNothing xdev (fun entry => ∃ s, inv s ∧ (visit entry s).2 = true) keep place
      forest) {s : σ} (hinv : inv s) :
    inv (read xdev visit place forest s) ∧
      out (read xdev visit place forest s) =
        out s ++ ((entries xdev place forest).filter keep).map make := by
  have hother : ∀ entry, entry.info ≠ .f → keep entry = false := fun entry hinfo =>
    Bool.eq_false_iff.mpr fun hkeep => hinfo (hfiles entry hkeep)
  -- an entry that is no file passes unnoticed
  have hpass : ∀ entry s, entry.info ≠ .f → inv s →
      inv (visit entry s).1 ∧ out (visit entry s).1 = out s := by
    intro entry s hinfo hs
    have hstep := hvisit entry s hs
    rw [hother entry hinfo] at hstep
    simpa using hstep
  induction forest generalizing place s with
  | nil => simpa [read, entries] using hinv
  | leaf name info errno stat rest ih =>
      obtain ⟨hnext, hout⟩ := hvisit (place.entry name info errno stat) s hinv
      obtain ⟨hlast, hrest⟩ := ih hprune hnext
      refine ⟨hlast, ?_⟩
      rw [read, hrest, hout, entries, List.filter_cons]
      split <;> simp
  | dir name stat children errno rest ihChildren ihRest =>
      obtain ⟨hbelow, hprune⟩ := hprune
      obtain ⟨hdown, hdownOut⟩ := hpass (place.entry name .d 0 stat) s (by simp) hinv
      have hkeepDown := hother (place.entry name .d 0 stat) (by simp)
      -- what is gathered below the directory goes before what is gathered after it
      have hend : ∀ (up : σ) (below : List FtsEnt), inv up →
          out up = out s ++ (below.filter keep).map make →
          inv (read xdev visit place rest up) ∧ out (read xdev visit place rest up) =
            out s ++ ((place.entry name .d 0 stat :: (below ++ entries xdev place rest)).filter
              keep).map make := by
        intro up below hup hout
        obtain ⟨hlast, hrest⟩ := ihRest hprune hup
        refine ⟨hlast, ?_⟩
        rw [hrest, hout]
        simp [hkeepDown]
      simp only [read, entries]
      by_cases hcross : place.crosses xdev stat = true
      · obtain ⟨hup, hupOut⟩ := hpass (place.entry name .dp 0 stat) _ (by simp) hdown
        have hkeepUp := hother (place.entry name .dp 0 stat) (by simp)
        simp only [hcross, Bool.or_true, if_true]
        exact hend _ _ hup (by rw [hupOut, hdownOut]; simp [hkeepUp])
      · obtain ⟨hskipped, hprune'⟩ := hbelow (Bool.eq_false_iff.mpr hcross)
        have hkeepUp := hother (place.entry name (afterDir children errno) errno stat)
          (afterDir_ne_file children errno)
        simp only [hcross, Bool.or_false, Bool.false_eq_true, if_false]
        by_cases hskip : (visit (place.entry name .d 0 stat) s).2 = true
        · -- nothing below is kept
          obtain ⟨hup, hupOut⟩ := hpass (place.entry name .dp 0 stat) _ (by simp) hdown
          have hnone := List.filter_eq_nil_iff.mpr fun entry hentry =>
            Bool.eq_false_iff.mp (hskipped ⟨s, hinv, hskip⟩ entry hentry)
          simp only [hskip, if_true]
          refine hend _ _ hup ?_
          rw [hupOut, hdownOut, List.filter_append, hnone]
          simp [hkeepUp]
        · obtain ⟨hin, hinOut⟩ := ihChildren hprune' hdown
          obtain ⟨hup, hupOut⟩ := hpass (place.entry name (afterDir children errno) errno stat) _
            (afterDir_ne_file children errno) hin
          simp only [hskip, Bool.false_eq_true, if_false]
          refine hend _ _ hup ?_
          rw [hupOut, hinOut, hdownOut]
          simp [hkeepUp]

end

end Dedup.Posix
