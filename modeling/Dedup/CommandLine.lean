/-
Module: Dedup.CommandLine
Purpose: The option loop of `main`.  `getopt_long` hands over one option after another and the
  switch changes the settings or ends the process.  The loop stops at the first option that it
  refuses; where it refuses none, flags add up, and of the options with a value the last one wins.
  From this the settings that a command line can lead to are known exactly.
Imports: Dedup.Deduplicate
Trusted boundary: human-reviewed spec of `getopt_long` (an option of `optstring`, under its short
  or its long name, or '?') and of `atoi`, which is `(int) strtol(s, NULL, 10)`
Main exports: Opt, Delivered, atoi, Settings, Settings.start, optionTurn, optionLoop, told,
  optionLoop_append, optionLoop_of_refused, optionLoop_cases, optionLoop_eq_ok_iff, Reachable,
  settings_reachable_iff
-/
import Dedup.Deduplicate

namespace Dedup

/-! ### What `getopt_long` hands over -/

/-- The kinds of arguments in `getopt.h`. -/
inductive HasArg where
  | noArgument
  | requiredArgument
  | optionalArgument
deriving DecidableEq, Repr

/-- A result of `getopt_long`: the character, and `optarg` where it is set. -/
structure Opt where
  ch : Char
  optarg : Option (List Char)
deriving DecidableEq, Repr

/-- The options of `"I:PVc::d:fhlmnst:vx?"`. -/
def shortOptions : List (Char × HasArg) :=
  [('I', .requiredArgument), ('P', .noArgument), ('V', .noArgument), ('c', .optionalArgument),
    ('d', .requiredArgument), ('f', .noArgument), ('h', .noArgument), ('l', .noArgument),
    ('m', .noArgument), ('n', .noArgument), ('s', .noArgument), ('t', .requiredArgument),
    ('v', .noArgument), ('x', .noArgument), ('?', .noArgument)]

/-- An argument of that kind. -/
def HasArg.Fits : HasArg → Option (List Char) → Prop
  | .noArgument, arg => arg = none
  | .requiredArgument, arg => arg.isSome
  | .optionalArgument, _ => True

/-- What `getopt_long` can return: an option with its argument, or '?' after an error. -/
def Delivered (opt : Opt) : Prop :=
  opt.ch = '?' ∨ ∃ hasArg, (opt.ch, hasArg) ∈ shortOptions ∧ hasArg.Fits opt.optarg

/-! ### `atoi` -/

/-- `isspace` in the C locale. -/
def isspace (c : Char) : Bool :=
  c = ' ' || (9 ≤ c.toNat && c.toNat ≤ 13)

/-- The number that the digits at the start of a string spell. -/
def leadingDigits (s : List Char) : Nat :=
  Nat.ofDigitChars 10 (s.takeWhile Char.isDigit) 0

/-- `strtol` in base ten: blanks, a sign and digits, held within the range of a `long`. -/
def strtol (s : List Char) : Int :=
  match s.dropWhile isspace with
  | '-' :: rest => max (-2 ^ 63) (-leadingDigits rest)
  | '+' :: rest => min (2 ^ 63 - 1) (leadingDigits rest)
  | rest => min (2 ^ 63 - 1) (leadingDigits rest)

/-- `atoi`. -/
def atoi (s : List Char) : Int :=
  (strtol s).bmod (2 ^ 32)

/-- The conversion of an `int` to `short`. -/
def short (n : Int) : Int :=
  n.bmod (2 ^ 16)

/-- A digit is no blank. -/
theorem isspace_of_isDigit {c : Char} (h : c.isDigit = true) : isspace c = false := by
  rw [Bool.eq_false_iff]
  intro hblank
  simp only [isspace, Bool.or_eq_true, Bool.and_eq_true, decide_eq_true_eq] at hblank
  rcases hblank with rfl | ⟨-, hlow⟩
  · exact absurd h (by decide)
  · have hdigit : 48 ≤ c.toNat := by
      simp only [Char.isDigit, Bool.and_eq_true, decide_eq_true_eq] at h
      exact h.1
    omega

/-- `atoi` reads a number back that is written in digits. -/
theorem atoi_toDigits {n : Nat} (h : n < 2 ^ 31) : atoi (Nat.toDigits 10 n) = n := by
  have hdigits : ∀ c ∈ Nat.toDigits 10 n, c.isDigit = true :=
    fun c hc => Nat.isDigit_of_mem_toDigits (by decide) (by decide) hc
  have hread : leadingDigits (Nat.toDigits 10 n) = n := by
    rw [leadingDigits, List.takeWhile_eq_self_iff.mpr hdigits, Nat.ofDigitChars_ten_toDigits]
  have hlong : strtol (Nat.toDigits 10 n) = n := by
    cases hspelled : Nat.toDigits 10 n with
    | nil => exact absurd hspelled Nat.toDigits_ne_nil
    | cons first rest =>
        have hfirst : first.isDigit = true := hdigits first (by simp [hspelled])
        rw [strtol, List.dropWhile_cons_of_neg (by simp [isspace_of_isDigit hfirst])]
        -- the first character is a digit and no sign
        split
        · rename_i hsign
          cases hsign
          exact absurd hfirst (by decide)
        · rename_i hsign
          cases hsign
          exact absurd hfirst (by decide)
        · rw [← hspelled, hread]
          omega
  rw [atoi, hlong]
  exact Int.bmod_eq_of_le (by omega) (by omega)

/-! ### The loop -/

/-- What the loop sets: the fields of `DedupContext`, `max_depth`, `user_fts_options` and
`human_readable`. -/
structure Settings where
  progress : Bool
  maxDepth : UInt16
  oneFileSystem : Bool
  dryRun : Bool
  verbosity : UInt8
  force : Bool
  preserveParentMtime : Bool
  replaceMode : ReplaceMode
  threadCount : UInt8
  humanReadable : Bool
deriving DecidableEq, Repr

/-- The settings before the loop, with what `cpu_count` returns. -/
def Settings.start (cpuCount : Int) : Settings where
  progress := true
  maxDepth := 65535
  oneFileSystem := false
  dryRun := false
  verbosity := 0
  force := false
  preserveParentMtime := false
  replaceMode := .clone
  threadCount := UInt8.ofInt cpuCount
  humanReadable := false

/-- What the loop writes to `stderr`; `usage` shows the number of threads set so far. -/
inductive Complaint where
  | unimplemented (ch : Char)
  | version
  | depthNotPositive (optarg : List Char)
  | threadCountNotPositive (optarg : List Char)
  | usage (threadCount : UInt8)
deriving DecidableEq, Repr

/-- `optarg`, which is set where the option requires an argument. -/
def Opt.arg (opt : Opt) : List Char :=
  opt.optarg.getD []

/-- The value of `-d`. -/
def Opt.depth (opt : Opt) : Int :=
  short (atoi opt.arg)

/-- The switch: what it writes, and the next settings or the exit status. -/
def optionTurn (opt : Opt) (s : Settings) : List Complaint × Except Int Settings :=
  match opt.ch with
  | 'I' => ([.unimplemented 'I'], .ok s)
  | 'P' => ([], .ok { s with progress := false })
  | 'V' => ([.version], .error 1)
  | 'c' => ([.unimplemented 'c'], .ok s)
  | 'd' =>
      if opt.depth < 0 then ([.depthNotPositive opt.arg, .usage s.threadCount], .error 1)
      else ([], .ok { s with maxDepth := UInt16.ofInt opt.depth })
  | 'h' => ([], .ok { s with humanReadable := true })
  | 'l' => ([], .ok { s with replaceMode := .link })
  | 'm' => ([], .ok { s with preserveParentMtime := true })
  | 'n' => ([], .ok { s with dryRun := true })
  | 's' => ([], .ok { s with replaceMode := .symlink })
  | 't' =>
      if atoi opt.arg < 0 then
        ([.threadCountNotPositive opt.arg, .usage s.threadCount], .error 1)
      else ([], .ok { s with threadCount := UInt8.ofInt (atoi opt.arg) })
  | 'v' => ([], .ok { s with verbosity := s.verbosity + 1 })
  | 'x' => ([], .ok { s with oneFileSystem := true })
  -- '?', and 'f', which `optstring` admits but no case takes
  | _ => ([.usage s.threadCount], .error 1)

/-- The loop. -/
def optionLoop : List Opt → Settings → List Complaint × Except Int Settings
  | [], s => ([], .ok s)
  | opt :: opts, s =>
      match optionTurn opt s with
      | (complaints, .error status) => (complaints, .error status)
      | (complaints, .ok next) =>
          (complaints ++ (optionLoop opts next).1, (optionLoop opts next).2)

/-! ### What the options tell -/

/-- The last value that the options give, if one does. -/
def lastGiven {α : Type} (value : Opt → Option α) (opts : List Opt) (default : α) : α :=
  ((opts.filterMap value).getLast?).getD default

/-- An option that the switch goes on from. -/
def Opt.accepted (opt : Opt) : Bool :=
  opt.ch ∈ ['I', 'P', 'c', 'h', 'l', 'm', 'n', 's', 'v', 'x'] ||
    (opt.ch = 'd' && 0 ≤ opt.depth) || (opt.ch = 't' && 0 ≤ atoi opt.arg)

/-- The limit that the option gives. -/
def Opt.maxDepth (opt : Opt) : Option UInt16 :=
  if opt.ch = 'd' then some (UInt16.ofInt opt.depth) else none

/-- The mode that the option gives. -/
def Opt.replaceMode (opt : Opt) : Option ReplaceMode :=
  if opt.ch = 'l' then some .link else if opt.ch = 's' then some .symlink else none

/-- The number of threads that the option gives. -/
def Opt.threadCount (opt : Opt) : Option UInt8 :=
  if opt.ch = 't' then some (UInt8.ofInt (atoi opt.arg)) else none

/-- The options hold this character. -/
def given (ch : Char) (opts : List Opt) : Bool :=
  opts.any fun opt => opt.ch = ch

/-- The settings that the options tell, all of them together. -/
def told (opts : List Opt) (s : Settings) : Settings where
  progress := s.progress && !given 'P' opts
  maxDepth := lastGiven Opt.maxDepth opts s.maxDepth
  oneFileSystem := s.oneFileSystem || given 'x' opts
  dryRun := s.dryRun || given 'n' opts
  verbosity := s.verbosity + UInt8.ofNat (opts.countP fun opt => opt.ch = 'v')
  force := s.force
  preserveParentMtime := s.preserveParentMtime || given 'm' opts
  replaceMode := lastGiven Opt.replaceMode opts s.replaceMode
  threadCount := lastGiven Opt.threadCount opts s.threadCount
  humanReadable := s.humanReadable || given 'h' opts

/-- The options that are not implemented, which the loop goes on from. -/
def unimplemented (opts : List Opt) : List Complaint :=
  (opts.filter fun opt => opt.ch = 'I' || opt.ch = 'c').map fun opt => .unimplemented opt.ch

theorem lastGiven_cons {α : Type} (value : Opt → Option α) (opt : Opt) (opts : List Opt)
    (default : α) :
    lastGiven value (opt :: opts) default =
      lastGiven value opts (lastGiven value [opt] default) := by
  unfold lastGiven
  cases hvalue : value opt with
  | none => simp [hvalue]
  | some first =>
      cases hrest : (opts.filterMap value).getLast? with
      | none => simp_all
      | some last => simp [hvalue, List.getLast?_cons, hrest]

@[simp] theorem lastGiven_singleton {α : Type} (value : Opt → Option α) (opt : Opt) (default : α) :
    lastGiven value [opt] default = (value opt).getD default := by
  cases hvalue : value opt <;> simp [lastGiven, hvalue]

/-- The options tell one after the other what they tell together. -/
theorem told_cons (opt : Opt) (opts : List Opt) (s : Settings) :
    told (opt :: opts) s = told opts (told [opt] s) := by
  have hcount : UInt8.ofNat ((opt :: opts).countP fun opt => opt.ch = 'v') =
      UInt8.ofNat ([opt].countP fun opt => opt.ch = 'v') +
        UInt8.ofNat (opts.countP fun opt => opt.ch = 'v') := by
    rw [← UInt8.ofNat_add, ← List.countP_append, List.singleton_append]
  simp only [told, lastGiven_cons _ opt opts, hcount, given, List.any_cons, List.any_nil,
    Bool.or_false, Bool.or_assoc, Bool.not_or, Bool.and_assoc, UInt8.add_assoc]

/-- The switch goes on from what it accepts with what that tells. -/
theorem optionTurn_of_accepted {opt : Opt} (h : opt.accepted = true) (s : Settings) :
    optionTurn opt s = (unimplemented [opt], .ok (told [opt] s)) := by
  obtain ⟨ch, optarg⟩ := opt
  unfold optionTurn
  split
  case h_5 ch hch =>
    simp only at hch
    subst hch
    have hdepth : ¬ (Opt.depth ⟨'d', optarg⟩ < 0) := by simpa [Opt.accepted] using h
    rw [if_neg hdepth]
    simp [told, unimplemented, given, Opt.maxDepth, Opt.replaceMode, Opt.threadCount]
  case h_11 ch hch =>
    simp only at hch
    subst hch
    have hcount : ¬ (atoi (Opt.arg ⟨'t', optarg⟩) < 0) := by simpa [Opt.accepted] using h
    rw [if_neg hcount]
    simp [told, unimplemented, given, Opt.maxDepth, Opt.replaceMode, Opt.threadCount]
  case h_14 =>
    simp_all [Opt.accepted]
  all_goals
    simp_all [Opt.accepted, told, unimplemented, given, Opt.maxDepth, Opt.replaceMode,
      Opt.threadCount]

/-- It ends the process at all else. -/
theorem optionTurn_of_refused {opt : Opt} (h : opt.accepted = false) (s : Settings) :
    (optionTurn opt s).2 = .error 1 := by
  obtain ⟨ch, optarg⟩ := opt
  unfold optionTurn
  split
  all_goals simp_all [Opt.accepted]

/-- What an option tells is what the switch goes on with. -/
theorem told_of_turn {opt : Opt} {s next : Settings} {complaints : List Complaint}
    (h : optionTurn opt s = (complaints, .ok next)) : told [opt] s = next := by
  cases haccepted : opt.accepted with
  | true =>
      rw [optionTurn_of_accepted haccepted] at h
      exact Except.ok.inj (congrArg Prod.snd h)
  | false =>
      have hstop := optionTurn_of_refused haccepted s
      rw [h] at hstop
      cases hstop

/-! ### The whole loop -/

theorem told_nil (s : Settings) : told [] s = s := by
  simp [told, given, lastGiven]

theorem unimplemented_cons (opt : Opt) (opts : List Opt) :
    unimplemented (opt :: opts) = unimplemented [opt] ++ unimplemented opts := by
  simp only [unimplemented, ← List.map_append, ← List.filter_append, List.singleton_append]

/-- The loop goes on from options that it accepts with what they tell. -/
theorem optionLoop_append {opts : List Opt} (haccepted : ∀ opt ∈ opts, opt.accepted = true)
    (more : List Opt) (s : Settings) :
    optionLoop (opts ++ more) s =
      (unimplemented opts ++ (optionLoop more (told opts s)).1,
        (optionLoop more (told opts s)).2) := by
  induction opts generalizing s with
  | nil => rw [List.nil_append, told_nil, unimplemented, List.filter_nil, List.map_nil,
      List.nil_append]
  | cons opt opts ih =>
      have hrest := ih (fun other hother => haccepted other (List.mem_cons_of_mem _ hother))
        (told [opt] s)
      rw [List.cons_append, optionLoop, optionTurn_of_accepted (haccepted opt List.mem_cons_self)]
      simp only [hrest]
      rw [unimplemented_cons opt opts, told_cons opt opts, List.append_assoc]

/-- Where it refuses none, it ends with what they all tell. -/
theorem optionLoop_of_accepted {opts : List Opt} (haccepted : ∀ opt ∈ opts, opt.accepted = true)
    (s : Settings) : optionLoop opts s = (unimplemented opts, .ok (told opts s)) := by
  simpa [optionLoop] using optionLoop_append haccepted [] s

/-- It ends the process at the first option that it refuses, and never looks at the later ones. -/
theorem optionLoop_of_refused {before : List Opt}
    (haccepted : ∀ opt ∈ before, opt.accepted = true) {refused : Opt}
    (hrefused : refused.accepted = false) (after : List Opt) (s : Settings) :
    optionLoop (before ++ refused :: after) s =
      (unimplemented before ++ (optionTurn refused (told before s)).1, .error 1) := by
  have hstop := optionTurn_of_refused hrefused (told before s)
  rw [optionLoop_append haccepted, optionLoop]
  generalize optionTurn refused (told before s) = turn at hstop
  obtain ⟨complaints, result⟩ := turn
  simp only at hstop
  subst hstop
  rfl

/-- It accepts every option and comes to its end, or refuses one and ends the process with 1. -/
theorem optionLoop_cases (opts : List Opt) (s : Settings) :
    ((∀ opt ∈ opts, opt.accepted = true) ∧ (optionLoop opts s).2 = .ok (told opts s)) ∨
      ((∃ opt ∈ opts, opt.accepted = false) ∧ (optionLoop opts s).2 = .error 1) := by
  cases hfind : opts.find? fun opt => !opt.accepted with
  | none =>
      have haccepted : ∀ opt ∈ opts, opt.accepted = true := by
        simpa using hfind
      rw [optionLoop_of_accepted haccepted]
      exact Or.inl ⟨haccepted, rfl⟩
  | some refused =>
      obtain ⟨hrefused, before, after, rfl, hbefore⟩ := List.find?_eq_some_iff_append.mp hfind
      have hstop : refused.accepted = false := by simpa using hrefused
      rw [optionLoop_of_refused (by simpa using hbefore) hstop]
      exact Or.inr ⟨⟨refused, by simp, hstop⟩, rfl⟩

/-- The loop comes to its end exactly when it accepts every option, with what they tell. -/
theorem optionLoop_eq_ok_iff (opts : List Opt) (s settings : Settings) :
    (optionLoop opts s).2 = .ok settings ↔
      (∀ opt ∈ opts, opt.accepted = true) ∧ told opts s = settings := by
  rcases optionLoop_cases opts s with ⟨haccepted, hend⟩ | ⟨⟨refused, hmem, hrefused⟩, hend⟩
  · rw [hend, Except.ok.injEq]
    exact ⟨fun h => ⟨haccepted, h⟩, And.right⟩
  · rw [hend]
    constructor
    · rintro ⟨⟩
    · rintro ⟨haccepted, -⟩
      rw [haccepted refused hmem] at hrefused
      cases hrefused

/-! ### The settings that can be reached -/

/-- A command line for these settings. -/
def spell (settings : Settings) : List Opt :=
  (if settings.progress then [] else [⟨'P', none⟩]) ++
    (if settings.maxDepth = 65535 then []
      else [⟨'d', some (Nat.toDigits 10 settings.maxDepth.toNat)⟩]) ++
    (if settings.oneFileSystem then [⟨'x', none⟩] else []) ++
    (if settings.dryRun then [⟨'n', none⟩] else []) ++
    List.replicate settings.verbosity.toNat ⟨'v', none⟩ ++
    (if settings.preserveParentMtime then [⟨'m', none⟩] else []) ++
    (match settings.replaceMode with
      | .clone => []
      | .link => [⟨'l', none⟩]
      | .symlink => [⟨'s', none⟩]) ++
    [⟨'t', some (Nat.toDigits 10 settings.threadCount.toNat)⟩] ++
    (if settings.humanReadable then [⟨'h', none⟩] else [])

/-- Settings that no command line contradicts: the limit of `-d` is a `short`, and nothing sets
`force`. -/
structure Reachable (settings : Settings) : Prop where
  unforced : settings.force = false
  depth : settings.maxDepth = 65535 ∨ settings.maxDepth < 32768

theorem told_append (opts more : List Opt) (s : Settings) :
    told (opts ++ more) s = told more (told opts s) := by
  induction opts generalizing s with
  | nil => rw [List.nil_append, told_nil]
  | cons opt opts ih => rw [List.cons_append, told_cons opt (opts ++ more), ih, told_cons opt opts]

/-- A flag that is given or not. -/
theorem told_flag (b : Bool) {opt : Opt} {s next : Settings} {complaints : List Complaint}
    (h : optionTurn opt s = (complaints, .ok next)) :
    told (if b then [opt] else []) s = if b then next else s := by
  cases b with
  | true => exact told_of_turn h
  | false => exact told_nil s

theorem told_verbose (n : Nat) (s : Settings) :
    told (List.replicate n ⟨'v', none⟩) s =
      { s with verbosity := s.verbosity + UInt8.ofNat n } := by
  induction n generalizing s with
  | zero => simp [told_nil]
  | succ n ih =>
      have hfirst : told [⟨'v', none⟩] s = { s with verbosity := s.verbosity + 1 } :=
        told_of_turn rfl
      rw [List.replicate_succ, told_cons, ih, hfirst]
      simp [UInt8.add_assoc, UInt8.add_comm]

/-- The depth that is spelled out. -/
theorem depth_toDigits {n : Nat} (h : n < 2 ^ 15) :
    Opt.depth ⟨'d', some (Nat.toDigits 10 n)⟩ = n := by
  rw [Opt.depth, Opt.arg, Option.getD_some, atoi_toDigits (by omega)]
  exact Int.bmod_eq_of_le (by omega) (by omega)

theorem ofInt_toNat_uint16 (n : UInt16) : UInt16.ofInt n.toNat = n := by
  have hsmall : ((n.toNat : Int) % 2 ^ 16).toNat = n.toNat := by
    have hlt := n.toNat_lt
    omega
  rw [UInt16.ofInt, hsmall, UInt16.ofNat_toNat]

theorem ofInt_toNat_uint8 (n : UInt8) : UInt8.ofInt n.toNat = n := by
  have hsmall : ((n.toNat : Int) % 2 ^ 8).toNat = n.toNat := by
    have hlt := n.toNat_lt
    omega
  rw [UInt8.ofInt, hsmall, UInt8.ofNat_toNat]

/-- The limit that is spelled out, if it is not the one before the loop. -/
theorem told_limit {depth : UInt16} (h : depth = 65535 ∨ depth < 32768) {s : Settings}
    (hs : s.maxDepth = 65535) :
    told (if depth = 65535 then [] else [⟨'d', some (Nat.toDigits 10 depth.toNat)⟩]) s =
      { s with maxDepth := depth } := by
  split
  · rename_i hfull
    rw [told_nil, hfull, ← hs]
  · rename_i hfull
    have hspelled : Opt.depth ⟨'d', some (Nat.toDigits 10 depth.toNat)⟩ = depth.toNat :=
      depth_toDigits (h.resolve_left hfull)
    refine told_of_turn (?_ : optionTurn _ s = ([], _))
    simp [optionTurn, hspelled, ofInt_toNat_uint16]

/-- The number of threads that is spelled out. -/
theorem told_threads (count : UInt8) (s : Settings) :
    told [⟨'t', some (Nat.toDigits 10 count.toNat)⟩] s = { s with threadCount := count } := by
  have hspelled : atoi (Nat.toDigits 10 count.toNat) = count.toNat :=
    atoi_toDigits (by have := count.toNat_lt; omega)
  refine told_of_turn (?_ : optionTurn _ s = ([], _))
  simp [optionTurn, Opt.arg, hspelled, ofInt_toNat_uint8]

/-- The command line for settings tells them. -/
theorem told_spell {settings : Settings} (h : Reachable settings) (cpuCount : Int) :
    told (spell settings) (.start cpuCount) = settings := by
  obtain ⟨progress, depth, xdev, dry, verbosity, force, preserve, mode, threads, human⟩ := settings
  obtain ⟨hforce, hdepth⟩ := h
  simp only at hforce hdepth
  subst hforce
  have hprogress : told (if progress then [] else [⟨'P', none⟩]) (.start cpuCount) =
      { Settings.start cpuCount with progress := progress } := by
    cases progress with
    | true => exact told_nil _
    | false => exact told_of_turn rfl
  have hmode : ∀ s, s.replaceMode = .clone →
      told (match mode with
        | .clone => []
        | .link => [⟨'l', none⟩]
        | .symlink => [⟨'s', none⟩]) s = { s with replaceMode := mode } := by
    intro s hs
    cases mode with
    | clone => rw [told_nil, ← hs]
    | link => exact told_of_turn rfl
    | symlink => exact told_of_turn rfl
  simp only [spell, told_append, told_verbose, told_threads]
  rw [hprogress, told_limit hdepth rfl, told_flag xdev rfl, told_flag dry rfl,
    told_flag preserve rfl, hmode, told_flag human rfl]
  · cases xdev <;> cases dry <;> cases preserve <;> cases human <;> simp [Settings.start]
  · cases xdev <;> cases dry <;> cases preserve <;> rfl

/-- The options of that command line. -/
theorem mem_spell {settings : Settings} {opt : Opt} (h : opt ∈ spell settings) :
    (opt.ch ∈ ['P', 'x', 'n', 'v', 'm', 'l', 's', 'h'] ∧ opt.optarg = none) ∨
      (settings.maxDepth ≠ 65535 ∧
        opt = ⟨'d', some (Nat.toDigits 10 settings.maxDepth.toNat)⟩) ∨
      opt = ⟨'t', some (Nat.toDigits 10 settings.threadCount.toNat)⟩ := by
  have hflag : ∀ (b : Bool) (ch : Char), opt ∈ (if b then [⟨ch, none⟩] else []) →
      opt.ch = ch ∧ opt.optarg = none := by
    intro b ch hopt
    cases b with
    | true => simp [List.mem_singleton.mp hopt]
    | false => simp at hopt
  simp only [spell, List.mem_append] at h
  rcases h with ((((((((h | h) | h) | h) | h) | h) | h) | h) | h)
  · split at h
    · cases h
    · obtain rfl := List.mem_singleton.mp h
      exact Or.inl ⟨by simp, rfl⟩
  · split at h
    · cases h
    · rename_i hlimited
      exact Or.inr (Or.inl ⟨hlimited, List.mem_singleton.mp h⟩)
  · exact Or.inl ⟨by simp [(hflag _ _ h).1], (hflag _ _ h).2⟩
  · exact Or.inl ⟨by simp [(hflag _ _ h).1], (hflag _ _ h).2⟩
  · obtain rfl := List.eq_of_mem_replicate h
    exact Or.inl ⟨by simp, rfl⟩
  · exact Or.inl ⟨by simp [(hflag _ _ h).1], (hflag _ _ h).2⟩
  · split at h
    · cases h
    · obtain rfl := List.mem_singleton.mp h
      exact Or.inl ⟨by simp, rfl⟩
    · obtain rfl := List.mem_singleton.mp h
      exact Or.inl ⟨by simp, rfl⟩
  · exact Or.inr (Or.inr (List.mem_singleton.mp h))
  · exact Or.inl ⟨by simp [(hflag _ _ h).1], (hflag _ _ h).2⟩

/-- Every option of it is one that `getopt_long` can return. -/
theorem delivered_spell (settings : Settings) : ∀ opt ∈ spell settings, Delivered opt := by
  intro opt hopt
  rcases mem_spell hopt with ⟨hch, harg⟩ | ⟨-, rfl⟩ | rfl
  · have hshort : ∀ ch ∈ ['P', 'x', 'n', 'v', 'm', 'l', 's', 'h'],
        (ch, HasArg.noArgument) ∈ shortOptions := by simp [shortOptions]
    exact Or.inr ⟨.noArgument, hshort _ hch, harg⟩
  · exact Or.inr ⟨.requiredArgument, by simp [shortOptions], rfl⟩
  · exact Or.inr ⟨.requiredArgument, by simp [shortOptions], rfl⟩

/-- The switch accepts each of them. -/
theorem accepted_spell {settings : Settings} (h : Reachable settings) :
    ∀ opt ∈ spell settings, opt.accepted = true := by
  intro opt hopt
  rcases mem_spell hopt with ⟨hch, -⟩ | ⟨hlimited, rfl⟩ | rfl
  · have hmem : ∀ ch ∈ ['P', 'x', 'n', 'v', 'm', 'l', 's', 'h'],
        ch ∈ ['I', 'P', 'c', 'h', 'l', 'm', 'n', 's', 'v', 'x'] := by simp
    simp only [Opt.accepted, decide_eq_true (hmem _ hch), Bool.true_or]
  · have hdepth := depth_toDigits (n := settings.maxDepth.toNat) (h.depth.resolve_left hlimited)
    simp [Opt.accepted, hdepth]
  · have hlt := settings.threadCount.toNat_lt
    have hcount : atoi (Nat.toDigits 10 settings.threadCount.toNat) = settings.threadCount.toNat :=
      atoi_toDigits (by omega)
    simp [Opt.accepted, Opt.arg, hcount]

/-- The last value is that of some option, or the default. -/
theorem lastGiven_cases {α : Type} (value : Opt → Option α) (opts : List Opt) (default : α) :
    lastGiven value opts default = default ∨
      ∃ opt ∈ opts, value opt = some (lastGiven value opts default) := by
  unfold lastGiven
  cases hlast : (opts.filterMap value).getLast? with
  | none => exact Or.inl rfl
  | some last =>
      obtain ⟨opt, hopt, hvalue⟩ := List.mem_filterMap.mp (List.mem_of_getLast? hlast)
      exact Or.inr ⟨opt, hopt, hvalue⟩

/-- Nothing that the options tell contradicts them. -/
theorem reachable_told {opts : List Opt} (haccepted : ∀ opt ∈ opts, opt.accepted = true)
    {s : Settings} (h : Reachable s) : Reachable (told opts s) := by
  refine ⟨h.unforced, ?_⟩
  rcases lastGiven_cases Opt.maxDepth opts s.maxDepth with hkept | ⟨opt, hopt, hvalue⟩
  · exact (congrArg (fun depth => depth = 65535 ∨ depth < 32768) hkept).mpr h.depth
  · right
    have hok := haccepted opt hopt
    unfold Opt.maxDepth at hvalue
    split at hvalue
    · rename_i hch
      have hnonneg : 0 ≤ opt.depth := by simpa [Opt.accepted, hch] using hok
      have hshort : opt.depth < 2 ^ 15 := Int.bmod_lt (by decide)
      have hsmall : (UInt16.ofInt opt.depth).toNat < 32768 := by
        rw [UInt16.ofInt, UInt16.toNat_ofNat']
        omega
      rw [Option.some.inj hvalue] at hsmall
      exact hsmall
    · cases hvalue

/-- The settings that command lines lead to, at any number of processors: those without `force`
and, if a limit is given at all, with one below 32768.  Each is told by some command line. -/
theorem settings_reachable_iff (cpuCount : Int) (settings : Settings) :
    (∃ opts, (∀ opt ∈ opts, Delivered opt) ∧
      (optionLoop opts (.start cpuCount)).2 = .ok settings) ↔ Reachable settings := by
  constructor
  · rintro ⟨opts, -, hrun⟩
    obtain ⟨haccepted, rfl⟩ := (optionLoop_eq_ok_iff opts _ settings).mp hrun
    exact reachable_told haccepted ⟨rfl, Or.inl rfl⟩
  · intro h
    exact ⟨spell settings, delivered_spell settings,
      (optionLoop_eq_ok_iff _ _ settings).mpr ⟨accepted_spell h, told_spell h cpuCount⟩⟩

/-- 256 threads are none, so that the scan runs in `main`. -/
example : (optionLoop [⟨'t', some ['2', '5', '6']⟩] (.start 8)).2 =
    .ok { Settings.start 8 with threadCount := 0 } := by
  rfl

/-- A limit of 40000 is a negative `short`. -/
example : optionLoop [⟨'d', some ['4', '0', '0', '0', '0']⟩] (.start 8) =
    ([.depthNotPositive ['4', '0', '0', '0', '0'], .usage 8], .error 1) := by
  rfl

end Dedup
