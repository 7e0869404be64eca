import Mathlib.Data.List.Perm.Basic
import Polish.Options

/-!
Argument lists as rows of units.

A unit is a backend flag with the name after it, a switch, or a path.  An argument list
that is accepted is a row of units with at most one path, and the options can be read off
the units.  All other lists begin with such a row, and then there is a word that cannot
follow: a backend flag at the very end, a flag that is not known, or a second path.
-/

namespace Polish

/-- A path does not look like a flag.  A lone minus sign is a path. -/
def IsPath (word : String) : Prop :=
  word = "-" ∨ word.toList.head? ≠ some '-'

instance (word : String) : Decidable (IsPath word) :=
  inferInstanceAs (Decidable (word = "-" ∨ word.toList.head? ≠ some '-'))

inductive BackendFlag where
  | short
  | long
  deriving DecidableEq, Repr

def BackendFlag.word : BackendFlag → String
  | short => "-b"
  | long => "--backend"

theorem BackendFlag.word_injective : Function.Injective word := by
  intro flag flag' h
  revert h
  cases flag <;> cases flag' <;> decide

inductive Switch where
  | recover
  | tree
  | code
  deriving DecidableEq, Repr

def Switch.word : Switch → String
  | recover => "--recover"
  | tree => "--tree"
  | code => "--code"

namespace Switch

theorem word_injective : Function.Injective word := by
  intro switch switch' h
  revert h
  cases switch <;> cases switch' <;> decide

def all : List Switch :=
  [recover, tree, code]

theorem mem_all (switch : Switch) : switch ∈ all := by
  cases switch <;> decide

end Switch

/-- Looks like a flag and is none. -/
def IsUnknownFlag (word : String) : Prop :=
  ¬IsPath word ∧ (∀ flag : BackendFlag, flag.word ≠ word) ∧ ∀ switch : Switch, switch.word ≠ word

theorem word_cases (word : String) :
    (∃ flag : BackendFlag, flag.word = word) ∨ (∃ switch : Switch, switch.word = word) ∨
      IsPath word ∨ IsUnknownFlag word := by
  by_cases hflag : ∃ flag : BackendFlag, flag.word = word
  · exact Or.inl hflag
  by_cases hswitch : ∃ switch : Switch, switch.word = word
  · exact Or.inr (Or.inl hswitch)
  by_cases hpath : IsPath word
  · exact Or.inr (Or.inr (Or.inl hpath))
  · exact Or.inr (Or.inr (Or.inr ⟨hpath, not_exists.mp hflag, not_exists.mp hswitch⟩))

namespace Argument

def ofSwitch : Switch → Argument
  | .recover => recover
  | .tree => tree
  | .code => code

theorem ofWord_backendFlag (flag : BackendFlag) : ofWord flag.word = backend := by
  cases flag <;> decide

theorem ofWord_switch (switch : Switch) : ofWord switch.word = ofSwitch switch := by
  cases switch <;> decide

theorem ofWord_of_ne {word : String} (hflag : ∀ flag : BackendFlag, flag.word ≠ word)
    (hswitch : ∀ switch : Switch, switch.word ≠ word) :
    ofWord word = if IsPath word then path else unknownFlag := by
  have hbackend : ¬(word = "--backend" ∨ word = "-b") := by
    rintro (rfl | rfl)
    · exact hflag .long rfl
    · exact hflag .short rfl
  rw [ofWord, if_neg hbackend, if_neg fun h => hswitch .recover h.symm,
    if_neg fun h => hswitch .tree h.symm, if_neg fun h => hswitch .code h.symm]
  by_cases hpath : IsPath word
  · rw [if_pos hpath, if_neg]
    rintro ⟨hminus, hhead⟩
    exact hpath.elim hminus (absurd hhead)
  · rw [if_neg hpath, if_pos]
    rw [IsPath, not_or, not_not] at hpath
    exact hpath

theorem ofWord_of_isPath {word : String} (h : IsPath word) : ofWord word = path := by
  rw [ofWord_of_ne, if_pos h]
  · rintro flag rfl
    revert h
    cases flag <;> decide
  · rintro switch rfl
    revert h
    cases switch <;> decide

theorem ofWord_of_isUnknownFlag {word : String} (h : IsUnknownFlag word) :
    ofWord word = unknownFlag := by
  obtain ⟨hpath, hflag, hswitch⟩ := h
  rw [ofWord_of_ne hflag hswitch, if_neg hpath]

end Argument

inductive ArgumentUnit where
  | backend (flag : BackendFlag) (name : String)
  | switch (which : Switch)
  | path (word : String)
  deriving DecidableEq, Repr

namespace ArgumentUnit

def words : ArgumentUnit → List String
  | backend flag name => [flag.word, name]
  | switch which => [which.word]
  | path word => [word]

/-- A backend flag may have any name after it, but not every word is a path. -/
def Proper : ArgumentUnit → Prop
  | path word => IsPath word
  | _ => True

instance : DecidablePred Proper
  | backend _ _ => isTrue trivial
  | switch _ => isTrue trivial
  | path word => inferInstanceAs (Decidable (IsPath word))

def name? : ArgumentUnit → Option String
  | backend _ name => some name
  | _ => none

def path? : ArgumentUnit → Option String
  | path word => some word
  | _ => none

/-- The argument list that is made of the given units. -/
def flatten (units : List ArgumentUnit) : List String :=
  units.flatMap words

def names (units : List ArgumentUnit) : List String :=
  units.filterMap name?

def paths (units : List ArgumentUnit) : List String :=
  units.filterMap path?

variable {units rest : List ArgumentUnit} {unit : ArgumentUnit}

theorem paths_append : paths (units ++ rest) = paths units ++ paths rest :=
  List.filterMap_append

theorem paths_singleton : paths [unit] = unit.path?.toList := by
  cases unit <;> rfl

/-- Each unit is one, and there is at most one path. -/
structure Acceptable (units : List ArgumentUnit) : Prop where
  proper : ∀ unit ∈ units, unit.Proper
  onePath : (paths units).length ≤ 1

instance (units : List ArgumentUnit) : Decidable (Acceptable units) :=
  decidable_of_iff ((∀ unit ∈ units, unit.Proper) ∧ (paths units).length ≤ 1)
    ⟨fun h => ⟨h.1, h.2⟩, fun h => ⟨h.proper, h.onePath⟩⟩

/-- A unit that can follow the given ones. -/
structure Fits (units : List ArgumentUnit) (unit : ArgumentUnit) : Prop where
  proper : unit.Proper
  onePath : unit.path? = none ∨ paths units = []

theorem Acceptable.nil : Acceptable [] :=
  ⟨fun _ hunit => absurd hunit List.not_mem_nil, Nat.zero_le 1⟩

theorem Acceptable.of_append (h : Acceptable (units ++ rest)) : Acceptable units := by
  obtain ⟨hproper, hpath⟩ := h
  refine ⟨fun unit hunit => hproper unit (List.mem_append_left rest hunit), ?_⟩
  rw [paths_append, List.length_append] at hpath
  omega

theorem acceptable_append_singleton_iff :
    Acceptable (units ++ [unit]) ↔ Acceptable units ∧ Fits units unit := by
  have hpaths : (paths (units ++ [unit])).length =
      (paths units).length + unit.path?.toList.length := by
    rw [paths_append, List.length_append, paths_singleton]
  constructor
  · intro h
    refine ⟨h.of_append, h.proper unit (by simp), ?_⟩
    have hone := hpaths ▸ h.onePath
    cases hunit : unit.path? with
    | none => exact Or.inl rfl
    | some word =>
        rw [hunit] at hone
        exact Or.inr (List.length_eq_zero_iff.mp (Nat.le_zero.mp (Nat.le_of_succ_le_succ hone)))
  · rintro ⟨⟨hproper, hone⟩, hunit, hfits⟩
    refine ⟨List.forall_mem_append.mpr ⟨hproper, List.forall_mem_singleton.mpr hunit⟩, ?_⟩
    rw [hpaths]
    rcases hfits with hnone | hnone
    · rw [hnone]
      exact hone
    · rw [hnone, List.length_nil, Nat.zero_add]
      exact Option.length_toList_le

theorem Acceptable.perm {units' : List ArgumentUnit} (h : Acceptable units)
    (hperm : units.Perm units') : Acceptable units' := by
  have hlength : (paths units).length = (paths units').length :=
    (hperm.filterMap path?).length_eq
  exact ⟨fun unit hunit => h.proper unit (hperm.mem_iff.mpr hunit), hlength ▸ h.onePath⟩

end ArgumentUnit

namespace Options

open ArgumentUnit

/-- The options that units ask for. -/
def ofUnits (units : List ArgumentUnit) : Options where
  selection :=
    match (names units).getLast? with
    | some name => .ofName name
    | none => .one "interpreter"
  recovery := if .switch .recover ∈ units then .skipStatement else .abort
  showTree := decide (.switch .tree ∈ units)
  showCode := decide (.switch .code ∈ units)
  path := (paths units).head?

variable {units rest : List ArgumentUnit} {unit : ArgumentUnit}

theorem ofUnits_append_backend (units : List ArgumentUnit) (flag : BackendFlag) (name : String) :
    ofUnits (units ++ [.backend flag name]) =
      { ofUnits units with selection := .ofName name } := by
  simp [ofUnits, names, paths, name?, path?]

theorem ofUnits_append_switch (units : List ArgumentUnit) (switch : Switch) :
    ofUnits (units ++ [.switch switch]) =
      match switch with
      | .recover => { ofUnits units with recovery := .skipStatement }
      | .tree => { ofUnits units with showTree := true }
      | .code => { ofUnits units with showCode := true } := by
  cases switch <;> simp [ofUnits, names, paths, name?, path?]

theorem ofUnits_append_path {units : List ArgumentUnit} (h : paths units = []) (word : String) :
    ofUnits (units ++ [.path word]) = { ofUnits units with path := some word } := by
  simp [ofUnits, names, paths_append, h, paths_singleton, name?, path?]

/-- Reading a unit leads from the options of the units before it to those with it. -/
theorem read_unit (h : Fits units unit) (words : List String) :
    (ofUnits units).read (unit.words ++ words) = (ofUnits (units ++ [unit])).read words := by
  cases unit with
  | backend flag name =>
      rw [ofUnits_append_backend, ArgumentUnit.words, List.cons_append, read.eq_def]
      simp only [Argument.ofWord_backendFlag, List.singleton_append]
  | switch which =>
      rw [ofUnits_append_switch, ArgumentUnit.words, List.singleton_append, read.eq_def]
      simp only [Argument.ofWord_switch]
      cases which <;> rfl
  | path word =>
      have hpaths : paths units = [] := h.onePath.resolve_left (Option.some_ne_none word)
      have hnone : (ofUnits units).path = none := by
        rw [ofUnits, hpaths]
        rfl
      rw [ofUnits_append_path hpaths, ArgumentUnit.words, List.singleton_append, read.eq_def]
      simp only [Argument.ofWord_of_isPath h.proper, hnone]

theorem read_flatten (units rest : List ArgumentUnit) (h : Acceptable (units ++ rest))
    (words : List String) :
    (ofUnits units).read (flatten rest ++ words) = (ofUnits (units ++ rest)).read words := by
  induction rest generalizing units with
  | nil => rw [List.append_nil, flatten, List.flatMap_nil, List.nil_append]
  | cons unit rest ih =>
      rw [List.append_cons] at h ⊢
      obtain ⟨-, hfits⟩ := acceptable_append_singleton_iff.mp h.of_append
      rw [flatten, List.flatMap_cons, List.append_assoc, read_unit hfits]
      exact ih _ h

theorem ofArguments_flatten_append (h : Acceptable units) (words : List String) :
    ofArguments (flatten units ++ words) = (ofUnits units).read words :=
  read_flatten [] units h words

end Options

namespace ArgumentUnit

variable {units : List ArgumentUnit} {unit : ArgumentUnit} {words : List String}
  {error : ArgumentError}

/-- The first of the words cannot follow the given units. -/
inductive Offends (units : List ArgumentUnit) : List String → ArgumentError → Prop where
  | missingName (flag : BackendFlag) : Offends units [flag.word] (.missingBackendName flag.word)
  | unknownFlag {word : String} (hword : IsUnknownFlag word) (words : List String) :
      Offends units (word :: words) (.unknownFlag word)
  | secondPath {word : String} (hword : IsPath word) {first : String} (hfirst : .path first ∈ units)
      (words : List String) : Offends units (word :: words) .secondPath

theorem mem_paths_iff {word : String} : word ∈ paths units ↔ .path word ∈ units := by
  rw [paths, List.mem_filterMap]
  constructor
  · rintro ⟨unit, hunit, hpath⟩
    cases unit with
    | backend flag name => cases hpath
    | switch which => cases hpath
    | path other =>
        cases hpath
        exact hunit
  · exact fun h => ⟨.path word, h, rfl⟩

/-- After the given units, the words go on with units up to their end or up to an offence. -/
def GoesOn (units : List ArgumentUnit) (words : List String) : Prop :=
  ∃ more rest, words = flatten more ++ rest ∧ Acceptable (units ++ more) ∧
    (rest = [] ∨ ∃ error, Offends (units ++ more) rest error)

theorem GoesOn.cons (h : GoesOn (units ++ [unit]) words) : GoesOn units (unit.words ++ words) := by
  obtain ⟨more, rest, rfl, hmore, hrest⟩ := h
  rw [List.append_assoc, List.singleton_append] at hmore hrest
  refine ⟨unit :: more, rest, ?_, hmore, hrest⟩
  rw [flatten, flatten, List.flatMap_cons, List.append_assoc]

theorem GoesOn.of_offends (h : Acceptable units) (hwords : Offends units words error) :
    GoesOn units words := by
  refine ⟨[], words, rfl, ?_, Or.inr ⟨error, ?_⟩⟩
  · rwa [List.append_nil]
  · rwa [List.append_nil]

theorem goesOn : (words : List String) → {units : List ArgumentUnit} → Acceptable units →
    GoesOn units words
  | [], units, h => ⟨[], [], rfl, by rwa [List.append_nil], Or.inl rfl⟩
  | word :: words, units, h => by
      -- The recursion is on the number of words, since a backend unit takes two of them.
      have hnext (unit : ArgumentUnit) (hunit : Fits units unit) (rest : List String)
          (hlength : rest.length ≤ words.length) : GoesOn units (unit.words ++ rest) :=
        (goesOn rest (acceptable_append_singleton_iff.mpr ⟨h, hunit⟩)).cons
      rcases word_cases word with ⟨flag, rfl⟩ | ⟨which, rfl⟩ | hpath | hunknown
      · rcases words with _ | ⟨name, words⟩
        · exact .of_offends h (.missingName flag)
        · exact hnext (.backend flag name) ⟨trivial, Or.inl rfl⟩ words (Nat.le_succ _)
      · exact hnext (.switch which) ⟨trivial, Or.inl rfl⟩ words (Nat.le_refl _)
      · rcases hpaths : paths units with _ | ⟨first, others⟩
        · exact hnext (.path word) ⟨hpath, Or.inr hpaths⟩ words (Nat.le_refl _)
        · have hfirst : .path first ∈ units := mem_paths_iff.mp (hpaths ▸ List.mem_cons_self)
          exact .of_offends h (.secondPath hpath hfirst words)
      · exact .of_offends h (.unknownFlag hunknown words)
termination_by words => words.length

end ArgumentUnit

namespace Options

open ArgumentUnit

variable {units units' : List ArgumentUnit} {words : List String} {error : ArgumentError}
  {options : Options}

theorem ofArguments_flatten (h : Acceptable units) :
    ofArguments (flatten units) = .ok (ofUnits units) := by
  rw [← List.append_nil (flatten units), ofArguments_flatten_append h, read]

theorem read_of_offends (h : Offends units words error) :
    (ofUnits units).read words = .error error := by
  cases h with
  | missingName flag =>
      rw [read.eq_def]
      simp only [Argument.ofWord_backendFlag]
  | unknownFlag hword words =>
      rw [read.eq_def]
      simp only [Argument.ofWord_of_isUnknownFlag hword]
  | secondPath hword hfirst words =>
      obtain ⟨path, others, hpaths⟩ := List.exists_cons_of_ne_nil
        (List.ne_nil_of_mem (mem_paths_iff.mpr hfirst))
      have hpath : (ofUnits units).path = some path := by
        rw [ofUnits, hpaths]
        rfl
      rw [read.eq_def]
      simp only [Argument.ofWord_of_isPath hword, hpath]

theorem ofArguments_of_offends (h : Acceptable units) (hwords : Offends units words error) :
    ofArguments (flatten units ++ words) = .error error := by
  rw [ofArguments_flatten_append h, read_of_offends hwords]

theorem ofArguments_cases (words : List String) :
    (∃ units, Acceptable units ∧ words = flatten units) ∨
      ∃ units rest error, Acceptable units ∧ words = flatten units ++ rest ∧
        Offends units rest error := by
  obtain ⟨units, rest, hwords, hunits, hrest⟩ := goesOn words Acceptable.nil
  rw [List.nil_append] at hunits hrest
  rcases hrest with rfl | ⟨error, hoffends⟩
  · exact Or.inl ⟨units, hunits, hwords.trans (List.append_nil _)⟩
  · exact Or.inr ⟨units, rest, error, hunits, hwords, hoffends⟩

theorem ofArguments_eq_ok_iff :
    ofArguments words = .ok options ↔
      ∃ units, Acceptable units ∧ words = flatten units ∧ options = ofUnits units := by
  constructor
  · intro h
    rcases ofArguments_cases words with ⟨units, hunits, rfl⟩ |
      ⟨units, rest, error, hunits, rfl, hoffends⟩
    · rw [ofArguments_flatten hunits, Except.ok.injEq] at h
      exact ⟨units, hunits, rfl, h.symm⟩
    · rw [ofArguments_of_offends hunits hoffends] at h
      cases h
  · rintro ⟨units, hunits, rfl, rfl⟩
    exact ofArguments_flatten hunits

theorem ofArguments_eq_error_iff :
    ofArguments words = .error error ↔
      ∃ units rest, Acceptable units ∧ words = flatten units ++ rest ∧
        Offends units rest error := by
  constructor
  · intro h
    rcases ofArguments_cases words with ⟨units, hunits, rfl⟩ |
      ⟨units, rest, other, hunits, rfl, hoffends⟩
    · rw [ofArguments_flatten hunits] at h
      cases h
    · rw [ofArguments_of_offends hunits hoffends, Except.error.injEq] at h
      exact ⟨units, rest, hunits, rfl, h ▸ hoffends⟩
  · rintro ⟨units, rest, hunits, rfl, hoffends⟩
    exact ofArguments_of_offends hunits hoffends

/-- Only the order of the backend units among themselves matters. -/
theorem ofUnits_perm (h : Acceptable units) (hperm : units.Perm units')
    (hnames : names units = names units') : ofUnits units = ofUnits units' := by
  have hpaths : paths units = paths units' := by
    have hpaths : (paths units).Perm (paths units') := hperm.filterMap path?
    rcases hcases : paths units with _ | ⟨path, others⟩
    · rw [hcases] at hpaths
      exact hpaths.nil_eq
    · have hone := h.onePath
      rw [hcases] at hpaths hone
      obtain rfl : others = [] :=
        List.length_eq_zero_iff.mp (Nat.le_zero.mp (Nat.le_of_succ_le_succ hone))
      exact hpaths.singleton_eq
  simp only [ofUnits, hnames, hpaths, hperm.mem_iff]

theorem ofArguments_flatten_perm (h : Acceptable units) (hperm : units.Perm units')
    (hnames : names units = names units') :
    ofArguments (flatten units') = ofArguments (flatten units) := by
  rw [ofArguments_flatten h, ofArguments_flatten (h.perm hperm), ofUnits_perm h hperm hnames]

end Options

namespace Selection

def toName : Selection → String
  | one name => name
  | all => "all"

theorem ofName_toName {selection : Selection} (h : selection ≠ one "all") :
    ofName selection.toName = selection := by
  cases selection with
  | one name =>
      rw [toName, ofName, if_neg]
      rintro rfl
      exact h rfl
  | all => rfl

theorem ofName_ne (name : String) : ofName name ≠ one "all" := by
  rw [ofName]
  split
  · exact Selection.noConfusion
  · rename_i hname
    exact fun h => hname (one.inj h)

end Selection

namespace Options

open ArgumentUnit

def asks (options : Options) : Switch → Bool
  | .recover => options.recovery = .skipStatement
  | .tree => options.showTree
  | .code => options.showCode

/-- Units that ask for the given options. -/
def toUnits (options : Options) : List ArgumentUnit :=
  .backend .short options.selection.toName ::
    ((Switch.all.filter options.asks).map .switch ++ options.path.toList.map .path)

variable {options : Options}

theorem names_toUnits (options : Options) : names options.toUnits = [options.selection.toName] := by
  simp [toUnits, names, name?, List.filterMap_eq_nil_iff]

theorem paths_toUnits (options : Options) : paths options.toUnits = options.path.toList := by
  have hswitches :
      ((Switch.all.filter options.asks).map ArgumentUnit.switch).filterMap path? = [] := by
    simp [path?, List.filterMap_eq_nil_iff]
  rw [toUnits, paths, List.filterMap_cons_none rfl, List.filterMap_append, hswitches,
    List.nil_append, List.filterMap_map]
  exact List.filterMap_some

theorem switch_mem_toUnits_iff {which : Switch} :
    .switch which ∈ options.toUnits ↔ options.asks which = true := by
  simp [toUnits, Switch.mem_all]

theorem ofUnits_toUnits (h : options.selection ≠ .one "all") :
    ofUnits options.toUnits = options := by
  have hselection := Selection.ofName_toName h
  rw [ofUnits]
  simp only [names_toUnits, paths_toUnits, switch_mem_toUnits_iff, asks]
  obtain ⟨selection, recovery, showTree, showCode, path⟩ := options
  cases recovery <;> cases path <;> simp [hselection]

theorem acceptable_toUnits (h : ∀ path ∈ options.path, IsPath path) :
    Acceptable options.toUnits := by
  refine ⟨fun unit hunit => ?_, ?_⟩
  · cases unit with
    | backend flag name => trivial
    | switch which => trivial
    | path word =>
        have hword : word ∈ paths options.toUnits := mem_paths_iff.mpr hunit
        rw [paths_toUnits, Option.mem_toList] at hword
        exact h word hword
  · rw [paths_toUnits]
    exact Option.length_toList_le

theorem selection_ofUnits_ne (units : List ArgumentUnit) :
    (ofUnits units).selection ≠ .one "all" := by
  rw [ofUnits]
  split
  · exact Selection.ofName_ne _
  · exact fun h => absurd (Selection.one.inj h) (by decide)

theorem isPath_of_mem_path_ofUnits {units : List ArgumentUnit} {path : String}
    (h : Acceptable units) (hpath : path ∈ (ofUnits units).path) : IsPath path := by
  have hmem : path ∈ paths units := List.mem_of_head? hpath
  exact h.proper (.path path) (mem_paths_iff.mp hmem)

theorem exists_ofArguments_eq_ok_iff :
    (∃ words, ofArguments words = .ok options) ↔
      options.selection ≠ .one "all" ∧ ∀ path ∈ options.path, IsPath path := by
  constructor
  · rintro ⟨words, hwords⟩
    obtain ⟨units, hunits, -, rfl⟩ := ofArguments_eq_ok_iff.mp hwords
    exact ⟨selection_ofUnits_ne units, fun path hpath => isPath_of_mem_path_ofUnits hunits hpath⟩
  · rintro ⟨hselection, hpath⟩
    refine ⟨flatten options.toUnits, ?_⟩
    rw [ofArguments_flatten (acceptable_toUnits hpath), ofUnits_toUnits hselection]

end Options

namespace ArgumentUnit

def head : ArgumentUnit → String
  | backend flag _ => flag.word
  | switch which => which.word
  | path word => word

def role : ArgumentUnit → Argument
  | backend _ _ => .backend
  | switch which => .ofSwitch which
  | path _ => .path

theorem words_eq (unit : ArgumentUnit) : unit.words = unit.head :: unit.name?.toList := by
  cases unit <;> rfl

theorem ofWord_head {unit : ArgumentUnit} (h : unit.Proper) :
    Argument.ofWord unit.head = unit.role := by
  cases unit with
  | backend flag name => exact Argument.ofWord_backendFlag flag
  | switch which => exact Argument.ofWord_switch which
  | path word => exact Argument.ofWord_of_isPath h

/-- The head tells what a unit is, and so where it ends. -/
theorem words_append_inj {unit other : ArgumentUnit} {words words' : List String}
    (hunit : unit.Proper) (hother : other.Proper)
    (h : unit.words ++ words = other.words ++ words') : unit = other ∧ words = words' := by
  rw [words_eq, words_eq, List.cons_append, List.cons_append, List.cons.injEq] at h
  obtain ⟨hhead, htail⟩ := h
  have hrole : unit.role = other.role := by
    rw [← ofWord_head hunit, hhead, ofWord_head hother]
  cases unit with
  | backend flag name =>
      cases other with
      | backend flag' name' =>
          obtain ⟨rfl, hwords⟩ := List.cons.inj htail
          exact ⟨congrArg (backend · name) (BackendFlag.word_injective hhead), hwords⟩
      | switch which => cases which <;> cases hrole
      | path word => cases hrole
  | switch which =>
      cases other with
      | backend flag name => cases which <;> cases hrole
      | switch which' => exact ⟨congrArg switch (Switch.word_injective hhead), htail⟩
      | path word => cases which <;> cases hrole
  | path word =>
      cases other with
      | backend flag name => cases hrole
      | switch which => cases which <;> cases hrole
      | path word' => exact ⟨congrArg path hhead, htail⟩

theorem flatten_inj {units units' : List ArgumentUnit} (h : ∀ unit ∈ units, unit.Proper)
    (h' : ∀ unit ∈ units', unit.Proper) (hflatten : flatten units = flatten units') :
    units = units' := by
  have hne (unit : ArgumentUnit) (rest : List ArgumentUnit) : flatten (unit :: rest) ≠ [] := by
    rw [flatten, List.flatMap_cons, words_eq]
    exact List.cons_ne_nil _ _
  induction units generalizing units' with
  | nil =>
      cases units' with
      | nil => rfl
      | cons unit' rest' => exact absurd hflatten.symm (hne unit' rest')
  | cons unit rest ih =>
      cases units' with
      | nil => exact absurd hflatten (hne unit rest)
      | cons unit' rest' =>
          obtain ⟨hunit, hrest⟩ := List.forall_mem_cons.mp h
          obtain ⟨hunit', hrest'⟩ := List.forall_mem_cons.mp h'
          obtain ⟨rfl, htail⟩ := words_append_inj hunit hunit' hflatten
          rw [ih hrest hrest' htail]

end ArgumentUnit

namespace Options

open ArgumentUnit

/-- An argument list is accepted just if it is a row of units with at most one path, and it
is such a row in one way only.  The options are those that the units ask for; the order of
the units does not matter, as long as the backend units keep theirs.  For all other lists
the error is about the first word that cannot follow the units before it. -/
theorem arguments_read_as_units :
    (∀ words options, ofArguments words = .ok options ↔
      ∃ units, Acceptable units ∧ words = flatten units ∧ options = ofUnits units) ∧
    (∀ units units', Acceptable units → Acceptable units' → flatten units = flatten units' →
      units = units') ∧
    (∀ units units', Acceptable units → units.Perm units' → names units = names units' →
      ofArguments (flatten units') = ofArguments (flatten units)) ∧
    (∀ words error, ofArguments words = .error error ↔
      ∃ units rest, Acceptable units ∧ words = flatten units ++ rest ∧
        Offends units rest error) ∧
    ∀ options, (∃ words, ofArguments words = .ok options) ↔
      options.selection ≠ .one "all" ∧ ∀ path ∈ options.path, IsPath path := by
  refine ⟨fun _ _ => ofArguments_eq_ok_iff, fun _ _ h h' => flatten_inj h.proper h'.proper,
    fun _ _ => ofArguments_flatten_perm, fun _ _ => ofArguments_eq_error_iff,
    fun _ => exists_ofArguments_eq_ok_iff⟩

/-- What stands after a backend flag is its name, even `--tree`. -/
theorem arguments_read_as_units_shuffled :
    ofArguments ["-b", "--tree", "--recover", "-", "--backend", "all"] =
        .ok { selection := .all, recovery := .skipStatement, path := some "-" } ∧
      ofArguments ["-", "-b", "--tree", "--backend", "all", "--recover"] =
        ofArguments ["-b", "--tree", "--recover", "-", "--backend", "all"] ∧
      ofArguments ["-", "--code", "-b"] = .error (.missingBackendName "-b") := by
  let units : List ArgumentUnit :=
    [.backend .short "--tree", .switch .recover, .path "-", .backend .long "all"]
  let shuffled : List ArgumentUnit :=
    [.path "-", .backend .short "--tree", .backend .long "all", .switch .recover]
  obtain ⟨hok, -, hperm, herror, -⟩ := arguments_read_as_units
  have hunits : Acceptable units := by decide
  have hmissing : Acceptable [.path "-", .switch .code] := by decide
  refine ⟨(hok _ _).mpr ⟨units, hunits, rfl, by decide⟩, ?_, ?_⟩
  · exact hperm units shuffled hunits (by decide) (by decide)
  · exact (herror _ _).mpr ⟨_, ["-b"], hmissing, rfl, .missingName .short⟩

end Options

end Polish
