import Mathlib.Data.List.Nodup
import Mathlib.Data.List.Sort
import Polish.Proofs.ByteOrder
import Polish.Proofs.Infix
import Polish.Proofs.Lines

namespace Polish

namespace Bindings

inductive Change where
  | assign (name : String) (value : Int64)
  | clear
  deriving DecidableEq, Repr

def change (bindings : Bindings) : Change → Bindings
  | .assign name value => bindings.assign name value
  | .clear => bindings.clear

/-- The bindings that changes make, one after the other, of no bindings at all. -/
def ofChanges (changes : List Change) : Bindings :=
  changes.foldl change empty

/-- Nothing is cleared, and nothing assigned to the name. -/
def Spares (changes : List Change) (name : String) : Prop :=
  .clear ∉ changes ∧ ∀ value, .assign name value ∉ changes

/-- The name is assigned the value, and later changes spare it. -/
def LastAssigned (changes : List Change) (name : String) (value : Int64) : Prop :=
  ∃ before after, changes = before ++ .assign name value :: after ∧ Spares after name

section Changes

variable {changes : List Change} {name : String} {value : Int64}

theorem spares_cons_iff {change : Change} :
    Spares (change :: changes) name ↔
      change ≠ .clear ∧ (∀ value, change ≠ .assign name value) ∧ Spares changes name := by
  simp only [Spares, List.mem_cons, not_or, eq_comm, forall_and, ne_eq]
  tauto

theorem lastAssigned_cons_iff {change : Change} :
    LastAssigned (change :: changes) name value ↔
      LastAssigned changes name value ∨ change = .assign name value ∧ Spares changes name := by
  constructor
  · rintro ⟨before, after, hchanges, hspares⟩
    rcases before with _ | ⟨first, before⟩
    · obtain ⟨rfl, rfl⟩ := List.cons.inj hchanges
      exact Or.inr ⟨rfl, hspares⟩
    · obtain ⟨rfl, hrest⟩ := List.cons.inj hchanges
      exact Or.inl ⟨before, after, hrest, hspares⟩
  · rintro (⟨before, after, rfl, hspares⟩ | ⟨rfl, hspares⟩)
    · exact ⟨change :: before, after, rfl, hspares⟩
    · exact ⟨[], changes, rfl, hspares⟩

theorem get?_foldl_change (bindings : Bindings) :
    (changes.foldl change bindings).get? name = some value ↔
      LastAssigned changes name value ∨
        Spares changes name ∧ bindings.get? name = some value := by
  induction changes generalizing bindings with
  | nil => simp [LastAssigned, Spares]
  | cons change changes ih =>
      rw [List.foldl_cons, ih, lastAssigned_cons_iff, spares_cons_iff]
      cases change with
      | clear => simp [Bindings.change, clear]
      | assign target other =>
          rw [Bindings.change, get?_assign]
          by_cases htarget : name = target
          · subst htarget
            simp [eq_comm, and_comm]
          · simp [htarget, Ne.symm htarget]

theorem get?_ofChanges :
    (ofChanges changes).get? name = some value ↔ LastAssigned changes name value := by
  rw [ofChanges, get?_foldl_change, get?_empty]
  simp

end Changes

section Entries

variable {bindings : Bindings} {name : String} {value : Int64}

theorem lookup_eq_some_iff {entries : List Entry} (h : Ascending entries) :
    lookup name entries = some value ↔ (name, value) ∈ entries := by
  induction entries with
  | nil => simp [lookup]
  | cons first rest ih =>
      obtain ⟨hfirst, hrest⟩ := List.pairwise_cons.mp h
      obtain ⟨other, found⟩ := first
      by_cases hname : other = name
      · subst hname
        have hnot : (other, value) ∉ rest := fun hmem => String.lt_irrefl other (hfirst _ hmem)
        simp [lookup, hnot, eq_comm]
      · rw [List.mem_cons, ← ih hrest]
        simp [lookup, hname, Ne.symm hname]

theorem mem_entries_iff : (name, value) ∈ bindings.entries ↔ bindings.get? name = some value :=
  (lookup_eq_some_iff bindings.ascending).symm

theorem ascending_iff {entries : List Entry} :
    Ascending entries ↔ entries.Pairwise fun a b => ByteLt a.1 b.1 := by
  simp only [Ascending, byteLt_iff_lt]

/-- Only one list in ascending order has given entries. -/
theorem eq_entries_of_mem_iff {entries : List Entry} (hascending : Ascending entries)
    (h : ∀ name value, (name, value) ∈ entries ↔ bindings.get? name = some value) :
    entries = bindings.entries := by
  have hirrefl : Std.Irrefl fun a b : Entry => a.1 < b.1 := ⟨fun a => String.lt_irrefl a.1⟩
  have hantisymm : Std.Antisymm fun a b : Entry => a.1 < b.1 :=
    ⟨fun a b hab hba => absurd (String.lt_trans hab hba) (String.lt_irrefl a.1)⟩
  apply List.Pairwise.eq_of_mem_iff hascending bindings.ascending
  rintro ⟨name, value⟩
  rw [h, mem_entries_iff]

theorem eq_of_get?_eq {first second : Bindings}
    (h : ∀ name, first.get? name = second.get? name) : first = second := by
  apply Bindings.ext
  apply eq_entries_of_mem_iff first.ascending
  intro name value
  rw [mem_entries_iff, h]

theorem length_eq_size {names : List String} (hnodup : names.Nodup)
    (h : ∀ name, name ∈ names ↔ (bindings.get? name).isSome = true) :
    names.length = bindings.size := by
  have hentries : (bindings.entries.map Prod.fst).Nodup := by
    rw [List.Nodup, List.pairwise_map]
    apply bindings.ascending.imp
    intro a b hlt heq
    exact String.lt_irrefl b.1 (heq ▸ hlt)
  have hperm : names.Perm (bindings.entries.map Prod.fst) := by
    rw [List.perm_ext_iff_of_nodup hnodup hentries]
    intro name
    rw [h, Option.isSome_iff_exists]
    simp [← mem_entries_iff]
  rw [hperm.length_eq, List.length_map]
  rfl

end Entries

/-- The line of an entry in the dump. -/
def line (entry : Entry) : String :=
  "  " ++ entry.1 ++ " = " ++ Decimal.text entry.2.toInt

theorem text_eq_unlines (bindings : Bindings) :
    bindings.text = unlines ("Symbol table:" :: bindings.entries.map line) := by
  rw [text, unlines, List.map_cons, String.join_cons, List.map_map]
  rfl

/-- Read backwards, a line is the numeral up to the first blank, and then the name. -/
theorem line_injective : Function.Injective line := by
  rintro ⟨name, value⟩ ⟨name', value'⟩ h
  have hreverse (name : String) (value : Int64) : (line (name, value)).toList.reverse =
      (Decimal.text value.toInt).toList.reverse ++
        ' ' :: '=' :: ' ' :: (name.toList.reverse ++ [' ', ' ']) := by
    simp [line]
  have hword (value : Int64) : ∀ c ∈ (Decimal.text value.toInt).toList.reverse,
      isBlank c = false := by
    intro c hc
    exact (Decimal.isWord_text value.toInt).2 c (List.mem_reverse.mp hc)
  have hchars := congrArg (fun text : String => text.toList.reverse) h
  simp only [hreverse] at hchars
  obtain ⟨hvalue, hrest⟩ := append_inj_of_breaks (hword value) (hword value')
    (breaks_space _) (breaks_space _) hchars
  have hname : name.toList = name'.toList := by simpa using hrest
  have hvalue : value.toInt = value'.toInt :=
    Decimal.text_injective (String.toList_inj.mp (List.reverse_injective hvalue))
  rw [String.toList_inj.mp hname, Int64.toInt_inj.mp hvalue]

theorem oneLine_line {name : String} (h : OneLine name) (value : Int64) :
    OneLine (line (name, value)) := by
  have hvalue : '\n' ∉ (Decimal.text value.toInt).toList := by
    intro hmem
    have hblank := (Decimal.isWord_text value.toInt).2 '\n' hmem
    cases hblank
  have hname : '\n' ∉ name.toList := h
  simp [OneLine, line, hname, hvalue]

/-- Every name that has a value fits on one line. -/
def OneLineNames (bindings : Bindings) : Prop :=
  ∀ name, (bindings.get? name).isSome = true → OneLine name

theorem oneLineNames_iff {bindings : Bindings} :
    bindings.OneLineNames ↔ ∀ entry ∈ bindings.entries, OneLine entry.1 := by
  simp only [OneLineNames, Option.isSome_iff_exists, ← mem_entries_iff, Prod.forall,
    forall_exists_index]

theorem OneLineNames.oneLine {bindings : Bindings} (h : bindings.OneLineNames) :
    ∀ text ∈ "Symbol table:" :: bindings.entries.map line, OneLine text := by
  rw [List.forall_mem_cons]
  refine ⟨by decide, ?_⟩
  intro text htext
  obtain ⟨⟨name, value⟩, hentry, rfl⟩ := List.mem_map.mp htext
  exact oneLine_line (oneLineNames_iff.mp h _ hentry) value

theorem eq_of_text_eq {first second : Bindings} (hfirst : first.OneLineNames)
    (hsecond : second.OneLineNames) (h : first.text = second.text) : first = second := by
  rw [text_eq_unlines, text_eq_unlines] at h
  have hlines := eq_of_unlines_eq hfirst.oneLine hsecond.oneLine h
  exact Bindings.ext (line_injective.list_map (List.cons.inj hlines).2)

/-- Bindings are a finite map.  Every name has the value of its last assignment since the
last clearing, if there is one; the entries are the one list of these names and values that
ascends by the bytes of the names, and there are as many as names with a value.  Bindings
are equal just if they give every name the same, and then their dumps are equal, however
they came about.  If no name contains a line feed, only equal bindings have equal dumps. -/
theorem finite_map_with_faithful_dump :
    (∀ changes : List Change,
      let bindings := ofChanges changes
      (∀ name value, bindings.get? name = some value ↔ LastAssigned changes name value) ∧
      (∀ name value, (name, value) ∈ bindings.entries ↔ LastAssigned changes name value) ∧
      bindings.entries.Pairwise (fun a b => ByteLt a.1 b.1) ∧
      (∀ entries : List Entry, entries.Pairwise (fun a b => ByteLt a.1 b.1) →
        (∀ name value, (name, value) ∈ entries ↔ LastAssigned changes name value) →
          entries = bindings.entries) ∧
      bindings.entries.length = bindings.size ∧
      (∀ names : List String, names.Nodup →
        (∀ name, name ∈ names ↔ ∃ value, LastAssigned changes name value) →
          names.length = bindings.size)) ∧
    ∀ changes changes' : List Change,
      let first := ofChanges changes
      let second := ofChanges changes'
      (first = second ↔ ∀ name, first.get? name = second.get? name) ∧
      ((∀ name, first.get? name = second.get? name) → first.text = second.text) ∧
      (first.OneLineNames → second.OneLineNames → first.text = second.text → first = second) := by
  constructor
  · intro changes bindings
    have hentries (name : String) (value : Int64) :
        (name, value) ∈ bindings.entries ↔ LastAssigned changes name value := by
      rw [mem_entries_iff, get?_ofChanges]
    refine ⟨fun _ _ => get?_ofChanges, hentries, ascending_iff.mp bindings.ascending, ?_, rfl, ?_⟩
    · intro entries hascending hmem
      apply eq_entries_of_mem_iff (ascending_iff.mpr hascending)
      intro name value
      rw [hmem, get?_ofChanges]
    · intro names hnodup hnames
      apply length_eq_size hnodup
      intro name
      rw [hnames, Option.isSome_iff_exists]
      simp only [bindings, get?_ofChanges]
  · intro changes changes' first second
    refine ⟨⟨fun h name => h ▸ rfl, eq_of_get?_eq⟩, ?_, eq_of_text_eq⟩
    intro h
    rw [eq_of_get?_eq h]

/-- The order of assignments leaves no trace, and an equals sign in a name is not taken for
the one after the name. -/
theorem finite_map_with_faithful_dump_separator :
    let changes : List Change :=
      [.assign "c" 9, .clear, .assign "b" 1, .assign "a = 1" 2, .assign "b" 3]
    let reordered : List Change := [.assign "b" 3, .assign "a = 1" 2]
    let others : List Change := [.assign "a" 1, .assign "b" 3]
    (ofChanges changes).text = (ofChanges reordered).text ∧
      (ofChanges changes).OneLineNames ∧ (ofChanges others).OneLineNames ∧
      (ofChanges changes).text ≠ (ofChanges others).text := by
  intro changes reordered others
  have hnames : (ofChanges changes).OneLineNames := oneLineNames_iff.mpr (by decide)
  have hothers : (ofChanges others).OneLineNames := oneLineNames_iff.mpr (by decide)
  obtain ⟨hequal, hdump, -⟩ := finite_map_with_faithful_dump.2 changes reordered
  obtain ⟨-, -, hfaithful⟩ := finite_map_with_faithful_dump.2 changes others
  refine ⟨hdump (hequal.mp (by decide)), hnames, hothers, ?_⟩
  intro htext
  have hdifferent : ofChanges changes ≠ ofChanges others := by decide
  exact hdifferent (hfaithful hnames hothers htext)

/-- With a line feed in a name, different bindings may have the same dump. -/
example :
    (ofChanges [.assign "a" 1, .assign "b" 2]).text =
      (ofChanges [.assign "a = 1\n  b" 2]).text := by
  decide +kernel

end Bindings

end Polish
