import Polish.Proofs.Spacing

namespace Polish

/-- A text in pieces: what stands before the first word, and each word with what stands
after it. -/
structure Layout where
  lead : String
  parts : List (String × String)

namespace Layout

def words (layout : Layout) : List String :=
  layout.parts.map (·.1)

def text (layout : Layout) : String :=
  layout.lead ++ String.join (layout.parts.map fun part => part.1 ++ part.2)

/-- Around the words there are only blanks, and some stand between any two of them. -/
structure Separated (layout : Layout) : Prop where
  lead : Blank layout.lead
  gaps : ∀ part ∈ layout.parts, Blank part.2
  inner : ∀ part ∈ layout.parts.dropLast, part.2 ≠ ""

variable {lead word gap : String} {parts : List (String × String)}

theorem text_nil : text ⟨lead, []⟩ = lead := by
  simp [text]

theorem text_cons : text ⟨lead, (word, gap) :: parts⟩ = lead ++ word ++ text ⟨gap, parts⟩ := by
  simp [text, String.join_cons, String.append_assoc]

theorem text_append_lead (first : String) :
    text ⟨first ++ lead, parts⟩ = first ++ text ⟨lead, parts⟩ :=
  String.append_assoc

theorem separated_cons_iff :
    Separated ⟨lead, (word, gap) :: parts⟩ ↔
      Blank lead ∧ (parts ≠ [] → gap ≠ "") ∧ Separated ⟨gap, parts⟩ := by
  constructor
  · rintro ⟨hlead, hgaps, hinner⟩
    obtain ⟨hgap, hgaps⟩ := List.forall_mem_cons.mp hgaps
    refine ⟨hlead, ?_, hgap, hgaps, ?_⟩
    · intro hparts
      rw [List.dropLast_cons_of_ne_nil hparts] at hinner
      exact hinner (word, gap) List.mem_cons_self
    · intro part hpart
      have hparts : parts ≠ [] := by
        rintro rfl
        cases hpart
      rw [List.dropLast_cons_of_ne_nil hparts] at hinner
      exact hinner part (List.mem_cons_of_mem _ hpart)
  · rintro ⟨hlead, hgap, hblank, hgaps, hinner⟩
    refine ⟨hlead, List.forall_mem_cons.mpr ⟨hblank, hgaps⟩, ?_⟩
    by_cases hparts : parts = []
    · subst hparts
      exact List.forall_mem_nil _
    · rw [List.dropLast_cons_of_ne_nil hparts]
      exact List.forall_mem_cons.mpr ⟨hgap hparts, hinner⟩

theorem Separated.spaced {layout : Layout} (h : layout.Separated) :
    Spaced layout.words layout.text := by
  obtain ⟨lead, parts⟩ := layout
  induction parts generalizing lead with
  | nil =>
      rw [text_nil]
      exact .nil h.lead
  | cons part parts ih =>
      obtain ⟨word, gap⟩ := part
      obtain ⟨hlead, hgap, hrest⟩ := separated_cons_iff.mp h
      rw [text_cons]
      refine .cons hlead ?_ (ih gap hrest)
      by_cases hparts : parts = []
      · subst hparts
        rw [text_nil]
        intro c hc
        exact hrest.lead c (List.mem_of_mem_head? hc)
      · exact hrest.lead.breaks_append (hgap hparts) _

/-- One more character before a text: a blank stands before the words, anything else
joins the first word or is a word of its own. -/
theorem exists_cons {layout : Layout} (h : layout.Separated)
    (hwords : ∀ word ∈ layout.words, IsWord word) (c : Char) :
    ∃ next : Layout, next.Separated ∧ (∀ word ∈ next.words, IsWord word) ∧
      next.text = String.singleton c ++ layout.text := by
  obtain ⟨lead, parts⟩ := layout
  obtain ⟨hlead, hgaps, hinner⟩ := id h
  cases hc : isBlank c with
  | true =>
      have hblank : Blank (String.singleton c) := by simp [Blank, hc]
      exact ⟨⟨String.singleton c ++ lead, parts⟩, ⟨hblank.append hlead, hgaps, hinner⟩, hwords,
        text_append_lead _⟩
  | false =>
      by_cases hjoin : lead = "" ∧ parts ≠ []
      · obtain ⟨rfl, hparts⟩ := hjoin
        obtain ⟨⟨word, gap⟩, parts, rfl⟩ := List.exists_cons_of_ne_nil hparts
        obtain ⟨-, hgap, hrest⟩ := separated_cons_iff.mp h
        obtain ⟨hword, hwords⟩ := List.forall_mem_cons.mp hwords
        have hjoined : IsWord (String.singleton c ++ word) := by
          refine ⟨by simp, ?_⟩
          simpa [hc] using hword.2
        refine ⟨⟨"", (String.singleton c ++ word, gap) :: parts⟩,
          separated_cons_iff.mpr ⟨blank_empty, hgap, hrest⟩,
          List.forall_mem_cons.mpr ⟨hjoined, hwords⟩, ?_⟩
        rw [text_cons, text_cons]
        simp [String.append_assoc]
      · have hgap : parts ≠ [] → lead ≠ "" := fun hparts hempty => hjoin ⟨hempty, hparts⟩
        have hword : IsWord (String.singleton c) := ⟨by simp, by simp [hc]⟩
        refine ⟨⟨"", (String.singleton c, lead) :: parts⟩,
          separated_cons_iff.mpr ⟨blank_empty, hgap, h⟩,
          List.forall_mem_cons.mpr ⟨hword, hwords⟩, ?_⟩
        rw [text_cons]
        simp

theorem exists_text_eq (text : String) :
    ∃ layout : Layout, layout.Separated ∧ (∀ word ∈ layout.words, IsWord word) ∧
      layout.text = text := by
  rw [← String.ofList_toList (s := text)]
  induction text.toList with
  | nil => exact ⟨⟨"", []⟩, ⟨blank_empty, by simp, by simp⟩, by simp [words], by simp [Layout.text]⟩
  | cons c chars ih =>
      obtain ⟨layout, hseparated, hwords, htext⟩ := ih
      rw [String.ofList_cons, ← htext]
      exact exists_cons hseparated hwords c

end Layout

theorem words_eq_iff {text : String} {list : List String} :
    words text = list ↔
      (∀ word ∈ list, IsWord word) ∧
        ∃ layout : Layout, layout.Separated ∧ layout.words = list ∧ layout.text = text := by
  constructor
  · rintro rfl
    obtain ⟨layout, hseparated, hwords, rfl⟩ := Layout.exists_text_eq text
    rw [words_of_spaced hseparated.spaced hwords]
    exact ⟨hwords, layout, hseparated, rfl, rfl⟩
  · rintro ⟨hwords, layout, hseparated, rfl, rfl⟩
    exact words_of_spaced hseparated.spaced hwords

theorem Spaced.filter_toList {list : List String} {text : String} (h : Spaced list text)
    (hwords : ∀ word ∈ list, IsWord word) :
    text.toList.filter (!isBlank ·) = list.flatMap String.toList := by
  have hblank {gap : String} (hgap : Blank gap) : gap.toList.filter (!isBlank ·) = [] := by
    rw [List.filter_eq_nil_iff]
    intro c hc
    simp [hgap c hc]
  induction h with
  | nil hgap => exact hblank hgap
  | @cons gap word rest list hgap _ _ ih =>
      obtain ⟨hword, hlist⟩ := List.forall_mem_cons.mp hwords
      have hkept : word.toList.filter (!isBlank ·) = word.toList := by
        rw [List.filter_eq_self]
        intro c hc
        simp [hword.2 c hc]
      rw [String.toList_append, String.toList_append, List.filter_append, List.filter_append,
        hblank hgap, hkept, ih hlist, List.nil_append, List.flatMap_cons]

theorem filter_toList_eq_flatMap_words (text : String) :
    text.toList.filter (!isBlank ·) = (words text).flatMap String.toList := by
  obtain ⟨layout, hseparated, hwords, rfl⟩ := Layout.exists_text_eq text
  rw [hseparated.spaced.filter_toList hwords, words_of_spaced hseparated.spaced hwords]

theorem words_append_blank_append {gap : String} (h : Blank gap) (hne : gap ≠ "")
    (front back : String) : words (front ++ gap ++ back) = words front ++ words back := by
  rw [String.append_assoc, words_append (h.breaks_append hne back), words_blank_append h]

/-- A text can be cut in one way only into words with blanks around them, some of them
between any two words, and what comes out are the words of the text.  They hold just
the characters that are not blank, in their order.  Other blanks in the same places
change nothing, whatever stands between them, and blanks between two texts keep their
words apart. -/
theorem words_are_the_only_splitting :
    (∀ (text : String) (list : List String),
      words text = list ↔
        (∀ word ∈ list, IsWord word) ∧
          ∃ layout : Layout, layout.Separated ∧ layout.words = list ∧ layout.text = text) ∧
    (∀ text : String, text.toList.filter (!isBlank ·) = (words text).flatMap String.toList) ∧
    (∀ first second : Layout, first.Separated → second.Separated →
      first.words = second.words → words first.text = words second.text) ∧
    ∀ front gap back : String, Blank gap → gap ≠ "" →
      words (front ++ gap ++ back) = words front ++ words back := by
  refine ⟨fun _ _ => words_eq_iff, filter_toList_eq_flatMap_words, ?_,
    fun front gap back hgap hne => words_append_blank_append hgap hne front back⟩
  intro first second hfirst hsecond hsame
  rw [hfirst.spaced.words_eq_flatMap, hsecond.spaced.words_eq_flatMap, hsame]

theorem words_are_the_only_splitting_wide_blanks :
    let list := ["@", "a-b", "\u200b"]
    let first : Layout := ⟨"\u3000\t", [("@", " \u2003"), ("a-b", "\r\n"), ("\u200b", "\u0085")]⟩
    let second : Layout := ⟨"", [("@", "\u00a0"), ("a-b", "\u2028"), ("\u200b", "")]⟩
    first.Separated ∧ second.Separated ∧ words first.text = list ∧
      words first.text = words second.text ∧
      words ("@" ++ "\u1680" ++ second.text) = words "@" ++ words second.text := by
  intro list first second
  have hfirst : first.Separated := ⟨by decide, by decide, by decide⟩
  have hsecond : second.Separated := ⟨by decide, by decide, by decide⟩
  have hlist : ∀ word ∈ list, IsWord word := by decide
  obtain ⟨honly, -, hsame, happend⟩ := words_are_the_only_splitting
  exact ⟨hfirst, hsecond, (honly first.text list).mpr ⟨hlist, first, hfirst, rfl, rfl⟩,
    hsame first second hfirst hsecond rfl,
    happend "@" "\u1680" second.text (by decide) (by decide)⟩

end Polish
