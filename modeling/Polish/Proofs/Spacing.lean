import Polish.Words

namespace Polish

/-- A word in a text: something without a blank. -/
def IsWord (word : String) : Prop :=
  word ≠ "" ∧ ∀ c ∈ word.toList, isBlank c = false

-- The quantifier is decided over the characters of the word, not over all characters.
instance (word : String) : Decidable (IsWord word) :=
  @instDecidableAnd _ _ inferInstance (List.decidableBAll _ word.toList)

def Blank (text : String) : Prop :=
  ∀ c ∈ text.toList, isBlank c = true

instance (text : String) : Decidable (Blank text) :=
  List.decidableBAll _ text.toList

/-- The text ends here or goes on with a blank. -/
def Breaks (chars : List Char) : Prop :=
  ∀ c ∈ chars.head?, isBlank c = true

/-- The text consists of the words in order, with blanks before, between and after
them.  Only those before the first and after the last word may be missing. -/
inductive Spaced : List String → String → Prop where
  | nil {gap : String} (hgap : Blank gap) : Spaced [] gap
  | cons {gap word rest : String} {words : List String} (hgap : Blank gap)
      (hbreak : Breaks rest.toList) (hrest : Spaced words rest) :
      Spaced (word :: words) (gap ++ word ++ rest)

theorem blank_empty : Blank "" := by
  intro c hc
  simp at hc

theorem Blank.append {first second : String} (hfirst : Blank first) (hsecond : Blank second) :
    Blank (first ++ second) := by
  intro c hc
  rw [String.toList_append] at hc
  rcases List.mem_append.mp hc with hc | hc
  · exact hfirst c hc
  · exact hsecond c hc

theorem Blank.breaks_append {gap : String} (h : Blank gap) (hne : gap ≠ "") (text : String) :
    Breaks (gap ++ text).toList := by
  intro c hc
  rcases hgap : gap.toList with _ | ⟨first, rest⟩
  · exact absurd (String.toList_eq_nil_iff.mp hgap) hne
  · rw [String.toList_append, hgap] at hc
    cases hc
    exact h c (hgap ▸ List.mem_cons_self)

/-- The words of a list of characters. -/
def pieces (chars : List Char) : List String :=
  ((chars.splitOnP isBlank).filter (!·.isEmpty)).map String.ofList

theorem words_eq_pieces (text : String) : words text = pieces text.toList :=
  rfl

@[simp] theorem pieces_nil : pieces [] = [] :=
  rfl

theorem pieces_append_blank {c : Char} (hc : isBlank c = true) (front back : List Char) :
    pieces (front ++ c :: back) = pieces front ++ pieces back := by
  simp [pieces, List.splitOnP_append_cons front back hc]

theorem pieces_append {back : List Char} (h : Breaks back) (front : List Char) :
    pieces (front ++ back) = pieces front ++ pieces back := by
  rcases back with _ | ⟨c, back⟩
  · simp
  · have hc : isBlank c = true := h c rfl
    have hback := pieces_append_blank hc [] back
    rw [List.nil_append, pieces_nil, List.nil_append] at hback
    rw [pieces_append_blank hc, hback]

theorem pieces_blank_append {gap : List Char} (h : ∀ c ∈ gap, isBlank c = true)
    (chars : List Char) : pieces (gap ++ chars) = pieces chars := by
  induction gap with
  | nil => rfl
  | cons c gap ih =>
      obtain ⟨hc, hgap⟩ := List.forall_mem_cons.mp h
      have hfirst := pieces_append_blank hc [] (gap ++ chars)
      rw [List.cons_append, ← ih hgap]
      exact hfirst

theorem words_of_blank {text : String} (h : Blank text) : words text = [] := by
  have hpieces := pieces_blank_append h []
  rwa [List.append_nil] at hpieces

theorem words_of_isWord {word : String} (h : IsWord word) : words word = [word] := by
  obtain ⟨hne, hchars⟩ := h
  have hsplit : word.toList.splitOnP isBlank = [word.toList] :=
    List.splitOnP_eq_singleton hchars
  rw [words, hsplit]
  simp [hne]

theorem words_append {rest : String} (h : Breaks rest.toList) (text : String) :
    words (text ++ rest) = words text ++ words rest := by
  rw [words_eq_pieces, String.toList_append, pieces_append h]
  rfl

theorem words_blank_append {gap : String} (h : Blank gap) (text : String) :
    words (gap ++ text) = words text := by
  rw [words_eq_pieces, String.toList_append, pieces_blank_append h]
  rfl

theorem Spaced.words_eq_flatMap {list : List String} {text : String} (h : Spaced list text) :
    words text = list.flatMap words := by
  induction h with
  | nil hgap => exact words_of_blank hgap
  | cons hgap hbreak _ ih =>
      rw [words_append hbreak, words_blank_append hgap, ih, List.flatMap_cons]

theorem flatMap_words_of_isWord {list : List String} (h : ∀ word ∈ list, IsWord word) :
    list.flatMap words = list := by
  induction list with
  | nil => rfl
  | cons word list ih =>
      obtain ⟨hword, hlist⟩ := List.forall_mem_cons.mp h
      rw [List.flatMap_cons, words_of_isWord hword, ih hlist, List.singleton_append]

/-- The words that a text is made of are found again. -/
theorem words_of_spaced {list : List String} {text : String} (h : Spaced list text)
    (hwords : ∀ word ∈ list, IsWord word) : words text = list := by
  rw [h.words_eq_flatMap, flatMap_words_of_isWord hwords]

theorem not_blank_of_mem_splitOnP {chars piece : List Char}
    (h : piece ∈ chars.splitOnP isBlank) : ∀ c ∈ piece, isBlank c = false := by
  induction chars generalizing piece with
  | nil =>
      rw [List.splitOnP_nil, List.mem_singleton] at h
      simp [h]
  | cons first chars ih =>
      rw [List.splitOnP_cons_eq_if_modifyHead] at h
      split at h
      · rcases List.mem_cons.mp h with rfl | h
        · simp
        · exact ih h
      · rename_i hfirst
        rcases hsplit : chars.splitOnP isBlank with _ | ⟨head, rest⟩
        · exact absurd hsplit (List.splitOnP_ne_nil _ _)
        · rw [hsplit, List.modifyHead_cons] at h
          rcases List.mem_cons.mp h with rfl | h
          · have hhead := @ih head (by simp [hsplit])
            exact List.forall_mem_cons.mpr ⟨Bool.not_eq_true _ ▸ hfirst, hhead⟩
          · exact ih (by simp [hsplit, h])

theorem isWord_of_mem_words {text word : String} (h : word ∈ words text) : IsWord word := by
  simp only [words, List.mem_map, List.mem_filter] at h
  obtain ⟨piece, ⟨hpiece, hne⟩, rfl⟩ := h
  constructor
  · intro hempty
    simp [String.ofList_eq_empty_iff.mp hempty] at hne
  · rw [String.toList_ofList]
    exact not_blank_of_mem_splitOnP hpiece

theorem Spaced.blank_append {list : List String} {text : String} (h : Spaced list text)
    {gap : String} (hgap : Blank gap) : Spaced list (gap ++ text) := by
  cases h with
  | nil hfirst => exact .nil (hgap.append hfirst)
  | cons hfirst hbreak hrest =>
      rw [← String.append_assoc, ← String.append_assoc]
      exact .cons (hgap.append hfirst) hbreak hrest

theorem spaced_intercalate (list : List String) : Spaced list (" ".intercalate list) := by
  have hspace : Blank " " := by decide
  induction list with
  | nil => exact .nil blank_empty
  | cons word list ih =>
      rcases list with _ | ⟨next, list⟩
      · have hword : Spaced [word] ("" ++ word ++ "") :=
          .cons blank_empty (by simp [Breaks]) (.nil blank_empty)
        simpa using hword
      · have hrest := ih.blank_append hspace
        have hbreak := hspace.breaks_append (by decide) (" ".intercalate (next :: list))
        have hword : Spaced (word :: next :: list)
            ("" ++ word ++ (" " ++ " ".intercalate (next :: list))) :=
          .cons blank_empty hbreak hrest
        rw [String.intercalate_cons_cons]
        simpa [String.append_assoc] using hword

end Polish
