import Polish.Proofs.Naming

namespace Polish

namespace Expr

theorem spelledBy_words {e : Expr} (h : e.Named) : e.SpelledBy e.words := by
  induction e with
  | const value => exact .const (Token.ofWord_text value)
  | var name =>
      obtain ⟨hidentifier, -⟩ := h name List.mem_cons_self
      exact .var (Token.ofWord_eq_identifier_iff.mpr hidentifier)
  | binary op left right ihLeft ihRight =>
      obtain ⟨hleft, hright⟩ := named_binary_iff.mp h
      exact .binary (ihLeft hleft) (ihRight hright)
  | unary op operand ih => exact .unary (ih h)

theorem isWord_of_mem_words {e : Expr} (h : e.Named) {word : String} (hword : word ∈ e.words) :
    IsWord word := by
  induction e with
  | const value =>
      rw [List.mem_singleton.mp hword]
      exact Decimal.isWord_text _
  | var name =>
      rw [List.mem_singleton.mp hword]
      exact (h name List.mem_cons_self).isWord
  | binary op left right ihLeft ihRight =>
      obtain ⟨hleft, hright⟩ := named_binary_iff.mp h
      rcases List.mem_cons.mp hword with rfl | hword
      · exact op.isWord_symbol
      · rcases List.mem_append.mp hword with hword | hword
        · exact ihLeft hleft hword
        · exact ihRight hright hword
  | unary op operand ih =>
      rcases List.mem_cons.mp hword with rfl | hword
      · exact op.isWord_symbol
      · exact ih h hword

end Expr

namespace Statement

theorem spelledBy_words {statement : Statement} (h : statement.Named) :
    statement.SpelledBy statement.words := by
  cases statement with
  | assign target value =>
      obtain ⟨⟨hidentifier, -⟩, hvalue⟩ := named_assign_iff.mp h
      exact .assign (Token.ofWord_eq_identifier_iff.mpr hidentifier)
        (Expr.spelledBy_words hvalue)
  | print value => exact .print (Expr.spelledBy_words h)

theorem isWord_of_mem_words {statement : Statement} (h : statement.Named) {word : String}
    (hword : word ∈ statement.words) : IsWord word := by
  cases statement with
  | assign target value =>
      obtain ⟨htarget, hvalue⟩ := named_assign_iff.mp h
      rcases List.mem_cons.mp hword with rfl | hword
      · exact Introducer.assign.isWord_word
      · rcases List.mem_cons.mp hword with rfl | hword
        · exact htarget.isWord
        · exact Expr.isWord_of_mem_words hvalue hword
  | print value =>
      rcases List.mem_cons.mp hword with rfl | hword
      · exact Introducer.print.isWord_word
      · exact Expr.isWord_of_mem_words h hword

end Statement

namespace Program

theorem spelledBy_words {program : Program} (h : program.Named) :
    program.SpelledBy program.words := by
  induction program with
  | nil => exact InOrder.nil_iff.mpr rfl
  | cons statement program ih =>
      obtain ⟨hstatement, hprogram⟩ := List.forall_mem_cons.mp h
      exact InOrder.cons_iff.mpr
        ⟨_, _, Statement.spelledBy_words hstatement, ih hprogram, List.flatMap_cons⟩

theorem isWord_of_mem_words {program : Program} (h : program.Named) {word : String}
    (hword : word ∈ program.words) : IsWord word := by
  obtain ⟨statement, hstatement, hword⟩ := List.mem_flatMap.mp hword
  exact Statement.isWord_of_mem_words (h statement hstatement) hword

end Program

namespace Parser

theorem parse_of_spelledBy {program : Program} {words : List String}
    (hspelled : program.SpelledBy words)
    (hdepths : ∀ statement ∈ program, statement.value.depth ≤ depthLimit) (parser : Parser) :
    (parser.parse words).1 = .ok program ∧ (parser.parse words).2.diagnostics = [] := by
  obtain ⟨clusters, rfl, hclusters⟩ :=
    Program.spelledBy_iff_exists_clusters.mp ⟨hspelled, hdepths⟩
  have hsplit := Cluster.split_flatMap (Cluster.forall_closed_of_parse hclusters)
  have hparse := Cluster.mapM_parse_eq_ok_iff.mpr hclusters
  cases hrecovery : parser.recovery with
  | abort =>
      obtain ⟨names, stack, hrun⟩ := parse_abort_of_split hsplit parser hrecovery
      rw [hrun]
      exact ⟨hparse, rfl⟩
  | skipStatement =>
      obtain ⟨names, stack, hrun⟩ := parse_skip_of_split hsplit parser hrecovery
      obtain ⟨hstatements, herrors⟩ := Cluster.mapM_parse_eq_ok_iff_errors.mp hparse
      rw [hrun, Cluster.map_snd_skipped]
      exact ⟨congrArg Except.ok hstatements, herrors⟩

end Parser

namespace Program

/-- The names can be written, and no expression has more levels than the limit. -/
structure Writable (program : Program) : Prop where
  named : program.Named
  shallow : ∀ statement ∈ program, statement.value.depth ≤ depthLimit

/-- The words of a program with one space between two of them. -/
def source (program : Program) : String :=
  " ".intercalate program.words

theorem Writable.parse_words {program : Program} (h : program.Writable) {text : String}
    (htext : Spaced program.words text) (parser : Parser) :
    (parser.parse (Polish.words text)).1 = .ok program ∧
      (parser.parse (Polish.words text)).2.diagnostics = [] := by
  have hwords : Polish.words text = program.words :=
    words_of_spaced htext fun _ hword => isWord_of_mem_words h.named hword
  rw [hwords]
  exact Parser.parse_of_spelledBy (spelledBy_words h.named) h.shallow parser

theorem writable_of_parse {parser : Parser} {text : String} {program : Program}
    (h : (parser.parse (Polish.words text)).1 = .ok program) : program.Writable := by
  refine ⟨Parser.named_of_parse_words h, ?_⟩
  intro statement hstatement
  obtain ⟨part, -, -, hdepth⟩ := Parser.exists_spelledBy_of_parse h hstatement
  exact hdepth

/-- Any parser reads a program from its words, however they are spaced, if the
names can be written and no expression is too deep.  Source text gives only such
programs, and each is read again from its own words. -/
theorem parse_source_round_trip (parser : Parser) :
    (∀ (program : Program) (text : String), program.Writable → Spaced program.words text →
      (parser.parse (Polish.words text)).1 = .ok program ∧
        (parser.parse (Polish.words text)).2.diagnostics = []) ∧
    ∀ (text : String) (program : Program), (parser.parse (Polish.words text)).1 = .ok program →
      program.Writable ∧ Spaced program.words program.source ∧
        (parser.parse (Polish.words program.source)).1 = .ok program ∧
        (parser.parse (Polish.words program.source)).2.diagnostics = [] := by
  constructor
  · intro program text hwritable htext
    exact hwritable.parse_words htext parser
  · intro text program hparse
    have hwritable := writable_of_parse hparse
    have hsource := spaced_intercalate program.words
    exact ⟨hwritable, hsource, hwritable.parse_words hsource parser⟩

theorem parse_source_minValue :
    let program : Program :=
      [.assign "x-1" (.const Int64.minValue), .print (.binary .sub (.var "x-1") (.const (-5)))]
    let text := "\n\t" ++ program.source
    let parser : Parser := { recovery := .skipStatement }
    program.Writable ∧ Spaced program.words text ∧
      (parser.parse (Polish.words text)).1 = .ok program ∧
      (parser.parse (Polish.words program.source)).1 = .ok program := by
  intro program text parser
  have hnamed : program.Named := by decide
  have hwritable : program.Writable := ⟨hnamed, by decide⟩
  have hblank : Blank "\n\t" := by decide
  have htext : Spaced program.words text := (spaced_intercalate program.words).blank_append hblank
  obtain ⟨hparse, -⟩ := (parse_source_round_trip parser).1 program text hwritable htext
  obtain ⟨-, -, hagain, -⟩ := (parse_source_round_trip parser).2 text program hparse
  exact ⟨hwritable, htext, hparse, hagain⟩

end Program

end Polish
