import Polish.Proofs.Naming

/-!
The infix text of a program.

The first character of an expression's text says of which kind the expression is,
and a name or a numeral goes on up to the next blank.  So the text of an
expression can be told from what follows it, and no two programs have the same
text.
-/

namespace Polish

theorem append_inj_of_breaks {word word' rest rest' : List Char}
    (hword : ∀ c ∈ word, isBlank c = false) (hword' : ∀ c ∈ word', isBlank c = false)
    (hrest : Breaks rest) (hrest' : Breaks rest') (h : word ++ rest = word' ++ rest') :
    word = word' ∧ rest = rest' := by
  induction word generalizing word' with
  | nil =>
      rcases word' with _ | ⟨c, word'⟩
      · exact ⟨rfl, h⟩
      · rw [List.nil_append] at h
        have hblank := hrest c (by simp [h])
        rw [hword' c List.mem_cons_self] at hblank
        cases hblank
  | cons c word ih =>
      obtain ⟨hc, hword⟩ := List.forall_mem_cons.mp hword
      rcases word' with _ | ⟨c', word'⟩
      · rw [List.nil_append] at h
        have hblank := hrest' c (by simp [← h])
        rw [hc] at hblank
        cases hblank
      · obtain ⟨rfl, htail⟩ := List.cons.inj h
        obtain ⟨rfl, hrests⟩ := ih hword (List.forall_mem_cons.mp hword').2 htail
        exact ⟨rfl, hrests⟩

/-- The kinds of expressions, as their text shows them. -/
inductive Opening where
  | numeral
  | name
  | parenthesis
  | sign (op : UnaryOp)
  deriving DecidableEq, Repr

namespace Opening

def ofChar? (c : Char) : Option Opening :=
  if c.isAlpha then
    some name
  else if c.isDigit || c == '-' then
    some numeral
  else if c == '(' then
    some parenthesis
  else
    (UnaryOp.ofSymbol? (String.singleton c)).map sign

theorem ofChar?_numeral {c : Char} (h : c.isDigit = true ∨ c = '-') :
    ofChar? c = some numeral := by
  rcases h with h | rfl
  · simp [ofChar?, isAlpha_of_isDigit h, h]
  · decide

end Opening

theorem breaks_space (chars : List Char) : Breaks (' ' :: chars) := by
  rintro c ⟨⟩
  decide

theorem breaks_newline (chars : List Char) : Breaks ('\n' :: chars) := by
  rintro c ⟨⟩
  decide

theorem BinaryOp.symbol_injective {op op' : BinaryOp} (h : op.symbol = op'.symbol) :
    op = op' := by
  simpa using congrArg ofSymbol? h

theorem exists_cons_of_isIdentifier {name : String} (h : isIdentifier name = true) :
    ∃ c cs, name.toList = c :: cs ∧ c.isAlpha = true := by
  rw [isIdentifier] at h
  rcases hname : name.toList with _ | ⟨c, cs⟩
  · rw [hname] at h
    cases h
  · rw [hname] at h
    exact ⟨c, cs, rfl, h⟩

namespace Expr

def opening : Expr → Opening
  | const _ => .numeral
  | var _ => .name
  | binary _ _ _ => .parenthesis
  | unary op _ => .sign op

theorem toList_text_binary (op : BinaryOp) (left right : Expr) :
    (binary op left right).text.toList =
      '(' :: ' ' :: (left.text.toList ++ ' ' :: (op.symbol.toList ++ ' ' ::
        (right.text.toList ++ [' ', ')']))) := by
  simp [text]

theorem toList_text_unary (op : UnaryOp) (operand : Expr) :
    (unary op operand).text.toList = op.symbol.toList ++ operand.text.toList := by
  simp [text]

theorem exists_cons_text {e : Expr} (h : e.Named) :
    ∃ c cs, e.text.toList = c :: cs ∧ Opening.ofChar? c = some e.opening := by
  cases e with
  | const value =>
      obtain ⟨c, cs, htext, hc⟩ := Decimal.exists_cons_text value.toInt
      exact ⟨c, cs, htext, Opening.ofChar?_numeral hc⟩
  | var name =>
      obtain ⟨hidentifier, -⟩ := h name List.mem_cons_self
      obtain ⟨c, cs, hname, hc⟩ := exists_cons_of_isIdentifier hidentifier
      exact ⟨c, cs, hname, if_pos hc⟩
  | binary op left right =>
      have hopening : Opening.ofChar? '(' = some .parenthesis := by decide
      exact ⟨'(', _, toList_text_binary op left right, hopening⟩
  | unary op operand =>
      have hopening : ∃ c, op.symbol.toList = [c] ∧ Opening.ofChar? c = some (.sign op) := by
        cases op with
        | negate => exact ⟨'_', by decide⟩
        | sqrt => exact ⟨'#', by decide⟩
      obtain ⟨c, hsymbol, hc⟩ := hopening
      refine ⟨c, operand.text.toList, ?_, hc⟩
      rw [toList_text_unary, hsymbol, List.singleton_append]

theorem opening_eq {e e' : Expr} (h : e.Named) (h' : e'.Named) {rest rest' : List Char}
    (heq : e.text.toList ++ rest = e'.text.toList ++ rest') : e.opening = e'.opening := by
  obtain ⟨c, cs, htext, hc⟩ := exists_cons_text h
  obtain ⟨c', cs', htext', hc'⟩ := exists_cons_text h'
  rw [htext, htext'] at heq
  obtain ⟨rfl, -⟩ := List.cons.inj heq
  exact Option.some.inj (hc.symm.trans hc')

/-- The text of an expression before a blank can be told from what follows it. -/
theorem text_append_inj {e e' : Expr} (h : e.Named) (h' : e'.Named) {rest rest' : List Char}
    (hrest : Breaks rest) (hrest' : Breaks rest')
    (heq : e.text.toList ++ rest = e'.text.toList ++ rest') : e = e' ∧ rest = rest' := by
  have hopening := opening_eq h h' heq
  induction e generalizing e' rest rest' with
  | const value =>
      cases e' with
      | const value' =>
          obtain ⟨htext, hrests⟩ := append_inj_of_breaks (Decimal.isWord_text _).2
            (Decimal.isWord_text _).2 hrest hrest' heq
          have hvalue : value.toInt = value'.toInt :=
            Decimal.text_injective (String.toList_inj.mp htext)
          rw [Int64.toInt_inj.mp hvalue]
          exact ⟨rfl, hrests⟩
      | var _ | binary _ _ _ | unary _ _ => cases hopening
  | var name =>
      cases e' with
      | var name' =>
          have hname := h name List.mem_cons_self
          have hname' := h' name' List.mem_cons_self
          obtain ⟨htext, hrests⟩ := append_inj_of_breaks hname.2 hname'.2 hrest hrest' heq
          rw [String.toList_inj.mp htext]
          exact ⟨rfl, hrests⟩
      | const _ | binary _ _ _ | unary _ _ => cases hopening
  | binary op left right ihLeft ihRight =>
      cases e' with
      | binary op' left' right' =>
          obtain ⟨hleft, hright⟩ := named_binary_iff.mp h
          obtain ⟨hleft', hright'⟩ := named_binary_iff.mp h'
          rw [toList_text_binary, toList_text_binary] at heq
          simp only [List.cons_append, List.append_assoc, List.cons.injEq, true_and] at heq
          obtain ⟨rfl, hafterLeft⟩ := ihLeft hleft hleft' (breaks_space _) (breaks_space _) heq
            (opening_eq hleft hleft' heq)
          obtain ⟨hop, hafterOp⟩ := append_inj_of_breaks op.isWord_symbol.2 op'.isWord_symbol.2
            (breaks_space _) (breaks_space _) (List.cons.inj hafterLeft).2
          obtain rfl := BinaryOp.symbol_injective (String.toList_inj.mp hop)
          have hfromRight := (List.cons.inj hafterOp).2
          obtain ⟨rfl, hend⟩ := ihRight hright hright' (breaks_space _) (breaks_space _)
            hfromRight (opening_eq hright hright' hfromRight)
          simp only [List.cons.injEq, true_and] at hend
          exact ⟨rfl, hend⟩
      | const _ | var _ | unary _ _ => cases hopening
  | unary op operand ih =>
      cases e' with
      | unary op' operand' =>
          cases hopening
          rw [toList_text_unary, toList_text_unary, List.append_assoc, List.append_assoc] at heq
          have hoperand := List.append_cancel_left heq
          have hnamed' : operand'.Named := h'
          obtain ⟨rfl, hrests⟩ := ih h hnamed' hrest hrest' hoperand
            (opening_eq h hnamed' hoperand)
          exact ⟨rfl, hrests⟩
      | const _ | var _ | binary _ _ _ => cases hopening

end Expr

namespace Statement

theorem toList_text_assign (target : String) (value : Expr) :
    (assign target value).text.toList =
      target.toList ++ ' ' :: ':' :: '=' :: ' ' :: value.text.toList := by
  simp [text]

theorem toList_text_print (value : Expr) :
    (print value).text.toList = "Print".toList ++ ' ' :: value.text.toList := by
  simp [text]

/-- The text of an assignment does not begin as that of a print does, even if the
target is named like it. -/
theorem text_assign_ne_print {target : String} {value value' : Expr} (htarget : IsName target)
    (hvalue' : value'.Named) (rest rest' : List Char) :
    (assign target value).text.toList ++ rest ≠ (print value').text.toList ++ rest' := by
  intro heq
  have hprint : IsWord "Print" := by decide
  rw [toList_text_assign, toList_text_print, List.append_assoc, List.append_assoc] at heq
  obtain ⟨-, hafter⟩ := append_inj_of_breaks htarget.2 hprint.2 (breaks_space _)
    (breaks_space _) heq
  obtain ⟨c, cs, htext, hc⟩ := Expr.exists_cons_text hvalue'
  rw [htext] at hafter
  obtain rfl : ':' = c := (List.cons.inj (List.cons.inj hafter).2).1
  have hcolon : Opening.ofChar? ':' = none := by decide
  rw [hcolon] at hc
  cases hc

theorem text_append_inj {statement statement' : Statement} (h : statement.Named)
    (h' : statement'.Named) {rest rest' : List Char} (hrest : Breaks rest)
    (hrest' : Breaks rest')
    (heq : statement.text.toList ++ rest = statement'.text.toList ++ rest') :
    statement = statement' ∧ rest = rest' := by
  cases statement with
  | assign target value =>
      obtain ⟨htarget, hvalue⟩ := named_assign_iff.mp h
      cases statement' with
      | assign target' value' =>
          obtain ⟨htarget', hvalue'⟩ := named_assign_iff.mp h'
          rw [toList_text_assign, toList_text_assign, List.append_assoc, List.append_assoc] at heq
          obtain ⟨hname, hafter⟩ := append_inj_of_breaks htarget.2 htarget'.2
            (breaks_space _) (breaks_space _) heq
          obtain rfl := String.toList_inj.mp hname
          have hvalues : [' ', ':', '=', ' '] ++ (value.text.toList ++ rest) =
              [' ', ':', '=', ' '] ++ (value'.text.toList ++ rest') := hafter
          obtain ⟨rfl, hrests⟩ := Expr.text_append_inj hvalue hvalue' hrest hrest'
            (List.append_cancel_left hvalues)
          exact ⟨rfl, hrests⟩
      | print value' => exact absurd heq (text_assign_ne_print htarget h' rest rest')
  | print value =>
      cases statement' with
      | assign target' value' =>
          obtain ⟨htarget', -⟩ := named_assign_iff.mp h'
          exact absurd heq.symm (text_assign_ne_print htarget' h rest' rest)
      | print value' =>
          rw [toList_text_print, toList_text_print, List.append_assoc, List.append_assoc] at heq
          have hvalue := (List.cons.inj (List.append_cancel_left heq)).2
          obtain ⟨rfl, hrests⟩ := Expr.text_append_inj h h' hrest hrest' hvalue
          exact ⟨rfl, hrests⟩

end Statement

namespace Program

theorem toList_text_cons (statement : Statement) (program : Program) :
    (text (statement :: program)).toList =
      statement.text.toList ++ '\n' :: program.text.toList := by
  simp [text, String.join_cons]

theorem text_cons_ne_nil (statement : Statement) (program : Program) :
    text (statement :: program) ≠ text [] := by
  intro h
  have hlist := congrArg String.toList h
  rw [toList_text_cons] at hlist
  simp [text] at hlist

theorem eq_of_text_eq {first second : Program} (hfirst : first.Named) (hsecond : second.Named)
    (h : first.text = second.text) : first = second := by
  induction first generalizing second with
  | nil =>
      rcases second with _ | ⟨statement, second⟩
      · rfl
      · exact absurd h.symm (text_cons_ne_nil statement second)
  | cons statement first ih =>
      rcases second with _ | ⟨statement', second⟩
      · exact absurd h (text_cons_ne_nil statement first)
      · obtain ⟨hstatement, hrest⟩ := List.forall_mem_cons.mp hfirst
        obtain ⟨hstatement', hrest'⟩ := List.forall_mem_cons.mp hsecond
        have hlist := congrArg String.toList h
        rw [toList_text_cons, toList_text_cons] at hlist
        obtain ⟨rfl, hlines⟩ := Statement.text_append_inj hstatement hstatement'
          (breaks_newline _) (breaks_newline _) hlist
        have htext := String.toList_inj.mp (List.cons.inj hlines).2
        rw [ih hrest hrest' htext]

/-- No two programs have the same text if their names begin with a letter and
contain no blank, as all names in a program from source text do. -/
theorem text_unambiguous :
    (∀ first second : Program, first.Named → second.Named → first.text = second.text →
      first = second) ∧
    ∀ (parser : Parser) (source : String) (program : Program),
      (parser.parse (Polish.words source)).1 = .ok program → program.Named := by
  constructor
  · intro first second hfirst hsecond htext
    exact eq_of_text_eq hfirst hsecond htext
  · intro parser source program hparse
    exact Parser.named_of_parse_words hparse

theorem text_unambiguous_minus :
    let first : Program := [.assign "Print" (.binary .sub (.var "a)") (.const (-1)))]
    let second : Program :=
      [.assign "Print" (.binary .sub (.var "a)") (.const 18446744073709551615))]
    (({ recovery := .abort } : Parser).parse (Polish.words ":= Print - a) -1")).1 = .ok first ∧
      second.Named ∧ first.text = "Print := ( a) - -1 )\n" ∧ second.text = first.text ∧
      first = second := by
  intro first second
  have hparse :
      (({ recovery := .abort } : Parser).parse (Polish.words ":= Print - a) -1")).1 =
        .ok first := by decide +kernel
  have hfirst : first.Named := text_unambiguous.2 _ _ first hparse
  have hsecond : second.Named := by decide
  have hfirstText : first.text = "Print := ( a) - -1 )\n" := by decide +kernel
  have hsecondText : second.text = "Print := ( a) - -1 )\n" := by decide +kernel
  have htext : second.text = first.text := hsecondText.trans hfirstText.symm
  have heq : first = second := text_unambiguous.1 first second hfirst hsecond htext.symm
  exact ⟨hparse, hsecond, hfirstText, htext, heq⟩

end Program

end Polish
