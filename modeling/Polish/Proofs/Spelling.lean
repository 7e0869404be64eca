import Mathlib.Data.List.Forall2
import Polish.Program

namespace Polish

/-- The words are spellings of the given things, one after the other. -/
def InOrder {α : Type} (spells : α → List String → Prop) (things : List α)
    (words : List String) : Prop :=
  ∃ parts, List.Forall₂ spells things parts ∧ parts.flatten = words

namespace InOrder

variable {α : Type} {spells : α → List String → Prop}

@[simp] theorem nil_iff {words : List String} : InOrder spells [] words ↔ words = [] := by
  constructor
  · rintro ⟨parts, hparts, rfl⟩
    rw [List.forall₂_nil_left_iff.mp hparts]
    rfl
  · rintro rfl
    exact ⟨[], List.Forall₂.nil, rfl⟩

theorem cons_iff {thing : α} {things : List α} {words : List String} :
    InOrder spells (thing :: things) words ↔
      ∃ first rest, spells thing first ∧ InOrder spells things rest ∧ words = first ++ rest := by
  constructor
  · rintro ⟨parts, hparts, rfl⟩
    obtain ⟨first, rest, hfirst, hrest, rfl⟩ := List.forall₂_cons_left_iff.mp hparts
    exact ⟨first, rest.flatten, hfirst, ⟨rest, hrest, rfl⟩, rfl⟩
  · rintro ⟨first, rest, hfirst, ⟨parts, hparts, rfl⟩, rfl⟩
    exact ⟨first :: parts, List.Forall₂.cons hfirst hparts, rfl⟩

@[simp] theorem singleton_iff {thing : α} {words : List String} :
    InOrder spells [thing] words ↔ spells thing words := by
  simp [cons_iff]

theorem append_iff {first second : List α} {words : List String} :
    InOrder spells (first ++ second) words ↔
      ∃ front back, InOrder spells first front ∧ InOrder spells second back ∧
        words = front ++ back := by
  induction first generalizing words with
  | nil => simp
  | cons thing first ih =>
      rw [List.cons_append, cons_iff]
      constructor
      · rintro ⟨head, rest, hhead, hrest, rfl⟩
        obtain ⟨front, back, hfront, hback, rfl⟩ := ih.mp hrest
        exact ⟨head ++ front, back, cons_iff.mpr ⟨head, front, hhead, hfront, rfl⟩, hback,
          (List.append_assoc _ _ _).symm⟩
      · rintro ⟨front, back, hfront, hback, rfl⟩
        obtain ⟨head, rest, hhead, hrest, rfl⟩ := cons_iff.mp hfront
        exact ⟨head, rest ++ back, hhead, ih.mpr ⟨rest, back, hrest, hback, rfl⟩,
          List.append_assoc _ _ _⟩

theorem map {β : Type} {spells' : β → List String → Prop} {things : List α}
    {words : List String} {f : α → β} (h : InOrder spells things words)
    (hf : ∀ thing ∈ things, ∀ part, spells thing part → spells' (f thing) part) :
    InOrder spells' (things.map f) words := by
  induction things generalizing words with
  | nil => exact nil_iff.mpr (nil_iff.mp h)
  | cons thing things ih =>
      obtain ⟨first, rest, hfirst, hrest, rfl⟩ := cons_iff.mp h
      obtain ⟨hthing, hthings⟩ := List.forall_mem_cons.mp hf
      exact cons_iff.mpr ⟨first, rest, hthing first hfirst, ih hrest hthings, rfl⟩

end InOrder

namespace Expr

inductive SpelledBy : Expr → List String → Prop where
  | const {word : String} {value : Int64} (h : Token.ofWord word = .integer value) :
      SpelledBy (.const value) [word]
  | var {name : String} (h : Token.ofWord name = .identifier name) :
      SpelledBy (.var name) [name]
  | binary {op : BinaryOp} {left right : Expr} {leftWords rightWords : List String}
      (hleft : SpelledBy left leftWords) (hright : SpelledBy right rightWords) :
      SpelledBy (.binary op left right) (op.symbol :: (leftWords ++ rightWords))
  | unary {op : UnaryOp} {operand : Expr} {words : List String}
      (h : SpelledBy operand words) : SpelledBy (.unary op operand) (op.symbol :: words)

theorem SpelledBy.var_iff {name : String} {words : List String} :
    SpelledBy (.var name) words ↔
      words = [name] ∧ Token.ofWord name = .identifier name := by
  constructor
  · rintro ⟨⟩
    exact ⟨rfl, by assumption⟩
  · rintro ⟨rfl, h⟩
    exact .var h

theorem SpelledBy.not_introducer {e : Expr} {words : List String} (h : e.SpelledBy words)
    {word : String} (hword : word ∈ words) : (Token.ofWord word).isIntroducer = false := by
  induction h with
  | const h | var h =>
      rw [List.mem_singleton.mp hword, h]
      rfl
  | binary _ _ ihLeft ihRight =>
      rcases List.mem_cons.mp hword with rfl | hword
      · simp [Token.isIntroducer]
      · rcases List.mem_append.mp hword with hword | hword
        · exact ihLeft hword
        · exact ihRight hword
  | unary _ ih =>
      rcases List.mem_cons.mp hword with rfl | hword
      · simp [Token.isIntroducer]
      · exact ih hword

theorem not_introducer_of_inOrder {exprs : List Expr} {words : List String}
    (h : InOrder SpelledBy exprs words) {word : String} (hword : word ∈ words) :
    (Token.ofWord word).isIntroducer = false := by
  induction exprs generalizing words with
  | nil =>
      rw [InOrder.nil_iff.mp h] at hword
      cases hword
  | cons e exprs ih =>
      obtain ⟨first, rest, hfirst, hrest, rfl⟩ := InOrder.cons_iff.mp h
      rcases List.mem_append.mp hword with hword | hword
      · exact hfirst.not_introducer hword
      · exact ih hrest hword

/-- The class of the first word of an expression. -/
def token : Expr → Token
  | const value => .integer value
  | var name => .identifier name
  | binary op _ _ => .binary op
  | unary op _ => .unary op

theorem SpelledBy.exists_cons {e : Expr} {words : List String} (h : e.SpelledBy words) :
    ∃ word rest, words = word :: rest ∧ Token.ofWord word = e.token := by
  cases h with
  | const h | var h => exact ⟨_, [], rfl, h⟩
  | binary hleft hright => exact ⟨_, _, rfl, Token.ofWord_binary _⟩
  | unary h => exact ⟨_, _, rfl, Token.ofWord_unary _⟩

theorem SpelledBy.token_eq {e e' : Expr} {front front' back back' : List String}
    (h : e.SpelledBy front) (h' : e'.SpelledBy front') (heq : front ++ back = front' ++ back') :
    e.token = e'.token := by
  obtain ⟨word, rest, rfl, hword⟩ := h.exists_cons
  obtain ⟨word', rest', rfl, hword'⟩ := h'.exists_cons
  obtain ⟨rfl, -⟩ := List.cons.inj heq
  exact hword.symm.trans hword'

/-- Words begin with the spelling of at most one expression. -/
theorem SpelledBy.append_inj {e e' : Expr} {front front' back back' : List String}
    (h : e.SpelledBy front) (h' : e'.SpelledBy front') (heq : front ++ back = front' ++ back') :
    e = e' ∧ back = back' := by
  have htoken := h.token_eq h' heq
  induction h generalizing e' front' back back' with
  | const h =>
      cases h' with
      | const h' =>
          obtain ⟨-, hback⟩ := List.cons.inj heq
          cases htoken
          exact ⟨rfl, hback⟩
      | var _ | binary _ _ | unary _ => cases htoken
  | var h =>
      cases h' with
      | var h' =>
          obtain ⟨-, hback⟩ := List.cons.inj heq
          cases htoken
          exact ⟨rfl, hback⟩
      | const _ | binary _ _ | unary _ => cases htoken
  | binary hleft hright ihLeft ihRight =>
      cases h' with
      | binary hleft' hright' =>
          cases htoken
          simp only [List.cons_append, List.cons.injEq, List.append_assoc, true_and] at heq
          obtain ⟨rfl, hrest⟩ := ihLeft hleft' heq (hleft.token_eq hleft' heq)
          obtain ⟨rfl, hback⟩ := ihRight hright' hrest (hright.token_eq hright' hrest)
          exact ⟨rfl, hback⟩
      | const _ | var _ | unary _ => cases htoken
  | unary h ih =>
      cases h' with
      | unary h' =>
          cases htoken
          obtain ⟨-, heq⟩ := List.cons.inj heq
          obtain ⟨rfl, hback⟩ := ih h' heq (h.token_eq h' heq)
          exact ⟨rfl, hback⟩
      | const _ | var _ | binary _ _ => cases htoken

end Expr

namespace Statement

inductive SpelledBy : Statement → List String → Prop where
  | assign {target : String} {value : Expr} {words : List String}
      (htarget : Token.ofWord target = .identifier target) (hvalue : value.SpelledBy words) :
      SpelledBy (.assign target value) (Introducer.assign.word :: target :: words)
  | print {value : Expr} {words : List String} (hvalue : value.SpelledBy words) :
      SpelledBy (.print value) (Introducer.print.word :: words)

def introducer : Statement → Introducer
  | assign _ _ => .assign
  | print _ => .print

/-- The expressions after the introducer.  A target is spelled as the reading of
its variable. -/
def operands : Statement → List Expr
  | assign target value => [.var target, value]
  | print value => [value]

theorem spelledBy_iff {statement : Statement} {words : List String} :
    statement.SpelledBy words ↔
      ∃ rest, words = statement.introducer.word :: rest ∧
        InOrder Expr.SpelledBy statement.operands rest := by
  constructor
  · rintro (⟨htarget, hvalue⟩ | hvalue)
    · exact ⟨_, rfl, InOrder.cons_iff.mpr
        ⟨_, _, .var htarget, InOrder.singleton_iff.mpr hvalue, rfl⟩⟩
    · exact ⟨_, rfl, InOrder.singleton_iff.mpr hvalue⟩
  · rintro ⟨rest, rfl, h⟩
    cases statement with
    | assign target value =>
        obtain ⟨first, second, hfirst, hsecond, rfl⟩ := InOrder.cons_iff.mp h
        obtain ⟨rfl, htarget⟩ := Expr.SpelledBy.var_iff.mp hfirst
        exact .assign htarget (InOrder.singleton_iff.mp hsecond)
    | print value => exact .print (InOrder.singleton_iff.mp h)

end Statement

def Program.SpelledBy (program : Program) (words : List String) : Prop :=
  InOrder Statement.SpelledBy program words

end Polish
