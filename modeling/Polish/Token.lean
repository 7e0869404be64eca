import Polish.Decimal
import Polish.Operator

/-!
The lexical class of a word.

A word is looked up whole: introducers come first, then the operators, then
identifiers and integer literals.  So `-` is an operator and `-5` a literal.
-/

namespace Polish

inductive Introducer where
  | assign
  | print
  deriving DecidableEq, Repr

namespace Introducer

def word : Introducer → String
  | .assign => ":="
  | .print => "@"

def all : List Introducer :=
  [.assign, .print]

def ofWord? (word : String) : Option Introducer :=
  all.find? (·.word == word)

@[simp] theorem ofWord?_word (introducer : Introducer) :
    ofWord? introducer.word = some introducer := by
  cases introducer <;> decide

theorem word_injective {a b : Introducer} (h : a.word = b.word) : a = b := by
  simpa using congrArg ofWord? h

theorem word_of_ofWord? {word : String} {introducer : Introducer}
    (h : ofWord? word = some introducer) : introducer.word = word := by
  simpa using List.find?_some h

end Introducer

/-- The classes of words.  An identifier is its own name. -/
inductive Token where
  | introducer (introducer : Introducer)
  | binary (op : BinaryOp)
  | unary (op : UnaryOp)
  | identifier (name : String)
  | integer (value : Int64)
  | illegal
  deriving DecidableEq, Repr

/-- An identifier is any word that begins with an ASCII letter. -/
def isIdentifier (word : String) : Bool :=
  match word.toList with
  | [] => false
  | c :: _ => c.isAlpha

/-- The value of a word that is an integer literal and fits into 64 bits. -/
def literal? (word : String) : Option Int64 :=
  match Decimal.signedValue? word.toList with
  | none => none
  | some i =>
      if Int64.minValue.toInt ≤ i ∧ i ≤ Int64.maxValue.toInt then
        some (Int64.ofInt i)
      else
        none

namespace Token

def ofWord (word : String) : Token :=
  match Introducer.ofWord? word with
  | some i => .introducer i
  | none =>
      match BinaryOp.ofSymbol? word with
      | some op => .binary op
      | none =>
          match UnaryOp.ofSymbol? word with
          | some op => .unary op
          | none =>
              if isIdentifier word then
                .identifier word
              else
                match literal? word with
                | some value => .integer value
                | none => .illegal

@[simp] theorem ofWord_introducer (introducer : Introducer) :
    ofWord introducer.word = .introducer introducer := by
  cases introducer <;> decide

@[simp] theorem ofWord_binary (op : BinaryOp) : ofWord op.symbol = .binary op := by
  cases op <;> decide

@[simp] theorem ofWord_unary (op : UnaryOp) : ofWord op.symbol = .unary op := by
  cases op <;> decide

theorem word_of_ofWord {word : String} {introducer : Introducer}
    (h : ofWord word = .introducer introducer) : introducer.word = word := by
  simp only [ofWord] at h
  split at h
  · rename_i i hi
    cases h
    exact Introducer.word_of_ofWord? hi
  · grind

theorem symbol_of_ofWord_binary {word : String} {op : BinaryOp}
    (h : ofWord word = .binary op) : op.symbol = word := by
  simp only [ofWord] at h
  split at h
  · cases h
  · split at h
    · rename_i found hfound
      cases h
      exact BinaryOp.symbol_of_ofSymbol? hfound
    · grind

theorem symbol_of_ofWord_unary {word : String} {op : UnaryOp}
    (h : ofWord word = .unary op) : op.symbol = word := by
  simp only [ofWord] at h
  split at h
  · cases h
  · split at h
    · cases h
    · split at h
      · rename_i found hfound
        cases h
        exact UnaryOp.symbol_of_ofSymbol? hfound
      · grind

theorem name_of_ofWord {word name : String} (h : ofWord word = .identifier name) :
    name = word := by
  simp only [ofWord] at h
  grind

def isIntroducer : Token → Bool
  | .introducer _ => true
  | _ => false

@[simp] theorem isIntroducer_introducer (i : Introducer) :
    (introducer i).isIntroducer = true :=
  rfl

/-- A word either is an introducer or has another class. -/
theorem introducer_or_not (word : String) :
    (∃ introducer : Introducer, introducer.word = word) ∨
      (ofWord word).isIntroducer = false := by
  cases hword : ofWord word with
  | introducer introducer => exact Or.inl ⟨introducer, word_of_ofWord hword⟩
  | _ => exact Or.inr rfl

end Token

end Polish
