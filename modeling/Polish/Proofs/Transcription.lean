import Mathlib.Data.List.Count
import Mathlib.Data.List.Forall2
import Polish.Instruction
import Polish.Proofs.Acceptance

namespace Polish

namespace Instruction

/-- Pushes a constant or the value of a variable. -/
def isFetch : Instruction → Bool
  | pushConst _ | load _ => true
  | _ => false

def endsStatement : Instruction → Bool
  | store _ | print => true
  | _ => false

end Instruction

namespace Token

/-- The instruction that a word of an expression becomes. -/
def instruction? : Token → Option Instruction
  | integer value => some (.pushConst value)
  | identifier name => some (.load name)
  | binary op => some (.binary op)
  | unary op => some (.unary op)
  | introducer _ | illegal => none

/-- The instructions that fetch the operands among the tokens, in the same order.  An
identifier right after an assignment's introducer is a target and not an operand. -/
def fetches : List Token → Code
  | [] => []
  | introducer .assign :: identifier _ :: tokens => fetches tokens
  | identifier name :: tokens => .load name :: fetches tokens
  | integer value :: tokens => .pushConst value :: fetches tokens
  | _ :: tokens => fetches tokens

@[simp] theorem fetches_target (target : String) (tokens : List Token) :
    fetches (introducer .assign :: identifier target :: tokens) = fetches tokens :=
  rfl

@[simp] theorem fetches_print (tokens : List Token) :
    fetches (introducer .print :: tokens) = fetches tokens :=
  rfl

@[simp] theorem fetches_binary (op : BinaryOp) (tokens : List Token) :
    fetches (binary op :: tokens) = fetches tokens :=
  rfl

@[simp] theorem fetches_unary (op : UnaryOp) (tokens : List Token) :
    fetches (unary op :: tokens) = fetches tokens :=
  rfl

/-- The introducers among the tokens, each with the token after it. -/
def openings : List Token → List (Introducer × Option Token)
  | [] => []
  | introducer i :: tokens => (i, tokens.head?) :: openings tokens
  | _ :: tokens => openings tokens

/-- The instruction ends the statement of an introducer that stands before the given
token. -/
inductive Ends : Introducer × Option Token → Instruction → Prop
  | assign (target : String) : Ends (.assign, some (identifier target)) (.store target)
  | print (next : Option Token) : Ends (.print, next) .print

end Token

open Token (fetches openings Ends)

/-- Everything in the code comes from the tokens, and no token is lost. -/
structure Transcribes (code : Code) (tokens : List Token) : Prop where
  fetches : code.filter Instruction.isFetch = fetches tokens
  binary : ∀ op : BinaryOp, code.count (.binary op) = tokens.count (.binary op)
  unary : ∀ op : UnaryOp, code.count (.unary op) = tokens.count (.unary op)
  ends : List.Forall₂ Ends (openings tokens) (code.filter Instruction.endsStatement)
  length : code.length + tokens.count (.introducer .assign) = tokens.length

namespace Expr

namespace SpelledBy

variable {e : Expr} {words : List String}

theorem perm_compile (h : e.SpelledBy words) :
    (e.compile.map some).Perm (words.map fun word => (Token.ofWord word).instruction?) := by
  induction h with
  | const h | var h => simp [compile, h, Token.instruction?]
  | @binary op left right _ _ hleft hright ihLeft ihRight =>
      simp only [compile, List.map_append, List.map_cons, List.map_nil, Token.ofWord_binary]
      exact (List.perm_append_singleton _ _).trans ((ihLeft.append ihRight).cons _)
  | unary _ ih =>
      simp only [compile, List.map_append, List.map_cons, List.map_nil, Token.ofWord_unary]
      exact (List.perm_append_singleton _ _).trans (ih.cons _)

theorem length_compile (h : e.SpelledBy words) : e.compile.length = words.length := by
  simpa using h.perm_compile.length_eq

theorem count_compile (h : e.SpelledBy words) {token : Token} {instruction : Instruction}
    (htoken : ∀ other : Token, other.instruction? = some instruction ↔ other = token) :
    e.compile.count instruction = (words.map Token.ofWord).count token := by
  calc
    e.compile.count instruction = (e.compile.map some).count (some instruction) :=
      (List.count_map_of_injective _ some (fun _ _ => Option.some.inj) _).symm
    _ = (words.map fun word => (Token.ofWord word).instruction?).count (some instruction) :=
      h.perm_compile.count_eq _
    _ = (words.map Token.ofWord).count token := by
      simp only [List.count, List.countP_map]
      congr 1
      funext word
      simp [htoken, Bool.beq_eq_decide_eq]

theorem count_binary (h : e.SpelledBy words) (op : BinaryOp) :
    e.compile.count (.binary op) = (words.map Token.ofWord).count (.binary op) := by
  apply h.count_compile
  rintro (_ | _ | _ | _ | _ | _) <;> simp [Token.instruction?]

theorem count_unary (h : e.SpelledBy words) (op : UnaryOp) :
    e.compile.count (.unary op) = (words.map Token.ofWord).count (.unary op) := by
  apply h.count_compile
  rintro (_ | _ | _ | _ | _ | _) <;> simp [Token.instruction?]

theorem fetches_append (h : e.SpelledBy words) (tokens : List Token) :
    fetches (words.map Token.ofWord ++ tokens) =
      e.compile.filter Instruction.isFetch ++ fetches tokens := by
  induction h generalizing tokens with
  | const h | var h =>
      rw [List.map_singleton, h]
      rfl
  | @binary op left right _ _ _ _ ihLeft ihRight =>
      have hop : List.filter Instruction.isFetch [.binary op] = [] := rfl
      rw [List.map_cons, List.map_append, List.cons_append, List.append_assoc,
        Token.ofWord_binary, Token.fetches_binary, ihLeft, ihRight, compile,
        List.filter_append, List.filter_append, hop, List.append_nil, List.append_assoc]
  | @unary op operand _ _ ih =>
      have hop : List.filter Instruction.isFetch [.unary op] = [] := rfl
      rw [List.map_cons, List.cons_append, Token.ofWord_unary, Token.fetches_unary, ih, compile,
        List.filter_append, hop, List.append_nil]

theorem filter_endsStatement (h : e.SpelledBy words) :
    e.compile.filter Instruction.endsStatement = [] := by
  rw [List.filter_eq_nil_iff]
  intro instruction hmem
  have hsome := h.perm_compile.subset (List.mem_map_of_mem (f := some) hmem)
  obtain ⟨word, -, hword⟩ := List.mem_map.mp hsome
  cases htoken : Token.ofWord word with
  | integer value | identifier name | binary op | unary op =>
      rw [htoken] at hword
      cases hword
      exact Bool.false_ne_true
  | introducer i | illegal =>
      rw [htoken] at hword
      cases hword

end SpelledBy

end Expr

theorem Token.openings_append {front : List Token}
    (h : ∀ token ∈ front, token.isIntroducer = false) (tokens : List Token) :
    openings (front ++ tokens) = openings tokens := by
  induction front with
  | nil => rfl
  | cons token front ih =>
      obtain ⟨htoken, hfront⟩ := List.forall_mem_cons.mp h
      rw [← ih hfront]
      cases token with
      | introducer i => cases htoken
      | binary op | unary op | identifier name | integer value | illegal => rfl

namespace Expr.SpelledBy

variable {e : Expr} {words : List String}

theorem isIntroducer_of_mem_map (h : e.SpelledBy words) {token : Token}
    (htoken : token ∈ words.map Token.ofWord) : token.isIntroducer = false := by
  obtain ⟨word, hword, rfl⟩ := List.mem_map.mp htoken
  exact h.not_introducer hword

theorem openings_append (h : e.SpelledBy words) (tokens : List Token) :
    openings (words.map Token.ofWord ++ tokens) = openings tokens :=
  Token.openings_append (fun _ => h.isIntroducer_of_mem_map) tokens

theorem count_introducer (h : e.SpelledBy words) (introducer : Introducer) :
    (words.map Token.ofWord).count (.introducer introducer) = 0 := by
  rw [List.count_eq_zero]
  intro hmem
  cases h.isIntroducer_of_mem_map hmem

end Expr.SpelledBy

namespace Transcribes

theorem nil : Transcribes [] [] where
  fetches := rfl
  binary _ := rfl
  unary _ := rfl
  ends := .nil
  length := rfl

variable {front code : Code} {tokens : List Token}

theorem append_expr (h : Transcribes code tokens) {e : Expr} {words : List String}
    (he : e.SpelledBy words) :
    Transcribes (e.compile ++ code) (words.map Token.ofWord ++ tokens) where
  fetches := by rw [List.filter_append, he.fetches_append, h.fetches]
  binary op := by rw [List.count_append, List.count_append, he.count_binary, h.binary]
  unary op := by rw [List.count_append, List.count_append, he.count_unary, h.unary]
  ends := by
    rw [List.filter_append, he.filter_endsStatement, he.openings_append]
    exact h.ends
  length := by
    rw [List.length_append, List.count_append, he.count_introducer, List.length_append,
      List.length_map, he.length_compile, ← h.length]
    omega

theorem assign (h : Transcribes (front ++ code) tokens) (target : String)
    (hfront : front.filter Instruction.endsStatement = []) :
    Transcribes (front ++ .store target :: code)
      (.introducer .assign :: .identifier target :: tokens) where
  fetches := by simpa [Instruction.isFetch] using h.fetches
  binary op := by simpa using h.binary op
  unary op := by simpa using h.unary op
  ends := by
    have hends := h.ends
    rw [List.filter_append, hfront] at hends ⊢
    exact .cons (.assign target) hends
  length := by
    have hlength := h.length
    rw [List.length_append] at hlength
    have htarget : Token.identifier target ≠ .introducer .assign := nofun
    rw [List.length_append, List.length_cons, List.count_cons_self,
      List.count_cons_of_ne htarget, List.length_cons, List.length_cons]
    omega

theorem print (h : Transcribes (front ++ code) tokens)
    (hfront : front.filter Instruction.endsStatement = []) :
    Transcribes (front ++ .print :: code) (.introducer .print :: tokens) where
  fetches := by simpa [Instruction.isFetch] using h.fetches
  binary op := by simpa using h.binary op
  unary op := by simpa using h.unary op
  ends := by
    have hends := h.ends
    rw [List.filter_append, hfront] at hends ⊢
    exact .cons (.print _) hends
  length := by
    have hlength := h.length
    rw [List.length_append] at hlength
    have hprint : Token.introducer .print ≠ .introducer .assign := nofun
    rw [List.length_append, List.length_cons, List.count_cons_of_ne hprint, List.length_cons]
    omega

theorem append_statement (h : Transcribes code tokens) {statement : Statement}
    {words : List String} (hspelled : statement.SpelledBy words) :
    Transcribes (statement.compile ++ code) (words.map Token.ofWord ++ tokens) := by
  cases hspelled with
  | @assign target value words htarget hvalue =>
      have hstatement := (h.append_expr hvalue).assign target hvalue.filter_endsStatement
      rw [← htarget, ← Token.ofWord_introducer] at hstatement
      simpa [Statement.compile] using hstatement
  | print hvalue =>
      have hstatement := (h.append_expr hvalue).print hvalue.filter_endsStatement
      rw [← Token.ofWord_introducer] at hstatement
      simpa [Statement.compile] using hstatement

end Transcribes

theorem Program.SpelledBy.transcribes {program : Program} {words : List String}
    (h : program.SpelledBy words) : Transcribes program.compile (words.map Token.ofWord) := by
  induction program generalizing words with
  | nil =>
      rw [InOrder.nil_iff.mp h]
      exact .nil
  | cons statement program ih =>
      obtain ⟨first, rest, hfirst, hrest, rfl⟩ := InOrder.cons_iff.mp h
      rw [compile_cons, List.map_append]
      exact (ih hrest).append_statement hfirst

namespace Parser

/-- The code of a program that a parser accepts, if it stops at errors, fetches the
operands of the text in their order, has each operator as often as the text, and ends
one statement for each introducer, in the same order and with the name that the text
gives as the target. -/
theorem transcribes_of_parse (parser : Parser) (words : List String) (program : Program)
    (h : (({ parser with recovery := .abort } : Parser).parse words).1 = .ok program) :
    Transcribes program.compile (words.map Token.ofWord) :=
  (spelledBy_of_parse rfl h).1.transcribes

theorem transcribes_of_parse_two_statements :
    let words := [":=", "x-1", "-", "*", "+5", "b", "_", "5", "@", "#", "x-1"]
    let program : Program :=
      [.assign "x-1" (.binary .sub (.binary .mul (.const 5) (.var "b")) (.unary .negate (.const 5))),
        .print (.unary .sqrt (.var "x-1"))]
    let tokens := words.map Token.ofWord
    (({} : Parser).parse words).1 = .ok program ∧ Transcribes program.compile tokens ∧
      fetches tokens = [.pushConst 5, .load "b", .pushConst 5, .load "x-1"] ∧
      openings tokens = [(.assign, some (.identifier "x-1")), (.print, some (.unary .sqrt))] ∧
      program.compile.length = 10 := by
  intro words program tokens
  have hparse : (({} : Parser).parse words).1 = .ok program := by decide +kernel
  have htranscribes := transcribes_of_parse {} words program hparse
  refine ⟨hparse, htranscribes, ?_, ?_, ?_⟩
  · decide +kernel
  · decide +kernel
  · rfl

end Parser

end Polish
