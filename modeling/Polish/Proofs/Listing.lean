import Polish.Proofs.Decompilation
import Polish.Proofs.Infix
import Polish.Proofs.Lines

namespace Polish

namespace Instruction

def argument? : Instruction → Option String
  | pushConst value => some (Decimal.text value.toInt)
  | load name => some name
  | store name => some name
  | _ => none

/-- The instruction with the given mnemonic and argument. -/
def ofParts? (mnemonic : String) (argument : Option String) : Option Instruction :=
  match mnemonic, argument with
  | "PUSH_CONST", some word => (literal? word).map pushConst
  | "LOAD", some name => some (load name)
  | "STORE", some name => some (store name)
  | "ADD", none => some (binary .add)
  | "SUB", none => some (binary .sub)
  | "MUL", none => some (binary .mul)
  | "DIV", none => some (binary .div)
  | "NEG", none => some (unary .negate)
  | "SQRT", none => some (unary .sqrt)
  | "PRINT", none => some print
  | _, _ => none

theorem ofParts?_parts (instruction : Instruction) :
    ofParts? instruction.mnemonic instruction.argument? = some instruction := by
  cases instruction with
  | pushConst value =>
      change (literal? (Decimal.text value.toInt)).map pushConst = some (pushConst value)
      rw [literal?_text]
      rfl
  | load name | store name | print => rfl
  | binary op => cases op <;> rfl
  | unary op => cases op <;> rfl

theorem isWord_mnemonic (instruction : Instruction) : IsWord instruction.mnemonic := by
  cases instruction with
  | pushConst _ =>
      change IsWord "PUSH_CONST"
      decide
  | load _ =>
      change IsWord "LOAD"
      decide
  | store _ =>
      change IsWord "STORE"
      decide
  | binary op => cases op <;> decide
  | unary op => cases op <;> decide
  | print => decide

/-- What follows the mnemonic on its line. -/
def ending : Option String → List Char
  | some argument => ' ' :: argument.toList
  | none => []

theorem ending_injective : Function.Injective ending := by
  intro first second h
  cases first with
  | none =>
      cases second with
      | none => rfl
      | some _ => cases h
  | some argument =>
      cases second with
      | none => cases h
      | some argument' =>
          have hargument := (List.cons.inj h).2
          rw [String.toList_inj.mp hargument]

theorem breaks_ending (argument : Option String) : Breaks (ending argument) := by
  cases argument with
  | none =>
      rintro c ⟨⟩
  | some argument => exact breaks_space _

theorem toList_text (instruction : Instruction) :
    instruction.text.toList = instruction.mnemonic.toList ++ ending instruction.argument? := by
  cases instruction with
  | pushConst _ | load _ | store _ => simp [text, argument?, ending]
  | binary _ | unary _ | print => simp [text, argument?, ending]

/-- The text of an instruction gives its mnemonic and its argument. -/
theorem text_injective : Function.Injective text := by
  intro first second h
  have hchars : first.mnemonic.toList ++ ending first.argument? =
      second.mnemonic.toList ++ ending second.argument? := by
    rw [← toList_text, ← toList_text, h]
  obtain ⟨hmnemonic, hending⟩ := append_inj_of_breaks first.isWord_mnemonic.2
    second.isWord_mnemonic.2 (breaks_ending _) (breaks_ending _) hchars
  have hsome : some first = some second := by
    rw [← ofParts?_parts first, ← ofParts?_parts second, String.toList_inj.mp hmnemonic,
      ending_injective hending]
  exact Option.some.inj hsome

def name? : Instruction → Option String
  | load name => some name
  | store name => some name
  | _ => none

theorem oneLine_text {instruction : Instruction} (h : ∀ name ∈ instruction.name?, OneLine name) :
    OneLine instruction.text := by
  have hmnemonic : '\n' ∉ instruction.mnemonic.toList := by
    intro hmem
    have hblank := instruction.isWord_mnemonic.2 '\n' hmem
    cases hblank
  have hargument : ∀ argument ∈ instruction.argument?, OneLine argument := by
    cases instruction with
    | pushConst value =>
        rintro argument ⟨⟩ hmem
        have hblank := (Decimal.isWord_text value.toInt).2 '\n' hmem
        cases hblank
    | load name | store name => exact h
    | binary _ | unary _ | print => rintro argument ⟨⟩
  rw [OneLine, toList_text, List.mem_append, not_or]
  refine ⟨hmnemonic, ?_⟩
  cases harg : instruction.argument? with
  | none => simp [ending]
  | some argument =>
      have hline : '\n' ∉ argument.toList := hargument argument harg
      simpa [ending] using hline

end Instruction

namespace Code

theorem text_eq_unlines (code : Code) : code.text = unlines (code.map Instruction.text) := by
  simp [text, unlines, Function.comp_def]

theorem eq_of_text_eq {first second : Code}
    (hfirst : ∀ instruction ∈ first, ∀ name ∈ instruction.name?, OneLine name)
    (hsecond : ∀ instruction ∈ second, ∀ name ∈ instruction.name?, OneLine name)
    (h : first.text = second.text) : first = second := by
  have hlines {code : Code}
      (hcode : ∀ instruction ∈ code, ∀ name ∈ instruction.name?, OneLine name) :
      ∀ line ∈ code.map Instruction.text, OneLine line := by
    intro line hline
    obtain ⟨instruction, hinstruction, rfl⟩ := List.mem_map.mp hline
    exact Instruction.oneLine_text (hcode instruction hinstruction)
  rw [text_eq_unlines, text_eq_unlines] at h
  apply (List.map_inj_right fun _ _ => @Instruction.text_injective _ _).mp
  exact eq_of_unlines_eq (hlines hfirst) (hlines hsecond) h

end Code

theorem Expr.mem_names_of_mem_compile {e : Expr} {instruction : Instruction}
    (h : instruction ∈ e.compile) {name : String} (hname : name ∈ instruction.name?) :
    name ∈ e.names := by
  induction e with
  | const value =>
      obtain rfl := List.mem_singleton.mp h
      cases hname
  | var read =>
      obtain rfl := List.mem_singleton.mp h
      cases hname
      exact List.mem_singleton_self name
  | binary op left right ihLeft ihRight =>
      rcases List.mem_append.mp h with h | h
      · rcases List.mem_append.mp h with h | h
        · exact List.mem_append_left _ (ihLeft h)
        · exact List.mem_append_right _ (ihRight h)
      · obtain rfl := List.mem_singleton.mp h
        cases hname
  | unary op operand ih =>
      rcases List.mem_append.mp h with h | h
      · exact ih h
      · obtain rfl := List.mem_singleton.mp h
        cases hname

theorem Statement.mem_names_of_mem_compile {statement : Statement} {instruction : Instruction}
    (h : instruction ∈ statement.compile) {name : String} (hname : name ∈ instruction.name?) :
    name ∈ statement.names := by
  cases statement with
  | assign target value =>
      rcases List.mem_append.mp h with h | h
      · exact List.mem_cons_of_mem _ (Expr.mem_names_of_mem_compile h hname)
      · obtain rfl := List.mem_singleton.mp h
        cases hname
        exact List.mem_cons_self
  | print value =>
      rcases List.mem_append.mp h with h | h
      · exact Expr.mem_names_of_mem_compile h hname
      · obtain rfl := List.mem_singleton.mp h
        cases hname

namespace Program

/-- No name of the program contains a line feed. -/
def Listable (program : Program) : Prop :=
  ∀ statement ∈ program, ∀ name ∈ statement.names, OneLine name

instance (program : Program) : Decidable program.Listable :=
  List.decidableBAll (fun statement : Statement => ∀ name ∈ statement.names, OneLine name) program

theorem Named.listable {program : Program} (h : program.Named) : program.Listable := by
  intro statement hstatement name hname hmem
  have hblank := (h statement hstatement name hname).2 '\n' hmem
  cases hblank

theorem Listable.oneLine_of_mem_compile {program : Program} (h : program.Listable) :
    ∀ instruction ∈ program.compile, ∀ name ∈ instruction.name?, OneLine name := by
  intro instruction hinstruction name hname
  obtain ⟨statement, hstatement, hcode⟩ := List.mem_flatMap.mp hinstruction
  exact h statement hstatement name (Statement.mem_names_of_mem_compile hcode hname)

/-- No two programs have the same listing if none of their names contains a line
feed, as no name in a program from source text does. -/
theorem listing_determines_program :
    (∀ first second : Program, first.Listable → second.Listable →
      first.compile.text = second.compile.text → first = second) ∧
    ∀ (parser : Parser) (source : String) (program : Program),
      (parser.parse (Polish.words source)).1 = .ok program → program.Listable := by
  constructor
  · intro first second hfirst hsecond htext
    apply compile_injective
    exact Code.eq_of_text_eq hfirst.oneLine_of_mem_compile hsecond.oneLine_of_mem_compile htext
  · intro parser source program hparse
    exact (Parser.named_of_parse_words hparse).listable

theorem listing_determines_program_spaced :
    let first : Program := [.assign "x STORE y" (.binary .sub (.var "LOAD") (.const (-1)))]
    let second : Program :=
      [.assign "x STORE y" (.binary .sub (.var "LOAD") (.const 18446744073709551615))]
    let parsed : Program := [.assign "PRINT" (.var "ADD")]
    first.Listable ∧ second.Listable ∧
      first.compile.text = "LOAD LOAD\nPUSH_CONST -1\nSUB\nSTORE x STORE y\n" ∧
      second.compile.text = first.compile.text ∧ first = second ∧
      (({} : Parser).parse (Polish.words ":= PRINT ADD")).1 = .ok parsed ∧ parsed.Listable := by
  intro first second parsed
  have hfirst : first.Listable := by decide
  have hsecond : second.Listable := by decide
  have hfirstText :
      first.compile.text = "LOAD LOAD\nPUSH_CONST -1\nSUB\nSTORE x STORE y\n" := by
    decide +kernel
  have hsecondText :
      second.compile.text = "LOAD LOAD\nPUSH_CONST -1\nSUB\nSTORE x STORE y\n" := by
    decide +kernel
  have htext : second.compile.text = first.compile.text := hsecondText.trans hfirstText.symm
  have hparse : (({} : Parser).parse (Polish.words ":= PRINT ADD")).1 = .ok parsed := by
    decide +kernel
  exact ⟨hfirst, hsecond, hfirstText, htext,
    listing_determines_program.1 first second hfirst hsecond htext.symm, hparse,
    listing_determines_program.2 {} _ parsed hparse⟩

example :
    let first : Program := [.print (.var "a\nPRINT\nLOAD b")]
    let second : Program := [.print (.var "a"), .print (.var "b")]
    first.compile.text = second.compile.text := by
  decide +kernel

end Program

end Polish
