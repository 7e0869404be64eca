import Polish.Program

namespace Polish

inductive Instruction where
  | pushConst (value : Int64)
  | load (name : String)
  | store (name : String)
  | binary (op : BinaryOp)
  | unary (op : UnaryOp)
  | print
  deriving DecidableEq, Repr

namespace Instruction

def mnemonic : Instruction → String
  | pushConst _ => "PUSH_CONST"
  | load _ => "LOAD"
  | store _ => "STORE"
  | binary .add => "ADD"
  | binary .sub => "SUB"
  | binary .mul => "MUL"
  | binary .div => "DIV"
  | unary .negate => "NEG"
  | unary .sqrt => "SQRT"
  | print => "PRINT"

def operandCount : Instruction → Nat
  | pushConst _ => 0
  | load _ => 0
  | store _ => 1
  | binary _ => 2
  | unary _ => 1
  | print => 1

def text (instruction : Instruction) : String :=
  match instruction with
  | pushConst value => instruction.mnemonic ++ " " ++ Decimal.text value.toInt
  | load name => instruction.mnemonic ++ " " ++ name
  | store name => instruction.mnemonic ++ " " ++ name
  | _ => instruction.mnemonic

end Instruction

abbrev Code := List Instruction

namespace Code

def text (code : Code) : String :=
  String.join (code.map fun instruction => instruction.text ++ "\n")

end Code

def Expr.compile : Expr → Code
  | const value => [.pushConst value]
  | var name => [.load name]
  | binary op left right => left.compile ++ right.compile ++ [.binary op]
  | unary op operand => operand.compile ++ [.unary op]

def Statement.compile : Statement → Code
  | assign target value => value.compile ++ [.store target]
  | print value => value.compile ++ [.print]

def Program.compile (program : Program) : Code :=
  program.flatMap Statement.compile

theorem Program.compile_cons (statement : Statement) (program : Program) :
    compile (statement :: program) = statement.compile ++ compile program := by
  simp [compile]

theorem Program.compile_append (first second : Program) :
    compile (first ++ second) = compile first ++ compile second := by
  simp [compile]

end Polish
