import Polish.Decimal
import Polish.ErrorKind

namespace Polish

inductive RuntimeError where
  | uninitialized (name : String)
  | divideByZero
  /-- An instruction found fewer values on the stack than it takes. -/
  | prematureEnd (mnemonic : String) (needed found : Nat)
  | negativeSqrt (operand : Int64)
  deriving DecidableEq, Repr

namespace RuntimeError

def kind : RuntimeError → ErrorKind
  | uninitialized _ => .uninitialized
  | divideByZero => .divideByZero
  | prematureEnd _ _ _ => .prematureEnd
  | negativeSqrt _ => .illegalValue

def message : RuntimeError → String
  | uninitialized name => "Variable '" ++ name ++ "' is not initialized"
  | divideByZero => "Integer divide by zero"
  | prematureEnd mnemonic needed found =>
      "Premature end: " ++ mnemonic ++ " needs " ++ Decimal.text needed ++
        " stack items, found " ++ Decimal.text found
  | negativeSqrt operand =>
      "Square root of negative value " ++ Decimal.text operand.toInt

end RuntimeError

/-- A run stopped by an error, with the state that it had reached. -/
structure Halt (State : Type) where
  error : RuntimeError
  state : State
  deriving DecidableEq

def Halt.map {State Part : Type} (part : State → Part) (halt : Halt State) : Halt Part :=
  ⟨halt.error, part halt.state⟩

end Polish
