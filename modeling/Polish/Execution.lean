import Polish.Machine

namespace Polish

structure Execution extends Store where
  /-- Number of values left on the stack. -/
  residual : Nat := 0
  deriving DecidableEq

/-- The printed values, one per line, without a line end after the last. -/
def Execution.output (execution : Execution) : String :=
  "\n".intercalate (execution.printed.toList.map fun value => Decimal.text value.toInt)

def Machine.execution (machine : Machine) : Execution :=
  { machine.toStore with residual := machine.stack.length }

/-- Why a backend gives no result.  Any number of texts may be put round the
cause. -/
inductive Failure where
  | halted (halt : Halt Store)
  | runtime (error : RuntimeError)
  | other (message : String)
  | context (text : String) (cause : Failure)
  deriving DecidableEq

namespace Failure

def kind : Failure → ErrorKind
  | halted halt => halt.error.kind
  | runtime error => error.kind
  | other _ => .illegalValue
  | context _ cause => cause.kind

def printed : Failure → Array Int64
  | halted halt => halt.state.printed
  | runtime _ => #[]
  | other _ => #[]
  | context _ cause => cause.printed

def message : Failure → String
  | halted halt => halt.error.message
  | runtime error => error.message
  | other message => message
  | context text cause => text ++ ": " ++ cause.message

end Failure

end Polish
