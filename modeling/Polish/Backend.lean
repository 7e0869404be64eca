import Polish.Execution
import Polish.LogEntry

namespace Polish

/-- Anything that a session can run a program on. -/
structure Backend where
  name : String
  run : Program → Except Failure Execution
  log : Program → List LogEntry := fun _ => []

/-- What running code logs: every instruction that is reached, and the end. -/
def Machine.log (machine : Machine) : Code → List LogEntry
  | [] => [.ended machine.stack.length]
  | instruction :: code =>
      .executing instruction machine.stack ::
        match machine.step instruction with
        | .ok next => next.log code
        | .error _ => []

/-- A program in the form in which an engine runs it. -/
inductive Prepared where
  | tree (program : Program)
  | code (instructions : Code)
  deriving DecidableEq

namespace Prepared

def run : Prepared → Except (Halt Store) Execution
  | tree program => (program.exec {}).map fun store => { store with }
  | code instructions =>
      ((({} : Machine).run instructions).map Machine.execution).mapError
        (·.map Machine.toStore)

def log : Prepared → List LogEntry
  | tree _ => []
  | code instructions => ({} : Machine).log instructions

end Prepared

inductive Engine where
  | interpreter
  | vm
  deriving DecidableEq, Repr

namespace Engine

def name : Engine → String
  | interpreter => "interpreter"
  | vm => "vm"

def all : List Engine :=
  [interpreter, vm]

def ofName? (name : String) : Option Engine :=
  all.find? (·.name == name)

def prepare (program : Program) : Engine → Prepared
  | interpreter => .tree program
  | vm => .code program.compile

def prepareLog (program : Program) : Engine → List LogEntry
  | interpreter => []
  | vm => [.compiled program.length program.compile.length]

def backend (engine : Engine) : Backend where
  name := engine.name
  run program := ((engine.prepare program).run).mapError .halted
  log program := engine.prepareLog program ++ (engine.prepare program).log

end Engine

end Polish
