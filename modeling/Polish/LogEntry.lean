import Polish.Event
import Polish.Instruction
import Polish.Parser

namespace Polish

inductive LogLevel where
  | trace
  | debug
  | info
  | warn
  deriving DecidableEq, Repr

def LogLevel.name : LogLevel → String
  | trace => "TRACE"
  | debug => "DEBUG"
  | info => "INFO"
  | warn => "WARN"

inductive LogEntry where
  | parsing (words clusters : Nat)
  | skipping (cluster : Cluster) (error : ParseError)
  | compiled (statements instructions : Nat)
  /-- An instruction is about to be executed on a stack, given top first. -/
  | executing (instruction : Instruction) (stack : List Int64)
  | ended (residual : Nat)
  | running (statements : Nat) (backend : String)
  | leftOver (backend : String) (residual : Nat)
  | reporting (kind : ErrorKind) (message : String)
  | unwritten (event : Event) (reason : String)
  deriving DecidableEq

namespace LogEntry

def level : LogEntry → LogLevel
  | executing _ _ => .trace
  | ended _ => .info
  | leftOver _ _ => .warn
  | unwritten _ _ => .warn
  | _ => .debug

/-- A stack from bottom to top, in brackets. -/
def stackText (stack : List Int64) : String :=
  "[" ++ ", ".intercalate (stack.reverse.map fun value => Decimal.text value.toInt) ++ "]"

def message : LogEntry → String
  | parsing words clusters =>
      "Parsing " ++ Decimal.text words ++ " tokens in " ++ Decimal.text clusters ++
        " statement clusters"
  | skipping cluster error =>
      "Skipping statement '" ++ " ".intercalate cluster.words ++ "': " ++ error.message
  | compiled statements instructions =>
      "Compiled " ++ Decimal.text statements ++ " statements into " ++
        Decimal.text instructions ++ " instructions"
  | executing instruction stack => instruction.text ++ " stack=" ++ stackText stack
  | ended residual =>
      "Machine: execution ended with " ++ Decimal.text residual ++
        " items left on the stack"
  | running statements backend =>
      "Running " ++ Decimal.text statements ++ " statements on " ++ backend
  | leftOver backend residual =>
      backend ++ ": " ++ Decimal.text residual ++ " values left on the stack"
  | reporting kind message => "Reporting " ++ kind.name ++ ": " ++ message
  | unwritten event reason => "Failed to write " ++ event.noun ++ ": " ++ reason

def line (entry : LogEntry) : String :=
  entry.level.name ++ " " ++ entry.message

end LogEntry

def Parser.log (parser : Parser) (words : List String) : List LogEntry :=
  match Cluster.split words, parser.recovery with
  | (_ :: _, _), _ => []
  | ([], clusters), .abort => [.parsing words.length clusters.length]
  | ([], clusters), .skipStatement =>
      .parsing words.length clusters.length ::
        (Cluster.skipped clusters).map fun (cluster, error) => .skipping cluster error

end Polish
