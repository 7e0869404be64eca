import Polish.Bindings
import Polish.ErrorKind

namespace Polish

inductive Event where
  | display (value : Int64)
  | report (kind : ErrorKind) (message : String)
  | dump (bindings : Bindings)
  deriving DecidableEq

namespace Event

def isReport : Event → Bool
  | report _ _ => true
  | _ => false

def text : Event → String
  | display value => Decimal.text value.toInt ++ "\n"
  | report kind message => "**** " ++ kind.name ++ ": " ++ message ++ "\n"
  | dump bindings => bindings.text

/-- The name of an event in complaints about writing it. -/
def noun : Event → String
  | display _ => "printed value"
  | report _ _ => "report"
  | dump _ => "symbol table dump"

end Event

end Polish
