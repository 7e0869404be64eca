import Polish.Backend
import Polish.Reporter

namespace Polish

/-- What a session does, in order: it logs, and it tells its reporter. -/
inductive Action where
  | log (entry : LogEntry)
  | tell (event : Event)
  deriving DecidableEq

namespace Action

def event? : Action → Option Event
  | log _ => none
  | tell event => some event

def events (actions : List Action) : List Event :=
  actions.filterMap event?

/-- The log entry of an action, given the console that records it. -/
def logged? (console : Console) : Action → Option LogEntry
  | log entry => some entry
  | tell event => (console.fault? event).map fun reason => .unwritten event reason

/-- The log of a list of actions.  It has an entry for each event that the
console fails to write. -/
def logEntries (console : Console) (actions : List Action) : List LogEntry :=
  actions.filterMap (logged? console)

def report (kind : ErrorKind) (message : String) : List Action :=
  [.log (.reporting kind message), .tell (.report kind message)]

def displays (printed : Array Int64) : List Action :=
  printed.toList.map fun value => .tell (.display value)

end Action

structure Session where
  recovery : Recovery := .abort
  failed : Bool := false
  deriving DecidableEq, Repr

structure Turn (α : Type) where
  result : α
  actions : List Action
  session : Session

def Turn.map {α β : Type} (f : α → β) (turn : Turn α) : Turn β :=
  ⟨f turn.result, turn.actions, turn.session⟩

namespace Session

/-- The errors of a parse: those skipped over, and the one that ended it. -/
def parseErrors : Except ParseError Program × Parser → List ParseError
  | (.ok _, parser) => parser.diagnostics
  | (.error error, parser) => parser.diagnostics ++ [error]

def parse (session : Session) (words : List String) : Turn (Option Program) :=
  let parser : Parser := { recovery := session.recovery }
  let parsed := parser.parse words
  let errors := parseErrors parsed
  { result := parsed.1.toOption
    actions := (parser.log words).map .log ++
      errors.flatMap fun error => Action.report error.kind error.message
    session := { session with failed := session.failed || !errors.isEmpty } }

def leftOver (backend : Backend) (execution : Execution) : List Action :=
  if execution.residual = 0 then
    []
  else
    [.log (.leftOver backend.name execution.residual)]

def execute (session : Session) (backend : Backend) (program : Program) :
    Turn (Option Execution) :=
  let start := (LogEntry.running program.length backend.name :: backend.log program).map .log
  match backend.run program with
  | .ok execution =>
      { result := some execution
        actions := start ++ Action.displays execution.printed ++
          leftOver backend execution ++ [.tell (.dump execution.bindings)]
        session }
  | .error failure =>
      { result := none
        actions := start ++ Action.displays failure.printed ++
          Action.report failure.kind (backend.name ++ ": " ++ failure.message)
        session := { session with failed := true } }

def executeAll (session : Session) (program : Program) :
    List Backend → List Action × Session
  | [] => ([], session)
  | backend :: backends =>
      let turn := session.execute backend program
      let rest := turn.session.executeAll program backends
      (turn.actions ++ rest.1, rest.2)

end Session

end Polish
