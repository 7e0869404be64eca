import Polish.Event

namespace Polish

/-- Events sorted by what they are, each sort in order of arrival. -/
structure Memory where
  displayed : Array Int64 := #[]
  reports : Array (ErrorKind × String) := #[]
  dumps : Array Bindings := #[]
  /-- For each report, the number of values displayed before it. -/
  displayedBefore : Array Nat := #[]
  deriving DecidableEq

namespace Memory

def record (memory : Memory) : Event → Memory
  | .display value => { memory with displayed := memory.displayed.push value }
  | .report kind message =>
      { memory with
        reports := memory.reports.push (kind, message)
        displayedBefore := memory.displayedBefore.push memory.displayed.size }
  | .dump bindings => { memory with dumps := memory.dumps.push bindings }

def recordAll (memory : Memory) (events : List Event) : Memory :=
  events.foldl record memory

def kinds (memory : Memory) : Array ErrorKind :=
  memory.reports.map (·.1)

end Memory

/-- A place to write to, with what it holds or the reason why it fails. -/
inductive Sink where
  | working (written : String)
  | broken (reason : String)
  deriving DecidableEq, Repr

namespace Sink

def write (text : String) : Sink → Sink
  | working written => working (written ++ text)
  | broken reason => broken reason

def written : Sink → String
  | working written => written
  | broken _ => ""

def fault? : Sink → Option String
  | working _ => none
  | broken reason => some reason

end Sink

structure Console where
  display : Sink := .working ""
  diagnostics : Sink := .working ""
  deriving DecidableEq, Repr

namespace Console

def record (console : Console) (event : Event) : Console :=
  match event with
  | .display _ => { console with display := console.display.write event.text }
  | _ => { console with diagnostics := console.diagnostics.write event.text }

def recordAll (console : Console) (events : List Event) : Console :=
  events.foldl record console

def fault? (console : Console) : Event → Option String
  | .display _ => console.display.fault?
  | _ => console.diagnostics.fault?

end Console

end Polish
