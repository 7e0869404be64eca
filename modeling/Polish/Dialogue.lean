import Polish.Reporter
import Polish.Session

namespace Polish

inductive Request where
  | parse (words : List String)
  | execute (backend : Backend) (program : Program)

inductive Response where
  | parsed (program : Option Program)
  | executed (execution : Option Execution)
  deriving DecidableEq

def Session.answer (session : Session) : Request → Turn Response
  | .parse words => (session.parse words).map .parsed
  | .execute backend program => (session.execute backend program).map .executed

/-- One session that answers requests, with two recorders of what it tells its reporter. -/
structure Dialogue where
  session : Session := {}
  memory : Memory := {}
  console : Console := {}
  deriving DecidableEq

structure Exchange where
  response : Response
  events : List Event
  log : List LogEntry
  deriving DecidableEq

namespace Dialogue

def ask (dialogue : Dialogue) (request : Request) : Exchange × Dialogue :=
  let turn := dialogue.session.answer request
  let events := Action.events turn.actions
  (⟨turn.result, events, Action.logEntries dialogue.console turn.actions⟩,
    ⟨turn.session, dialogue.memory.recordAll events, dialogue.console.recordAll events⟩)

def askAll (dialogue : Dialogue) : List Request → List Exchange × Dialogue
  | [] => ([], dialogue)
  | request :: requests =>
      let first := dialogue.ask request
      let rest := first.2.askAll requests
      (first.1 :: rest.1, rest.2)

@[simp] theorem askAll_nil (dialogue : Dialogue) : dialogue.askAll [] = ([], dialogue) :=
  rfl

@[simp] theorem askAll_cons (dialogue : Dialogue) (request : Request)
    (requests : List Request) :
    dialogue.askAll (request :: requests) =
      ((dialogue.ask request).1 :: ((dialogue.ask request).2.askAll requests).1,
        ((dialogue.ask request).2.askAll requests).2) :=
  rfl

end Dialogue

end Polish
