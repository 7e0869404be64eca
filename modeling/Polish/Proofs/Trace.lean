import Mathlib.Data.List.Basic
import Polish.Dialogue

namespace Polish

def ParseError.report (error : ParseError) : Event :=
  .report error.kind error.message

namespace Event

def displays (printed : Array Int64) : List Event :=
  printed.toList.map display

theorem any_isReport_displays (printed : Array Int64) :
    (displays printed).any isReport = false := by
  rw [displays, List.any_map, List.any_eq_false]
  intro value _ hreport
  cases hreport

theorem any_isReport_map_report (errors : List ParseError) :
    (errors.map ParseError.report).any isReport = !errors.isEmpty := by
  cases errors with
  | nil => rfl
  | cons error errors => rfl

end Event

namespace Action

theorem events_append (first second : List Action) :
    events (first ++ second) = events first ++ events second :=
  List.filterMap_append

theorem events_map_log (entries : List LogEntry) : events (entries.map .log) = [] := by
  rw [events, List.filterMap_map, List.filterMap_eq_nil_iff]
  intro entry _
  rfl

theorem events_report (kind : ErrorKind) (message : String) :
    events (report kind message) = [.report kind message] :=
  rfl

theorem events_displays (printed : Array Int64) :
    events (displays printed) = Event.displays printed := by
  rw [events, displays, List.filterMap_map, Event.displays, ← List.filterMap_eq_map]
  rfl

theorem events_flatMap_report (errors : List ParseError) :
    events (errors.flatMap fun error => report error.kind error.message) =
      errors.map ParseError.report := by
  induction errors with
  | nil => rfl
  | cons error errors ih =>
      rw [List.flatMap_cons, events_append, ih]
      rfl

end Action

namespace Failure

/-- A cause with texts round it, the outermost first. -/
def within (texts : List String) (cause : Failure) : Failure :=
  texts.foldr context cause

theorem exists_within (failure : Failure) :
    ∃ texts, (∃ halt, failure = within texts (.halted halt)) ∨
      (∃ error, failure = within texts (.runtime error)) ∨
        ∃ message, failure = within texts (.other message) := by
  induction failure with
  | halted halt => exact ⟨[], Or.inl ⟨halt, rfl⟩⟩
  | runtime error => exact ⟨[], Or.inr (Or.inl ⟨error, rfl⟩)⟩
  | other message => exact ⟨[], Or.inr (Or.inr ⟨message, rfl⟩)⟩
  | context text cause ih =>
      obtain ⟨texts, ⟨halt, rfl⟩ | ⟨error, rfl⟩ | ⟨message, rfl⟩⟩ := ih
      · exact ⟨text :: texts, Or.inl ⟨halt, rfl⟩⟩
      · exact ⟨text :: texts, Or.inr (Or.inl ⟨error, rfl⟩)⟩
      · exact ⟨text :: texts, Or.inr (Or.inr ⟨message, rfl⟩)⟩

theorem kind_within (texts : List String) (cause : Failure) :
    (within texts cause).kind = cause.kind := by
  induction texts with
  | nil => rfl
  | cons text texts ih => exact ih

theorem printed_within (texts : List String) (cause : Failure) :
    (within texts cause).printed = cause.printed := by
  induction texts with
  | nil => rfl
  | cons text texts ih => exact ih

/-- The texts are told from the outside to the inside, and the cause last. -/
theorem message_within (name : String) (texts : List String) (cause : Failure) :
    name ++ ": " ++ (within texts cause).message =
      ": ".intercalate (name :: (texts ++ [cause.message])) := by
  induction texts generalizing name with
  | nil => simp [within, String.intercalate_cons_cons]
  | cons text texts ih =>
      have hmessage : (within (text :: texts) cause).message =
          text ++ ": " ++ (within texts cause).message := rfl
      rw [hmessage, ih, List.cons_append, String.intercalate_cons_cons]

end Failure

/-- The right answer to a request, and the right events, for a session with a given
way to recover from errors.  A failure is that of a halted run, of a runtime error
on its own or of anything else, with any number of texts round it. -/
inductive Answers (recovery : Recovery) : Request → Response → List Event → Prop where
  | accepted {words : List String} {program : Program} {parser : Parser}
      (hparse : ({ recovery } : Parser).parse words = (.ok program, parser)) :
      Answers recovery (.parse words) (.parsed (some program))
        (parser.diagnostics.map ParseError.report)
  | rejected {words : List String} {error : ParseError} {parser : Parser}
      (hparse : ({ recovery } : Parser).parse words = (.error error, parser)) :
      Answers recovery (.parse words) (.parsed none)
        (parser.diagnostics.map ParseError.report ++ [error.report])
  | completed {backend : Backend} {program : Program} {execution : Execution}
      (hrun : backend.run program = .ok execution) :
      Answers recovery (.execute backend program) (.executed (some execution))
        (Event.displays execution.printed ++ [.dump execution.bindings])
  | halted {backend : Backend} {program : Program} {texts : List String} {halt : Halt Store}
      (hrun : backend.run program = .error (.within texts (.halted halt))) :
      Answers recovery (.execute backend program) (.executed none)
        (Event.displays halt.state.printed ++
          [.report halt.error.kind
            (": ".intercalate (backend.name :: (texts ++ [halt.error.message])))])
  | failed {backend : Backend} {program : Program} {texts : List String} {error : RuntimeError}
      (hrun : backend.run program = .error (.within texts (.runtime error))) :
      Answers recovery (.execute backend program) (.executed none)
        [.report error.kind (": ".intercalate (backend.name :: (texts ++ [error.message])))]
  | other {backend : Backend} {program : Program} {texts : List String} {message : String}
      (hrun : backend.run program = .error (.within texts (.other message))) :
      Answers recovery (.execute backend program) (.executed none)
        [.report .illegalValue (": ".intercalate (backend.name :: (texts ++ [message])))]

/-- What a run tells the reporter. -/
def Backend.events (backend : Backend) (program : Program) : List Event :=
  match backend.run program with
  | .ok execution => Event.displays execution.printed ++ [.dump execution.bindings]
  | .error failure =>
      Event.displays failure.printed ++
        [.report failure.kind (backend.name ++ ": " ++ failure.message)]

theorem Backend.any_isReport_events (backend : Backend) (program : Program) :
    (backend.events program).any Event.isReport = !(backend.run program).isOk := by
  rw [events]
  cases backend.run program with
  | ok execution =>
      rw [List.any_append, Event.any_isReport_displays]
      rfl
  | error failure =>
      rw [List.any_append, Event.any_isReport_displays]
      rfl

namespace Session

theorem result_parse (session : Session) (words : List String) :
    (session.parse words).result =
      (({ recovery := session.recovery } : Parser).parse words).1.toOption :=
  rfl

theorem session_parse (session : Session) (words : List String) :
    (session.parse words).session =
      { session with
        failed := session.failed ||
          !(parseErrors (({ recovery := session.recovery } : Parser).parse words)).isEmpty } :=
  rfl

theorem events_parse (session : Session) (words : List String) :
    Action.events (session.parse words).actions =
      (parseErrors (({ recovery := session.recovery } : Parser).parse words)).map
        ParseError.report := by
  rw [parse, Action.events_append, Action.events_map_log, Action.events_flatMap_report]
  rfl

theorem events_leftOver (backend : Backend) (execution : Execution) :
    Action.events (leftOver backend execution) = [] := by
  rw [leftOver]
  split
  · rfl
  · rfl

theorem events_execute (session : Session) (backend : Backend) (program : Program) :
    Action.events (session.execute backend program).actions = backend.events program := by
  rw [execute, Backend.events]
  cases backend.run program with
  | ok execution =>
      simp only [Action.events_append, Action.events_map_log, Action.events_displays,
        events_leftOver, List.nil_append, List.append_nil]
      rfl
  | error failure =>
      simp only [Action.events_append, Action.events_map_log, Action.events_displays,
        Action.events_report, List.nil_append]

theorem result_execute (session : Session) (backend : Backend) (program : Program) :
    (session.execute backend program).result = (backend.run program).toOption := by
  rw [execute]
  cases backend.run program with
  | ok execution => rfl
  | error failure => rfl

theorem session_execute (session : Session) (backend : Backend) (program : Program) :
    (session.execute backend program).session =
      { session with failed := session.failed || !(backend.run program).isOk } := by
  rw [execute]
  cases backend.run program with
  | ok execution =>
      change session = { session with failed := session.failed || false }
      rw [Bool.or_false]
  | error failure =>
      change ({ session with failed := true } : Session) =
        { session with failed := session.failed || true }
      rw [Bool.or_true]

theorem answers_parse (session : Session) (words : List String) :
    Answers session.recovery (.parse words) (.parsed (session.parse words).result)
      (Action.events (session.parse words).actions) := by
  rw [events_parse, result_parse]
  rcases hparse : ({ recovery := session.recovery } : Parser).parse words with
    ⟨error | program, parser⟩
  · rw [parseErrors, List.map_append]
    exact .rejected hparse
  · exact .accepted hparse

theorem answers_execute (session : Session) (backend : Backend) (program : Program) :
    Answers session.recovery (.execute backend program)
      (.executed (session.execute backend program).result)
      (Action.events (session.execute backend program).actions) := by
  rw [events_execute, result_execute, Backend.events]
  cases hrun : backend.run program with
  | ok execution => exact .completed hrun
  | error failure =>
      obtain ⟨texts, ⟨halt, rfl⟩ | ⟨error, rfl⟩ | ⟨message, rfl⟩⟩ := failure.exists_within
      · simp only [Failure.printed_within, Failure.kind_within, Failure.message_within]
        exact .halted hrun
      · simp only [Failure.printed_within, Failure.kind_within, Failure.message_within]
        exact .failed hrun
      · simp only [Failure.printed_within, Failure.kind_within, Failure.message_within]
        exact .other hrun

theorem answers_answer (session : Session) (request : Request) :
    Answers session.recovery request (session.answer request).result
      (Action.events (session.answer request).actions) := by
  cases request with
  | parse words => exact answers_parse session words
  | execute backend program => exact answers_execute session backend program

theorem recovery_answer (session : Session) (request : Request) :
    (session.answer request).session.recovery = session.recovery := by
  cases request with
  | parse words => rfl
  | execute backend program =>
      change (session.execute backend program).session.recovery = session.recovery
      rw [session_execute]

theorem failed_parse (session : Session) (words : List String) :
    (session.parse words).session.failed =
      (session.failed || (Action.events (session.parse words).actions).any Event.isReport) := by
  rw [events_parse, Event.any_isReport_map_report, session_parse]

theorem failed_execute (session : Session) (backend : Backend) (program : Program) :
    (session.execute backend program).session.failed =
      (session.failed ||
        (Action.events (session.execute backend program).actions).any Event.isReport) := by
  rw [events_execute, Backend.any_isReport_events, session_execute]

/-- A request makes a session fail just when it makes it report something. -/
theorem failed_answer (session : Session) (request : Request) :
    (session.answer request).session.failed =
      (session.failed || (Action.events (session.answer request).actions).any Event.isReport) := by
  cases request with
  | parse words => exact failed_parse session words
  | execute backend program => exact failed_execute session backend program

end Session

namespace Dialogue

theorem answers_askAll (dialogue : Dialogue) (requests : List Request) :
    List.Forall₂
      (fun request exchange =>
        Answers dialogue.session.recovery request exchange.response exchange.events)
      requests (dialogue.askAll requests).1 := by
  induction requests generalizing dialogue with
  | nil => exact .nil
  | cons request requests ih =>
      have hrest := ih (dialogue.ask request).2
      have hrecovery : (dialogue.ask request).2.session.recovery = dialogue.session.recovery :=
        dialogue.session.recovery_answer request
      rw [hrecovery] at hrest
      exact .cons (dialogue.session.answers_answer request) hrest

theorem failed_askAll (dialogue : Dialogue) (requests : List Request) :
    (dialogue.askAll requests).2.session.failed =
      (dialogue.session.failed ||
        ((dialogue.askAll requests).1.flatMap Exchange.events).any Event.isReport) := by
  induction requests generalizing dialogue with
  | nil => exact (Bool.or_false _).symm
  | cons request requests ih =>
      have hfirst : (dialogue.ask request).2.session.failed =
          (dialogue.session.failed || (dialogue.ask request).1.events.any Event.isReport) :=
        dialogue.session.failed_answer request
      rw [askAll_cons, List.flatMap_cons, List.any_append, ← Bool.or_assoc, ← hfirst]
      exact ih (dialogue.ask request).2

theorem askAll_take (dialogue : Dialogue) (requests : List Request) (n : Nat) :
    (dialogue.askAll (requests.take n)).1 = (dialogue.askAll requests).1.take n := by
  induction requests generalizing dialogue n with
  | nil => simp
  | cons request requests ih =>
      cases n with
      | zero => rfl
      | succ n => simp only [List.take_succ_cons, askAll_cons, ih]

/-- In a session that starts anew, every request gets the right answer with the
right events, and after any number of requests the session has failed just when
one of the events so far is a report. -/
theorem trace_law (recovery : Recovery) (memory : Memory) (console : Console)
    (requests : List Request) :
    let dialogue : Dialogue := { session := { recovery }, memory, console }
    let exchanges := (dialogue.askAll requests).1
    List.Forall₂
      (fun request exchange => Answers recovery request exchange.response exchange.events)
      requests exchanges ∧
    ∀ n, (dialogue.askAll (requests.take n)).2.session.failed = true ↔
      ∃ event ∈ (exchanges.take n).flatMap Exchange.events, event.isReport = true := by
  intro dialogue exchanges
  refine ⟨answers_askAll dialogue requests, ?_⟩
  intro n
  rw [failed_askAll, askAll_take, ← List.any_eq_true]
  rfl

example :
    let halt : Halt Store := ⟨.divideByZero, { printed := #[1] }⟩
    let backend : Backend :=
      { name := "custom", run := fun _ => .error (.context "outer" (.halted halt)) }
    let run := ({} : Dialogue).askAll [.parse ["@", "$"], .execute backend []]
    run.1.flatMap Exchange.events =
      [.report .illegalValue "Illegal token '$'", .display 1,
        .report .divideByZero "custom: outer: Integer divide by zero"] := by
  decide +kernel

end Dialogue

end Polish
