import Polish.Proofs.Lines
import Polish.Proofs.Trace

namespace Polish

/-- Values in decimal, one per line. -/
def valueLines (values : Array Int64) : String :=
  unlines (values.toList.map fun value => Decimal.text value.toInt)

namespace Event

def isDisplay : Event → Bool
  | display _ => true
  | _ => false

def isDiagnostic (event : Event) : Bool :=
  !event.isDisplay

/-- The texts of the events of one sort, in order. -/
def textOf (sort : Event → Bool) (events : List Event) : String :=
  String.join ((events.filter sort).map text)

variable {sort : Event → Bool}

theorem textOf_append (first second : List Event) :
    textOf sort (first ++ second) = textOf sort first ++ textOf sort second := by
  simp [textOf]

theorem textOf_cons (event : Event) (events : List Event) :
    textOf sort (event :: events) = textOf sort [event] ++ textOf sort events :=
  textOf_append [event] events

theorem textOf_flatMap {α : Type} (f : α → List Event) (items : List α) :
    textOf sort (items.flatMap f) = String.join (items.map fun item => textOf sort (f item)) := by
  induction items with
  | nil => rfl
  | cons item items ih =>
      rw [List.flatMap_cons, textOf_append, ih, List.map_cons, String.join_cons]

theorem textOf_of_forall {events : List Event} (h : ∀ event ∈ events, sort event = true) :
    textOf sort events = String.join (events.map text) := by
  rw [textOf, List.filter_eq_self.mpr h]

theorem textOf_eq_empty {events : List Event} (h : ∀ event ∈ events, sort event = false) :
    textOf sort events = "" := by
  have hfilter : events.filter sort = [] := by
    rw [List.filter_eq_nil_iff]
    intro event hevent
    rw [h event hevent]
    exact Bool.false_ne_true
  rw [textOf, hfilter]
  rfl

theorem isDisplay_of_mem_displays {printed : Array Int64} :
    ∀ event ∈ displays printed, event.isDisplay = true := by
  intro event hevent
  obtain ⟨value, -, rfl⟩ := List.mem_map.mp hevent
  rfl

theorem isDiagnostic_of_mem_map_report {errors : List ParseError} :
    ∀ event ∈ errors.map ParseError.report, event.isDiagnostic = true := by
  intro event hevent
  obtain ⟨error, -, rfl⟩ := List.mem_map.mp hevent
  rfl

theorem textOf_display_displays (printed : Array Int64) :
    textOf isDisplay (displays printed) = valueLines printed := by
  rw [textOf_of_forall isDisplay_of_mem_displays, displays, valueLines, unlines, List.map_map,
    List.map_map]
  rfl

theorem textOf_display_displays_append (printed : Array Int64) {event : Event}
    (h : event.isDisplay = false) :
    textOf isDisplay (displays printed ++ [event]) = valueLines printed := by
  have hevent : textOf isDisplay [event] = "" :=
    textOf_eq_empty fun _ hmem => List.mem_singleton.mp hmem ▸ h
  rw [textOf_append, textOf_display_displays, hevent, String.append_empty]

theorem textOf_diagnostic_displays (printed : Array Int64) :
    textOf isDiagnostic (displays printed) = "" := by
  apply textOf_eq_empty
  intro event hevent
  rw [isDiagnostic, isDisplay_of_mem_displays event hevent]
  rfl

theorem textOf_display_map_report (errors : List ParseError) :
    textOf isDisplay (errors.map ParseError.report) = "" := by
  apply textOf_eq_empty
  intro event hevent
  exact Bool.not_eq_true' _ ▸ isDiagnostic_of_mem_map_report event hevent

theorem textOf_diagnostic_map_report (errors : List ParseError) :
    textOf isDiagnostic (errors.map ParseError.report) =
      String.join (errors.map fun error => error.report.text) := by
  rw [textOf_of_forall isDiagnostic_of_mem_map_report, List.map_map]
  rfl

end Event

namespace Sink

theorem write_empty (sink : Sink) : sink.write "" = sink := by
  cases sink with
  | working written => exact congrArg working String.append_empty
  | broken reason => rfl

theorem write_write (sink : Sink) (first second : String) :
    (sink.write first).write second = sink.write (first ++ second) := by
  cases sink with
  | working written => exact congrArg working String.append_assoc
  | broken reason => rfl

end Sink

namespace Console

/-- Each sink takes its own part of an event, whatever becomes of the other. -/
theorem record_eq (console : Console) (event : Event) :
    console.record event =
      { display := console.display.write (Event.textOf Event.isDisplay [event])
        diagnostics := console.diagnostics.write (Event.textOf Event.isDiagnostic [event]) } := by
  cases event with
  | display _ | report _ _ | dump _ =>
      simp [record, Sink.write_empty, Event.textOf, Event.isDiagnostic, Event.isDisplay,
        List.filter_cons]

theorem recordAll_eq (console : Console) (events : List Event) :
    console.recordAll events =
      { display := console.display.write (Event.textOf Event.isDisplay events)
        diagnostics := console.diagnostics.write (Event.textOf Event.isDiagnostic events) } := by
  induction events generalizing console with
  | nil => simp [recordAll, Event.textOf, Sink.write_empty]
  | cons event events ih =>
      rw [recordAll, List.foldl_cons, record_eq]
      refine (ih _).trans ?_
      simp only [Event.textOf_cons event events, Sink.write_write]

theorem recordAll_working (out err : String) (events : List Event) :
    ({ display := .working out, diagnostics := .working err } : Console).recordAll events =
      { display := .working (out ++ Event.textOf Event.isDisplay events)
        diagnostics := .working (err ++ Event.textOf Event.isDiagnostic events) } :=
  recordAll_eq _ events

theorem recordAll_new (events : List Event) :
    ({} : Console).recordAll events =
      { display := .working (Event.textOf Event.isDisplay events)
        diagnostics := .working (Event.textOf Event.isDiagnostic events) } := by
  have hnew := recordAll_working "" "" events
  rwa [String.empty_append, String.empty_append] at hnew

end Console

namespace Session

theorem events_executeAll (session : Session) (program : Program) (backends : List Backend) :
    Action.events (session.executeAll program backends).1 =
      backends.flatMap fun backend => backend.events program := by
  induction backends generalizing session with
  | nil => rfl
  | cons backend backends ih =>
      rw [executeAll, Action.events_append, events_execute, ih, List.flatMap_cons]

/-- No failed run keeps a later backend from its own. -/
theorem failed_executeAll (session : Session) (program : Program) (backends : List Backend) :
    (session.executeAll program backends).2.failed =
      (session.failed || backends.any fun backend => !(backend.run program).isOk) := by
  induction backends generalizing session with
  | nil => exact (Bool.or_false _).symm
  | cons backend backends ih =>
      rw [executeAll, ih, session_execute, List.any_cons, Bool.or_assoc]

end Session

end Polish
