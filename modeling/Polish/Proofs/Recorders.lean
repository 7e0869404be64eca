import Polish.Proofs.Console

namespace Polish

namespace Event

def value? : Event → Option Int64
  | display value => some value
  | _ => none

def report? : Event → Option (ErrorKind × String)
  | report kind message => some (kind, message)
  | _ => none

def dump? : Event → Option Bindings
  | dump bindings => some bindings
  | _ => none

/-- What a call leaves on a diagnostics stream: a report its line, a dump the table,
and a displayed value nothing. -/
def diagnostic : Event → String
  | display _ => ""
  | report kind message => "**** " ++ kind.name ++ ": " ++ message ++ "\n"
  | dump bindings => bindings.text

/-- The `i`-th report comes after `n` displayed values. -/
def ReportAfter (events : List Event) (i n : Nat) : Prop :=
  ∃ before kind message after, events = before ++ report kind message :: after ∧
    before.countP isReport = i ∧ before.countP isDisplay = n

variable {events : List Event} {event : Event} {i n : Nat}

theorem reportAfter_append_singleton_iff :
    ReportAfter (events ++ [event]) i n ↔
      ReportAfter events i n ∨
        (event.isReport = true ∧ events.countP isReport = i ∧ events.countP isDisplay = n) := by
  constructor
  · rintro ⟨before, kind, message, after, hevents, hreports, hdisplays⟩
    rcases List.eq_nil_or_concat after with rfl | ⟨after, last, rfl⟩
    · obtain ⟨rfl, hlast⟩ := List.append_inj' hevents rfl
      obtain rfl := List.singleton_inj.mp hlast
      exact Or.inr ⟨rfl, hreports, hdisplays⟩
    · rw [List.concat_eq_append, ← List.cons_append, ← List.append_assoc] at hevents
      obtain ⟨rfl, -⟩ := List.append_inj' hevents rfl
      exact Or.inl ⟨before, kind, message, after, rfl, hreports, hdisplays⟩
  · rintro (⟨before, kind, message, after, rfl, hreports, hdisplays⟩ |
      ⟨hevent, hreports, hdisplays⟩)
    · exact ⟨before, kind, message, after ++ [event], by simp, hreports, hdisplays⟩
    · cases event with
      | display value => cases hevent
      | report kind message => exact ⟨events, kind, message, [], rfl, hreports, hdisplays⟩
      | dump bindings => cases hevent

end Event

namespace Memory

variable {memory : Memory} {events : List Event} {event : Event}

theorem toList_displayed_record :
    (memory.record event).displayed.toList =
      memory.displayed.toList ++ [event].filterMap Event.value? := by
  cases event <;> simp [record, Event.value?]

theorem toList_reports_record :
    (memory.record event).reports.toList =
      memory.reports.toList ++ [event].filterMap Event.report? := by
  cases event <;> simp [record, Event.report?]

theorem toList_dumps_record :
    (memory.record event).dumps.toList =
      memory.dumps.toList ++ [event].filterMap Event.dump? := by
  cases event <;> simp [record, Event.dump?]

theorem displayedBefore_record :
    (memory.record event).displayedBefore =
      if event.isReport then
        memory.displayedBefore.push memory.displayed.size
      else
        memory.displayedBefore := by
  cases event <;> rfl

theorem size_displayed_le_record :
    memory.displayed.size ≤ (memory.record event).displayed.size := by
  rw [← Array.length_toList, ← Array.length_toList, toList_displayed_record, List.length_append]
  exact Nat.le_add_right _ _

/-- The memory of exactly the given events. -/
structure Recalls (memory : Memory) (events : List Event) : Prop where
  displayed : memory.displayed.toList = events.filterMap Event.value?
  reports : memory.reports.toList = events.filterMap Event.report?
  dumps : memory.dumps.toList = events.filterMap Event.dump?
  size : memory.displayedBefore.size = memory.reports.size
  reportAfter : ∀ i n, memory.displayedBefore[i]? = some n ↔ Event.ReportAfter events i n
  nondecreasing : memory.displayedBefore.toList.Pairwise (· ≤ ·)
  bounded : ∀ n ∈ memory.displayedBefore, n ≤ memory.displayed.size

theorem Recalls.new : ({} : Memory).Recalls [] where
  displayed := rfl
  reports := rfl
  dumps := rfl
  size := rfl
  reportAfter i n := by
    refine ⟨fun h => absurd h (Option.some_ne_none n).symm, ?_⟩
    rintro ⟨before, kind, message, after, hevents, -⟩
    exact absurd hevents.symm (List.append_ne_nil_of_right_ne_nil before (List.cons_ne_nil _ _))
  nondecreasing := .nil
  bounded n hn := absurd hn (Array.not_mem_empty n)

theorem Recalls.size_displayed (h : memory.Recalls events) :
    memory.displayed.size = events.countP Event.isDisplay := by
  rw [← Array.length_toList, h.displayed, List.length_filterMap_eq_countP]
  congr 1
  funext event
  cases event <;> rfl

theorem Recalls.size_reports (h : memory.Recalls events) :
    memory.reports.size = events.countP Event.isReport := by
  rw [← Array.length_toList, h.reports, List.length_filterMap_eq_countP]
  congr 1
  funext event
  cases event <;> rfl

theorem Recalls.record (h : memory.Recalls events) (event : Event) :
    (memory.record event).Recalls (events ++ [event]) where
  displayed := by
    rw [toList_displayed_record, h.displayed, List.filterMap_append]
  reports := by
    rw [toList_reports_record, h.reports, List.filterMap_append]
  dumps := by
    rw [toList_dumps_record, h.dumps, List.filterMap_append]
  size := by
    cases event <;> simp [Memory.record, h.size]
  reportAfter i n := by
    rw [displayedBefore_record, Event.reportAfter_append_singleton_iff, ← h.reportAfter,
      ← h.size_reports, ← h.size_displayed, ← h.size]
    split
    · rename_i hevent
      rw [Array.getElem?_push, hevent]
      by_cases hi : i = memory.displayedBefore.size
      · rw [if_pos hi, Option.some.injEq, hi, Array.getElem?_size]
        simp
      · rw [if_neg hi]
        simp [Ne.symm hi]
    · rename_i hevent
      simp [hevent]
  nondecreasing := by
    rw [displayedBefore_record]
    split
    · rw [Array.toList_push, List.pairwise_append]
      refine ⟨h.nondecreasing, List.pairwise_singleton _ _, fun n hn m hm => ?_⟩
      obtain rfl := List.mem_singleton.mp hm
      exact h.bounded n (Array.mem_toList_iff.mp hn)
    · exact h.nondecreasing
  bounded n hn := by
    have hn : n ∈ memory.displayedBefore ∨ n = memory.displayed.size := by
      rw [displayedBefore_record] at hn
      split at hn
      · exact Array.mem_push.mp hn
      · exact Or.inl hn
    rcases hn with hn | rfl
    · exact Nat.le_trans (h.bounded n hn) size_displayed_le_record
    · exact size_displayed_le_record

theorem recalls_recordAll (h : memory.Recalls events) (more : List Event) :
    (memory.recordAll more).Recalls (events ++ more) := by
  induction more generalizing memory events with
  | nil => rwa [List.append_nil]
  | cons event more ih =>
      rw [List.append_cons]
      exact ih (h.record event)

end Memory

namespace Event

theorem map_text_filter_isDisplay (events : List Event) :
    (events.filter isDisplay).map text =
      (events.filterMap value?).map fun value => Decimal.text value.toInt ++ "\n" := by
  induction events with
  | nil => rfl
  | cons event events ih =>
      cases event with
      | display value => exact congrArg (_ :: ·) ih
      | report kind message => exact ih
      | dump bindings => exact ih

theorem textOf_display_eq_valueLines {values : Array Int64} {events : List Event}
    (h : values.toList = events.filterMap value?) :
    textOf isDisplay events = valueLines values := by
  rw [textOf, map_text_filter_isDisplay, valueLines, unlines, h, List.map_map]
  rfl

theorem textOf_diagnostic_eq_join (events : List Event) :
    textOf isDiagnostic events = String.join (events.map diagnostic) := by
  induction events with
  | nil => rfl
  | cons event events ih =>
      rw [textOf_cons, ih, List.map_cons, String.join_cons]
      congr 1
      cases event with
      | display value => rfl
      | report kind message => exact String.empty_append
      | dump bindings => exact String.empty_append

end Event

namespace Console

theorem display_recordAll_new (diagnostics : Sink) (events : List Event) :
    (({ display := .working "", diagnostics } : Console).recordAll events).display =
      .working (valueLines (({} : Memory).recordAll events).displayed) := by
  have hmemory := Memory.recalls_recordAll .new events
  rw [recordAll_eq, ← Event.textOf_display_eq_valueLines hmemory.displayed]
  exact congrArg Sink.working String.empty_append

theorem diagnostics_recordAll_new (display : Sink) (events : List Event) :
    (({ display, diagnostics := .working "" } : Console).recordAll events).diagnostics =
      .working (String.join (events.map Event.diagnostic)) := by
  rw [recordAll_eq, ← Event.textOf_diagnostic_eq_join]
  exact congrArg Sink.working String.empty_append

theorem display_recordAll_broken (reason : String) (diagnostics : Sink) (events : List Event) :
    (({ display := .broken reason, diagnostics } : Console).recordAll events).display =
      .broken reason := by
  rw [recordAll_eq]
  rfl

theorem diagnostics_recordAll_broken (display : Sink) (reason : String) (events : List Event) :
    (({ display, diagnostics := .broken reason } : Console).recordAll events).diagnostics =
      .broken reason := by
  rw [recordAll_eq]
  rfl

theorem recordAll_append (console : Console) (first second : List Event) :
    console.recordAll (first ++ second) = (console.recordAll first).recordAll second :=
  List.foldl_append

end Console

theorem Memory.recordAll_append (memory : Memory) (first second : List Event) :
    memory.recordAll (first ++ second) = (memory.recordAll first).recordAll second :=
  List.foldl_append

namespace Dialogue

/-- Two runs in which the same happens, whatever the consoles hold and the logs say. -/
structure SameCourse (run run' : List Exchange × Dialogue) : Prop where
  responses : run.1.map Exchange.response = run'.1.map Exchange.response
  events : run.1.map Exchange.events = run'.1.map Exchange.events
  session : run.2.session = run'.2.session
  memory : run.2.memory = run'.2.memory

theorem sameCourse_askAll {dialogue dialogue' : Dialogue} (requests : List Request)
    (hsession : dialogue.session = dialogue'.session)
    (hmemory : dialogue.memory = dialogue'.memory) :
    SameCourse (dialogue.askAll requests) (dialogue'.askAll requests) := by
  induction requests generalizing dialogue dialogue' with
  | nil => exact ⟨rfl, rfl, hsession, hmemory⟩
  | cons request requests ih =>
      obtain ⟨session, memory, console⟩ := dialogue
      obtain ⟨session', memory', console'⟩ := dialogue'
      obtain rfl : session = session' := hsession
      obtain rfl : memory = memory' := hmemory
      let next := (ask ⟨session, memory, console⟩ request).2
      let next' := (ask ⟨session, memory, console'⟩ request).2
      have hnext : SameCourse (next.askAll requests) (next'.askAll requests) := ih rfl rfl
      obtain ⟨hresponses, hevents, hsession, hmemory⟩ := hnext
      exact ⟨congrArg (_ :: ·) hresponses, congrArg (_ :: ·) hevents, hsession, hmemory⟩

theorem recorders_askAll (dialogue : Dialogue) (requests : List Request) :
    let run := dialogue.askAll requests
    let events := run.1.flatMap Exchange.events
    run.2.memory = dialogue.memory.recordAll events ∧
      run.2.console = dialogue.console.recordAll events := by
  intro run events
  induction requests generalizing dialogue with
  | nil => exact ⟨rfl, rfl⟩
  | cons request requests ih =>
      obtain ⟨hmemory, hconsole⟩ := ih (dialogue.ask request).2
      simp only [run, events, askAll_cons, List.flatMap_cons, Memory.recordAll_append,
        Console.recordAll_append]
      exact ⟨hmemory, hconsole⟩

theorem SameCourse.flatMap_events {run run' : List Exchange × Dialogue} (h : SameCourse run run') :
    run.1.flatMap Exchange.events = run'.1.flatMap Exchange.events := by
  rw [List.flatMap_def, h.events, ← List.flatMap_def]

/-- The memory knows the whole history.  A working display holds the displayed values, a
line for each, and working diagnostics hold the lines of the reports and the dumps in the
order of the calls.  A broken sink holds nothing, and that changes neither the course of
a session nor what the other sink holds. -/
theorem recorders_keep_one_history :
    (∀ events : List Event,
      let memory := ({} : Memory).recordAll events
      let recorded (display diagnostics : Sink) :=
        ({ display, diagnostics } : Console).recordAll events
      memory.Recalls events ∧
      (∀ sink, (recorded (.working "") sink).display = .working (valueLines memory.displayed)) ∧
      (∀ sink, (recorded sink (.working "")).diagnostics =
        .working (String.join (events.map Event.diagnostic))) ∧
      (∀ reason sink, (recorded (.broken reason) sink).display.written = "") ∧
      ∀ reason sink, (recorded sink (.broken reason)).diagnostics.written = "") ∧
    ∀ (session : Session) (memory : Memory) (requests : List Request),
      let run (display diagnostics : Sink) :=
        ({ session, memory, console := { display, diagnostics } } : Dialogue).askAll requests
      (∀ display diagnostics display' diagnostics',
        SameCourse (run display diagnostics) (run display' diagnostics')) ∧
      (∀ sink diagnostics diagnostics',
        (run sink diagnostics).2.console.display = (run sink diagnostics').2.console.display) ∧
      (∀ sink display display',
        (run display sink).2.console.diagnostics = (run display' sink).2.console.diagnostics) ∧
      ∀ display diagnostics,
        let events := (run display diagnostics).1.flatMap Exchange.events
        (run display diagnostics).2.memory = memory.recordAll events ∧
          (run display diagnostics).2.console =
            ({ display, diagnostics } : Console).recordAll events := by
  constructor
  · intro events memory recorded
    refine ⟨Memory.recalls_recordAll .new events,
      fun sink => Console.display_recordAll_new sink events,
      fun sink => Console.diagnostics_recordAll_new sink events, fun reason sink => ?_,
      fun reason sink => ?_⟩
    · exact congrArg Sink.written (Console.display_recordAll_broken reason sink events)
    · exact congrArg Sink.written (Console.diagnostics_recordAll_broken sink reason events)
  · intro session memory requests run
    have hcourse (display diagnostics display' diagnostics' : Sink) :
        SameCourse (run display diagnostics) (run display' diagnostics') :=
      sameCourse_askAll requests rfl rfl
    have hrecorders (display diagnostics : Sink) :=
      recorders_askAll { session, memory, console := { display, diagnostics } } requests
    refine ⟨hcourse, fun sink diagnostics diagnostics' => ?_, fun sink display display' => ?_,
      hrecorders⟩
    · rw [(hrecorders sink diagnostics).2, (hrecorders sink diagnostics').2, Console.recordAll_eq,
        Console.recordAll_eq, (hcourse sink diagnostics sink diagnostics').flatMap_events]
    · rw [(hrecorders display sink).2, (hrecorders display' sink).2, Console.recordAll_eq,
        Console.recordAll_eq, (hcourse display sink display' sink).flatMap_events]

theorem recorders_keep_one_history_broken_stream :
    let requests : List Request :=
      [.parse ["@", "$"],
        .execute Engine.vm.backend [.print (.const 7), .print (.binary .div (.const 1) (.const 0))],
        .execute Engine.interpreter.backend [.assign "a" (.const (-1)), .print (.var "a")]]
    let events : List Event :=
      [.report .illegalValue "Illegal token '$'", .display 7,
        .report .divideByZero "vm: Integer divide by zero", .display (-1),
        .dump (Bindings.empty.assign "a" (-1))]
    let run (display diagnostics : Sink) :=
      ({ console := { display, diagnostics } } : Dialogue).askAll requests
    let undisplayed := run (.broken "full") (.working "")
    let unreported := run (.working "") (.broken "full")
    undisplayed.1.flatMap Exchange.events = events ∧ SameCourse undisplayed unreported ∧
      undisplayed.2.memory.displayedBefore = #[0, 1] ∧
      undisplayed.2.console.display.written = "" ∧
      undisplayed.2.console.diagnostics = .working
        ("**** ILLEGAL_VALUE: Illegal token '$'\n" ++
          "**** DIVIDE_BY_ZERO: vm: Integer divide by zero\nSymbol table:\n  a = -1\n") ∧
      unreported.2.console.display = .working "7\n-1\n" ∧
      unreported.2.console.diagnostics.written = "" := by
  intro requests events run undisplayed unreported
  obtain ⟨hhistory, hcourses⟩ := recorders_keep_one_history
  obtain ⟨-, hdisplay, hdiagnostics, hundisplayed, hunreported⟩ := hhistory events
  obtain ⟨hcourse, -, -, hrecorders⟩ := hcourses {} {} requests
  have hevents : undisplayed.1.flatMap Exchange.events = events := by decide +kernel
  have hsame : SameCourse undisplayed unreported := hcourse _ _ _ _
  obtain ⟨hmemory, hconsole⟩ : undisplayed.2.memory = ({} : Memory).recordAll events ∧
      undisplayed.2.console =
        ({ display := .broken "full", diagnostics := .working "" } : Console).recordAll events :=
    hevents ▸ hrecorders (.broken "full") (.working "")
  have hother : unreported.2.console =
      ({ display := .working "", diagnostics := .broken "full" } : Console).recordAll events :=
    (hsame.flatMap_events.symm.trans hevents) ▸ (hrecorders (.working "") (.broken "full")).2
  rw [hmemory, hconsole, hother]
  refine ⟨hevents, hsame, rfl, hundisplayed _ _, (hdiagnostics _).trans ?_, (hdisplay _).trans ?_,
    hunreported _ _⟩
  · decide +kernel
  · decide +kernel

end Dialogue

end Polish
