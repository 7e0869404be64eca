import Polish.CommandLine
import Polish.Proofs.Console
import Polish.Proofs.Outcome

/-!
The stages of the command line program.

Arguments, source, engines and parsing come first, and if one of them fails
nothing is displayed.  After them nothing keeps any of the selected engines from
its run, but every error on the way counts for the exit code.
-/

namespace Polish

/-- The engines that a selection stands for. -/
inductive Selection.Selects : Selection → List Engine → Prop where
  | one (engine : Engine) : Selects (.one engine.name) [engine]
  | all : Selects .all [.interpreter, .vm]

namespace Engine

theorem ofName?_eq_some_iff {name : String} {engine : Engine} :
    ofName? name = some engine ↔ name = engine.name := by
  constructor
  · intro h
    have hname := List.find?_some h
    exact (eq_of_beq hname).symm
  · rintro rfl
    cases engine <;> decide

/-- The values that an engine prints before a program ends or fails. -/
def printed (engine : Engine) (program : Program) : Array Int64 :=
  match (engine.prepare program).run with
  | .ok execution => execution.printed
  | .error halt => halt.state.printed

theorem textOf_display_events (engine : Engine) (program : Program) :
    Event.textOf Event.isDisplay (engine.backend.events program) =
      valueLines (engine.printed program) := by
  have hrun : engine.backend.run program =
      ((engine.prepare program).run).mapError Failure.halted := rfl
  rw [Backend.events, hrun, printed]
  cases (engine.prepare program).run with
  | ok execution => exact Event.textOf_display_displays_append execution.printed rfl
  | error halt => exact Event.textOf_display_displays_append halt.state.printed rfl

end Engine

theorem fromUTF8?_toUTF8 (text : String) : String.fromUTF8? text.toUTF8 = some text :=
  dif_pos text.isValidUTF8

theorem Source.decode_eq_ok_iff {bytes : ByteArray} {text : String} :
    decode bytes = .ok text ↔ String.fromUTF8? bytes = some text := by
  rw [decode]
  cases String.fromUTF8? bytes with
  | none => simp
  | some decoded => simp

namespace CommandLine

variable {arguments : List String} {contents : Source → Except ReadFault ByteArray}
  {options : Options} {text : String} {selected : List Engine} {program : Program}

theorem engines_eq_ok_iff {selection : Selection} :
    engines selection = .ok selected ↔ selection.Selects selected := by
  constructor
  · intro h
    cases selection with
    | all =>
        cases h
        exact .all
    | one name =>
        rw [engines] at h
        split at h
        · rename_i engine hengine
          cases h
          rw [Engine.ofName?_eq_some_iff.mp hengine]
          exact .one engine
        · cases h
  · rintro (engine | _)
    · rw [engines, Engine.ofName?_eq_some_iff.mpr rfl]
    · rfl

/-- Options whose source can be read and is a program, but for the statements whose
errors are given. -/
inductive Yields (options : Options) (contents : Source → Except ReadFault ByteArray) :
    Program → List ParseError → Prop where
  | intro {bytes : ByteArray} {text : String} {program : Program} {parser : Parser}
      (hread : contents options.source = .ok bytes)
      (htext : String.fromUTF8? bytes = some text)
      (hparse : ({ recovery := options.recovery } : Parser).parse (words text) =
        (.ok program, parser)) :
      Yields options contents program parser.diagnostics

/-- Arguments and a source with which engines come to run a program. -/
structure Starts (arguments : List String) (contents : Source → Except ReadFault ByteArray)
    (options : Options) (selected : List Engine) (program : Program)
    (diagnostics : List ParseError) : Prop where
  accepted : Options.ofArguments arguments = .ok options
  selects : options.selection.Selects selected
  yields : Yields options contents program diagnostics

theorem prepare_eq_ok_iff :
    prepare arguments contents = .ok (options, text, selected) ↔
      Options.ofArguments arguments = .ok options ∧
        (∃ bytes, contents options.source = .ok bytes ∧ String.fromUTF8? bytes = some text) ∧
        options.selection.Selects selected := by
  simp only [prepare, bind_eq_ok_iff, mapError_eq_ok_iff, engines_eq_ok_iff,
    Source.decode_eq_ok_iff]
  constructor
  · rintro ⟨options, hoptions, text, htext, selected, hselected, ⟨⟩⟩
    exact ⟨hoptions, htext, hselected⟩
  · rintro ⟨hoptions, htext, hselected⟩
    exact ⟨options, hoptions, text, htext, selected, hselected, rfl⟩

/-- The text of a program in infix, under its heading. -/
def treeSection (program : Program) : String :=
  "The program, with expressions in infix notation:\n\n" ++ program.text ++ "\n"

/-- The listing of a program's code, under its heading. -/
def codeSection (program : Program) : String :=
  "Compiled code:\n" ++ program.compile.text ++ "\n"

theorem sections_eq (options : Options) (program : Program) :
    sections options program =
      (if options.showTree then treeSection program else "") ++
        (if options.showCode then codeSection program else "") :=
  rfl

theorem drive_of_error {error : ParseError} {parser : Parser}
    (h : ({ recovery := options.recovery } : Parser).parse (words text) = (.error error, parser))
    (selected : List Engine) :
    drive options selected text =
      { exitCode := 1
        stdout := ""
        stderr :=
          String.join ((parser.diagnostics ++ [error]).map fun error => error.report.text) } := by
  have hresult : (({ recovery := options.recovery } : Session).parse (words text)).result =
      none := by
    rw [Session.result_parse, h]
    rfl
  have hreports : Action.events
      (({ recovery := options.recovery } : Session).parse (words text)).actions =
        (parser.diagnostics ++ [error]).map ParseError.report := by
    rw [Session.events_parse, h]
    rfl
  rw [drive, hresult, hreports, Console.recordAll_new, Event.textOf_diagnostic_map_report]
  rfl

/-- A program runs on each engine, whatever statements were left out of it and
whatever comes of the engines before. -/
theorem drive_of_ok {parser : Parser}
    (h : ({ recovery := options.recovery } : Parser).parse (words text) = (.ok program, parser))
    (selected : List Engine) :
    drive options selected text =
      { exitCode :=
          if !parser.diagnostics.isEmpty ||
              selected.any fun engine => !(engine.backend.run program).isOk then
            1
          else
            0
        stdout := sections options program ++
          String.join (selected.map fun engine => valueLines (engine.printed program))
        stderr := String.join (parser.diagnostics.map fun error => error.report.text) ++
          String.join (selected.map fun engine =>
            Event.textOf Event.isDiagnostic (engine.backend.events program)) } := by
  have hresult : (({ recovery := options.recovery } : Session).parse (words text)).result =
      some program := by
    rw [Session.result_parse, h]
    rfl
  have hfailed : (({ recovery := options.recovery } : Session).parse (words text)).session.failed =
      !parser.diagnostics.isEmpty := by
    rw [Session.session_parse, h]
    rfl
  have hreports : Action.events
      (({ recovery := options.recovery } : Session).parse (words text)).actions =
        parser.diagnostics.map ParseError.report := by
    rw [Session.events_parse, h]
    rfl
  rw [drive, hresult, hreports, Console.recordAll_new, Event.textOf_display_map_report,
    Event.textOf_diagnostic_map_report]
  simp only [Console.recordAll_working, Session.failed_executeAll, hfailed,
    Session.events_executeAll, List.any_map, List.flatMap_map, Event.textOf_flatMap,
    Engine.textOf_display_events, Sink.written, String.empty_append]
  rfl

theorem run_of_starts {diagnostics : List ParseError}
    (h : Starts arguments contents options selected program diagnostics) :
    run arguments contents =
      { exitCode :=
          if !diagnostics.isEmpty ||
              selected.any fun engine => !(engine.backend.run program).isOk then
            1
          else
            0
        stdout := sections options program ++
          String.join (selected.map fun engine => valueLines (engine.printed program))
        stderr := String.join (diagnostics.map fun error => error.report.text) ++
          String.join (selected.map fun engine =>
            Event.textOf Event.isDiagnostic (engine.backend.events program)) } := by
  obtain ⟨haccepted, hselects, hyields⟩ := h
  cases hyields with
  | intro hread htext hparse =>
      have hprepare := prepare_eq_ok_iff.mpr ⟨haccepted, ⟨_, hread, htext⟩, hselects⟩
      rw [run, hprepare]
      exact drive_of_ok hparse selected

theorem run_of_not_starts
    (h : ¬∃ options selected program diagnostics,
      Starts arguments contents options selected program diagnostics) :
    (run arguments contents).exitCode = 1 ∧ (run arguments contents).stdout = "" := by
  rw [run]
  rcases hprepare : prepare arguments contents with refusal | ⟨options, text, selected⟩
  · exact ⟨rfl, rfl⟩
  · obtain ⟨haccepted, ⟨bytes, hread, htext⟩, hselects⟩ := prepare_eq_ok_iff.mp hprepare
    rcases hparse : ({ recovery := options.recovery } : Parser).parse (words text) with
      ⟨error | program, parser⟩
    · change (drive options selected text).exitCode = 1 ∧ (drive options selected text).stdout = ""
      rw [drive_of_error hparse]
      exact ⟨rfl, rfl⟩
    · exact absurd ⟨options, selected, program, parser.diagnostics, haccepted, hselects,
        .intro hread htext hparse⟩ h

theorem exitCode_eq_zero_or_one :
    (run arguments contents).exitCode = 0 ∨ (run arguments contents).exitCode = 1 := by
  by_cases h : ∃ options selected program diagnostics,
    Starts arguments contents options selected program diagnostics
  · obtain ⟨options, selected, program, diagnostics, hstarts⟩ := h
    rw [run_of_starts hstarts]
    dsimp only
    split
    · exact Or.inr rfl
    · exact Or.inl rfl
  · exact Or.inr (run_of_not_starts h).1

theorem exitCode_eq_zero_iff_of_starts {diagnostics : List ParseError}
    (h : Starts arguments contents options selected program diagnostics) :
    (run arguments contents).exitCode = 0 ↔
      diagnostics = [] ∧
        ∀ engine ∈ selected, ∃ execution, engine.backend.run program = .ok execution := by
  rw [run_of_starts h]
  simp [← isOk_eq_true_iff]

theorem exitCode_eq_zero_iff :
    (run arguments contents).exitCode = 0 ↔
      ∃ options selected program, Starts arguments contents options selected program [] ∧
        ∀ engine ∈ selected, ∃ execution, engine.backend.run program = .ok execution := by
  constructor
  · intro hzero
    by_cases h : ∃ options selected program diagnostics,
      Starts arguments contents options selected program diagnostics
    · obtain ⟨options, selected, program, diagnostics, hstarts⟩ := h
      obtain ⟨rfl, hruns⟩ := (exitCode_eq_zero_iff_of_starts hstarts).mp hzero
      exact ⟨options, selected, program, hstarts, hruns⟩
    · exact absurd ((run_of_not_starts h).1.symm.trans hzero) Nat.one_ne_zero
  · rintro ⟨options, selected, program, hstarts, hruns⟩
    exact (exitCode_eq_zero_iff_of_starts hstarts).mpr ⟨rfl, hruns⟩

/-- The exit code is zero just when every stage succeeds without an error: the
arguments, reading the source as text, the choice of engines, parsing with nothing
left out, and each run.  If one of the stages before the runs fails, nothing is
displayed, and otherwise first the sections that are asked for and then, engine by
engine, the values that were printed. -/
theorem exit_code_and_stdout (arguments : List String)
    (contents : Source → Except ReadFault ByteArray) :
    let outcome := run arguments contents
    (outcome.exitCode = 0 ∨ outcome.exitCode = 1) ∧
    (outcome.exitCode = 0 ↔
      ∃ options selected program, Starts arguments contents options selected program [] ∧
        ∀ engine ∈ selected, ∃ execution, engine.backend.run program = .ok execution) ∧
    (∀ options selected program diagnostics,
      Starts arguments contents options selected program diagnostics →
        outcome.stdout =
          (if options.showTree then treeSection program else "") ++
            (if options.showCode then codeSection program else "") ++
            String.join (selected.map fun engine =>
              valueLines (engine.printed program))) ∧
    ((¬∃ options selected program diagnostics,
      Starts arguments contents options selected program diagnostics) → outcome.stdout = "") := by
  intro outcome
  refine ⟨exitCode_eq_zero_or_one, exitCode_eq_zero_iff, ?_, fun h => (run_of_not_starts h).2⟩
  intro options selected program diagnostics hstarts
  have houtcome : outcome = _ := run_of_starts hstarts
  rw [houtcome, ← sections_eq]

theorem exit_code_and_stdout_halted :
    let contents : Source → Except ReadFault ByteArray :=
      fun _ => .ok "@ 1 @ $ @ / 1 0".toUTF8
    let arguments := ["--recover", "--tree", "-b", "all"]
    let options : Options :=
      { selection := .all, recovery := .skipStatement, showTree := true }
    let program : Program := [.print (.const 1), .print (.binary .div (.const 1) (.const 0))]
    Starts arguments contents options [.interpreter, .vm] program [.illegalToken "$"] ∧
      (run arguments contents).stdout =
        "The program, with expressions in infix notation:\n\nPrint 1\nPrint ( 1 / 0 )\n\n1\n1\n" ∧
      (¬∃ options selected program diagnostics,
        Starts ["--tree", "-b"] contents options selected program diagnostics) ∧
      (run ["--tree", "-b"] contents).stdout = "" := by
  intro contents arguments options program
  have haccepted : Options.ofArguments ["--recover", "--tree", "-b", "all"] = .ok options := by
    decide
  have hparse : ({ recovery := .skipStatement } : Parser).parse (words "@ 1 @ $ @ / 1 0") =
      (.ok program, { recovery := .skipStatement, diagnostics := [.illegalToken "$"] }) := by
    decide +kernel
  have hread : contents options.source = .ok "@ 1 @ $ @ / 1 0".toUTF8 := rfl
  have hyields := Yields.intro hread (fromUTF8?_toUTF8 _) hparse
  have hstarts : Starts arguments contents options [.interpreter, .vm] program
      [.illegalToken "$"] := ⟨haccepted, .all, hyields⟩
  have hnot : ¬∃ options selected program diagnostics,
      Starts ["--tree", "-b"] contents options selected program diagnostics := by
    rintro ⟨_, _, _, _, haccepted, -, -⟩
    cases haccepted
  refine ⟨hstarts, ?_, hnot, (exit_code_and_stdout ["--tree", "-b"] contents).2.2.2 hnot⟩
  rw [(exit_code_and_stdout arguments contents).2.2.1 _ _ _ _ hstarts]
  decide +kernel

end CommandLine

end Polish
