import Polish.Proofs.Compilation
import Polish.Proofs.Stages

namespace Polish

namespace Program

/-- The values that a program prints before it ends or fails. -/
def printed (program : Program) : Array Int64 :=
  match program.exec {} with
  | .ok store => store.printed
  | .error halt => halt.state.printed

/-- What is told of a run on the engine of the given name, apart from the printed
values: the final bindings, or a report. -/
def aftermath (program : Program) (name : String) : String :=
  match program.exec {} with
  | .ok store => store.bindings.text
  | .error halt =>
      "**** " ++ halt.error.kind.name ++ ": " ++ name ++ ": " ++ halt.error.message ++ "\n"

theorem aftermath_cases (program : Program) :
    (∃ dump, ∀ name, program.aftermath name = dump) ∨
      ∃ (kind : ErrorKind) (message : String), ∀ name,
        program.aftermath name = "**** " ++ kind.name ++ ": " ++ name ++ ": " ++ message ++ "\n" := by
  simp only [aftermath]
  cases program.exec {} with
  | ok store => exact Or.inl ⟨_, fun _ => rfl⟩
  | error halt => exact Or.inr ⟨_, _, fun _ => rfl⟩

end Program

namespace Engine

/-- An engine gives what running the program as a tree gives. -/
theorem run_prepare (engine : Engine) (program : Program) :
    (engine.prepare program).run =
      match program.exec {} with
      | .ok store => .ok { store with residual := 0 }
      | .error halt => .error halt := by
  cases engine with
  | interpreter =>
      change (program.exec {}).map _ = _
      cases program.exec {} with
      | ok store => rfl
      | error halt => rfl
  | vm =>
      have hrun : ({} : Machine).run program.compile =
          ({ toStore := {} } : Machine).steps program.compile := rfl
      change (((({} : Machine).run program.compile).map _).mapError _) = _
      obtain ⟨hok, herror⟩ := program.steps_compile {}
      rw [hrun]
      cases hexec : program.exec {} with
      | ok store =>
          rw [hok store hexec]
          rfl
      | error halt =>
          obtain ⟨stack, hsteps⟩ := herror halt hexec
          rw [hsteps]
          rfl

theorem run_backend (engine : Engine) (program : Program) :
    engine.backend.run program =
      match program.exec {} with
      | .ok store => .ok { store with residual := 0 }
      | .error halt => .error (.halted halt) := by
  change ((engine.prepare program).run).mapError _ = _
  rw [run_prepare]
  cases program.exec {} with
  | ok store => rfl
  | error halt => rfl

theorem printed_eq (engine : Engine) (program : Program) :
    engine.printed program = program.printed := by
  rw [printed, run_prepare, Program.printed]
  cases program.exec {} with
  | ok store => rfl
  | error halt => rfl

theorem isOk_run_backend (engine : Engine) (program : Program) :
    (engine.backend.run program).isOk = (program.exec {}).isOk := by
  rw [run_backend]
  cases program.exec {} with
  | ok store => rfl
  | error halt => rfl

theorem textOf_diagnostic_events (engine : Engine) (program : Program) :
    Event.textOf Event.isDiagnostic (engine.backend.events program) =
      program.aftermath engine.name := by
  rw [Backend.events, run_backend, Program.aftermath]
  cases program.exec {} with
  | ok store =>
      dsimp only
      rw [Event.textOf_append, Event.textOf_diagnostic_displays]
      simp [Event.textOf, Event.isDiagnostic, Event.isDisplay, Event.text]
  | error halt =>
      dsimp only
      rw [Event.textOf_append, Event.textOf_diagnostic_displays]
      simp [Event.textOf, Event.isDiagnostic, Event.isDisplay, Event.text, backend, Failure.kind,
        Failure.message, String.append_assoc]

end Engine

namespace Options

theorem read_append_of_ok {start options : Options} {first : List String}
    (h : start.read first = .ok options) (second : List String) :
    start.read (first ++ second) = options.read second := by
  fun_induction read start first with
  | case1 start =>
      cases h
      rfl
  | case2 start word hword => cases h
  | case3 start word hword name words ih =>
      rw [List.cons_append, List.cons_append, read.eq_def]
      simpa only [hword] using ih h
  | case4 start word words hword ih | case5 start word words hword ih
  | case6 start word words hword ih =>
      rw [List.cons_append, read.eq_def]
      simpa only [hword] using ih h
  | case7 start word words hword => cases h
  | case8 start word words hword path hpath => cases h
  | case9 start word words hword hpath ih =>
      rw [List.cons_append, read.eq_def]
      simpa only [hword, hpath] using ih h

/-- A last backend flag overrides all others and changes nothing else. -/
theorem ofArguments_append_backend {arguments : List String} {options : Options}
    (h : ofArguments arguments = .ok options) (name : String) :
    ofArguments (arguments ++ ["-b", name]) = .ok { options with selection := .ofName name } := by
  rw [ofArguments, read_append_of_ok h]
  rfl

end Options

namespace CommandLine

variable {arguments : List String} {contents : Source → Except ReadFault ByteArray}
  {options : Options} {program : Program} {diagnostics : List ParseError}

theorem Yields.with_selection (h : Yields options contents program diagnostics)
    (selection : Selection) : Yields { options with selection } contents program diagnostics := by
  cases h with
  | intro hread htext hparse => exact .intro hread htext hparse

theorem run_append_of_yields (haccepted : Options.ofArguments arguments = .ok options)
    (hyields : Yields options contents program diagnostics) {name : String}
    {selected : List Engine} (hselects : (Selection.ofName name).Selects selected) :
    run (arguments ++ ["-b", name]) contents =
      { exitCode :=
          if !diagnostics.isEmpty || selected.any fun _ => !(program.exec {}).isOk then 1 else 0
        stdout := sections options program ++
          String.join (selected.map fun _ => valueLines program.printed)
        stderr := String.join (diagnostics.map fun error => error.report.text) ++
          String.join (selected.map fun engine => program.aftermath engine.name) } := by
  have hstarts : Starts (arguments ++ ["-b", name]) contents
      { options with selection := .ofName name } selected program diagnostics :=
    ⟨Options.ofArguments_append_backend haccepted name, hselects, hyields.with_selection _⟩
  rw [run_of_starts hstarts]
  simp only [Engine.isOk_run_backend, Engine.printed_eq, Engine.textOf_diagnostic_events]
  rfl

theorem run_append_of_yields_one (haccepted : Options.ofArguments arguments = .ok options)
    (hyields : Yields options contents program diagnostics) {name : String} {engine : Engine}
    (hselects : (Selection.ofName name).Selects [engine]) :
    run (arguments ++ ["-b", name]) contents =
      { exitCode := if !diagnostics.isEmpty || !(program.exec {}).isOk then 1 else 0
        stdout := sections options program ++ valueLines program.printed
        stderr := String.join (diagnostics.map fun error => error.report.text) ++
          program.aftermath engine.name } := by
  simp [run_append_of_yields haccepted hyields hselects]

theorem run_append_of_yields_all (haccepted : Options.ofArguments arguments = .ok options)
    (hyields : Yields options contents program diagnostics) :
    run (arguments ++ ["-b", "all"]) contents =
      { exitCode := if !diagnostics.isEmpty || !(program.exec {}).isOk then 1 else 0
        stdout := sections options program ++ valueLines program.printed ++
          valueLines program.printed
        stderr := String.join (diagnostics.map fun error => error.report.text) ++
          program.aftermath "interpreter" ++ program.aftermath "vm" } := by
  have hselects : (Selection.ofName "all").Selects [.interpreter, .vm] := .all
  simp [run_append_of_yields haccepted hyields hselects, Engine.name, String.append_assoc]

theorem run_append (haccepted : Options.ofArguments arguments = .ok options) {name : String}
    {selected : List Engine} (hselects : (Selection.ofName name).Selects selected) :
    run (arguments ++ ["-b", name]) contents =
      match contents options.source >>= Source.decode with
      | .ok text => drive { options with selection := .ofName name } selected text
      | .error fault =>
          { exitCode := 1, stdout := "", stderr := (Refusal.reading options.source fault).text } := by
  have hsource : ({ options with selection := .ofName name } : Options).source =
      options.source := rfl
  rw [run, prepare, Options.ofArguments_append_backend haccepted name]
  simp only [mapError_ok, ok_bind, hsource, engines_eq_ok_iff.mpr hselects]
  cases contents options.source >>= Source.decode with
  | ok text => rfl
  | error fault => rfl

theorem run_append_of_not_yields (haccepted : Options.ofArguments arguments = .ok options)
    (hnot : ¬∃ program diagnostics, Yields options contents program diagnostics)
    {first second : String} {selected selected' : List Engine}
    (hfirst : (Selection.ofName first).Selects selected)
    (hsecond : (Selection.ofName second).Selects selected') :
    run (arguments ++ ["-b", first]) contents = run (arguments ++ ["-b", second]) contents := by
  rw [run_append haccepted hfirst, run_append haccepted hsecond]
  cases hread : contents options.source >>= Source.decode with
  | error fault => rfl
  | ok text =>
      rcases hparse : ({ recovery := options.recovery } : Parser).parse (words text) with
        ⟨error | program, parser⟩
      · exact (drive_of_error hparse selected).trans (drive_of_error hparse selected').symm
      · obtain ⟨bytes, hbytes, htext⟩ := bind_eq_ok_iff.mp hread
        have hyields := Yields.intro hbytes (Source.decode_eq_ok_iff.mp htext) hparse
        exact absurd ⟨program, parser.diagnostics, hyields⟩ hnot

/-- Appending a choice of engines to accepted arguments changes no exit code.  With
one engine the same is displayed, and told but for the engine's name in the report
of a failed run.  With both engines, what is displayed and told of the run comes
twice.  Without a program to run, the choice makes no difference at all. -/
theorem engines_interchangeable (arguments : List String)
    (contents : Source → Except ReadFault ByteArray) (options : Options)
    (haccepted : Options.ofArguments arguments = .ok options) :
    let outcome (name : String) := run (arguments ++ ["-b", name]) contents
    (outcome "interpreter").exitCode = (outcome "vm").exitCode ∧
    (outcome "all").exitCode = (outcome "vm").exitCode ∧
    (outcome "interpreter").stdout = (outcome "vm").stdout ∧
    (∀ program diagnostics, Yields options contents program diagnostics →
      let shown := (if options.showTree then treeSection program else "") ++
        (if options.showCode then codeSection program else "")
      let printed := valueLines program.printed
      let reports := String.join (diagnostics.map fun error => error.report.text)
      (outcome "interpreter").stdout = shown ++ printed ∧
      (outcome "all").stdout = shown ++ printed ++ printed ∧
      (outcome "interpreter").stderr = reports ++ program.aftermath "interpreter" ∧
      (outcome "vm").stderr = reports ++ program.aftermath "vm" ∧
      (outcome "all").stderr =
        reports ++ program.aftermath "interpreter" ++ program.aftermath "vm" ∧
      ((∃ dump, ∀ name, program.aftermath name = dump) ∨
        ∃ (kind : ErrorKind) (message : String), ∀ name,
          program.aftermath name =
            "**** " ++ kind.name ++ ": " ++ name ++ ": " ++ message ++ "\n")) ∧
    ((¬∃ program diagnostics, Yields options contents program diagnostics) →
      outcome "interpreter" = outcome "vm" ∧ outcome "all" = outcome "vm") := by
  intro outcome
  have hinterpreter : (Selection.ofName "interpreter").Selects [.interpreter] := .one .interpreter
  have hvm : (Selection.ofName "vm").Selects [.vm] := .one .vm
  have hall : (Selection.ofName "all").Selects [.interpreter, .vm] := .all
  have hone {program : Program} {diagnostics : List ParseError}
      (hyields : Yields options contents program diagnostics) {name : String} {engine : Engine}
      (hselects : (Selection.ofName name).Selects [engine]) :
      outcome name = _ := run_append_of_yields_one haccepted hyields hselects
  have hboth {program : Program} {diagnostics : List ParseError}
      (hyields : Yields options contents program diagnostics) :
      outcome "all" = _ := run_append_of_yields_all haccepted hyields
  by_cases h : ∃ program diagnostics, Yields options contents program diagnostics
  · have hsame : (outcome "interpreter").exitCode = (outcome "vm").exitCode ∧
        (outcome "all").exitCode = (outcome "vm").exitCode ∧
        (outcome "interpreter").stdout = (outcome "vm").stdout := by
      obtain ⟨program, diagnostics, hyields⟩ := h
      rw [hone hyields hinterpreter, hone hyields hvm, hboth hyields]
      exact ⟨rfl, rfl, rfl⟩
    obtain ⟨hcode, hcodes, hstdout⟩ := hsame
    refine ⟨hcode, hcodes, hstdout, ?_, fun hnot => absurd h hnot⟩
    intro program diagnostics hyields shown printed reports
    rw [hone hyields hinterpreter, hone hyields hvm, hboth hyields]
    exact ⟨rfl, rfl, rfl, rfl, rfl, program.aftermath_cases⟩
  · have hfirst : outcome "interpreter" = outcome "vm" :=
      run_append_of_not_yields haccepted h hinterpreter hvm
    have hall : outcome "all" = outcome "vm" := run_append_of_not_yields haccepted h hall hvm
    refine ⟨congrArg _ hfirst, congrArg _ hall, congrArg _ hfirst, ?_, fun _ => ⟨hfirst, hall⟩⟩
    intro program diagnostics hyields
    exact absurd ⟨program, diagnostics, hyields⟩ h

theorem engines_interchangeable_halted :
    let contents : Source → Except ReadFault ByteArray :=
      fun _ => .ok "@ 1 @ $ @ # -4".toUTF8
    let nothing : Source → Except ReadFault ByteArray := fun _ => .error .notFound
    let arguments := ["--recover", "-b", "jit"]
    let options : Options := { selection := .one "jit", recovery := .skipStatement }
    let program : Program := [.print (.const 1), .print (.unary .sqrt (.const (-4)))]
    let outcome (name : String) := run (arguments ++ ["-b", name]) contents
    Options.ofArguments arguments = .ok options ∧
      Yields options contents program [.illegalToken "$"] ∧
      (outcome "all").exitCode = (outcome "vm").exitCode ∧
      (outcome "all").stdout = "1\n1\n" ∧
      (outcome "vm").stderr = "**** ILLEGAL_VALUE: Illegal token '$'\n" ++
        "**** ILLEGAL_VALUE: vm: Square root of negative value -4\n" ∧
      (¬∃ program diagnostics, Yields options nothing program diagnostics) ∧
      run (arguments ++ ["-b", "all"]) nothing = run (arguments ++ ["-b", "vm"]) nothing := by
  intro contents nothing arguments options program outcome
  have haccepted : Options.ofArguments arguments = .ok options := by decide
  have hparse : ({ recovery := .skipStatement } : Parser).parse (words "@ 1 @ $ @ # -4") =
      (.ok program, { recovery := .skipStatement, diagnostics := [.illegalToken "$"] }) := by
    decide +kernel
  have hread : contents options.source = .ok "@ 1 @ $ @ # -4".toUTF8 := rfl
  have hyields := Yields.intro hread (fromUTF8?_toUTF8 _) hparse
  have hnot : ¬∃ program diagnostics, Yields options nothing program diagnostics := by
    rintro ⟨_, _, ⟨⟨⟩⟩⟩
  obtain ⟨-, hcodes, -, hparts, -⟩ :=
    engines_interchangeable arguments contents options haccepted
  obtain ⟨-, hstdout, -, hstderr, -⟩ := hparts program _ hyields
  obtain ⟨-, -, -, -, hsame⟩ := engines_interchangeable arguments nothing options haccepted
  refine ⟨haccepted, hyields, hcodes, hstdout.trans ?_, hstderr.trans ?_, hnot, (hsame hnot).2⟩
  · decide +kernel
  · decide +kernel

end CommandLine

end Polish
