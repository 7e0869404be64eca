import Polish.Proofs.EngineChoice
import Polish.Proofs.Halting

namespace Polish

namespace Program

/-- The index in the code of a program at which the instructions of the statement with
index `k` begin. -/
def codeIndex (program : Program) (k : Nat) : Nat :=
  (compile (program.take k)).length

theorem take_codeIndex_compile (program : Program) (k : Nat) :
    program.compile.take (program.codeIndex k) = compile (program.take k) := by
  conv => lhs; rw [← List.take_append_drop k program, compile_append]
  rw [codeIndex, List.take_append_drop, List.take_left]

/-- The code gives the machine the store that the program gives as a tree. -/
theorem run_compile_cases (program : Program) :
    (∃ store, program.exec {} = .ok store ∧
      ({} : Machine).run program.compile = .ok { toStore := store }) ∨
    ∃ halt stack, program.exec {} = .error halt ∧
      ({} : Machine).run program.compile =
        .error ⟨halt.error, { toStore := halt.state, stack }⟩ := by
  obtain ⟨hok, herror⟩ := program.steps_compile {}
  cases hexec : program.exec {} with
  | ok store => exact Or.inl ⟨store, rfl, hok store hexec⟩
  | error halt =>
      obtain ⟨stack, hsteps⟩ := herror halt hexec
      exact Or.inr ⟨halt, stack, rfl, hsteps⟩

theorem exists_run_compile_ok_iff {program : Program} {store : Store} :
    (∃ final, ({} : Machine).run program.compile = .ok final ∧ final.toStore = store) ↔
      program.exec {} = .ok store := by
  rcases program.run_compile_cases with ⟨reached, hexec, hrun⟩ | ⟨halt, stack, hexec, hrun⟩
  · simp [hexec, hrun]
  · simp [hexec, hrun]

theorem exists_run_compile_error_iff {program : Program} {halt : Halt Store} :
    (∃ stopped, ({} : Machine).run program.compile = .error stopped ∧
      stopped.map Machine.toStore = halt) ↔ program.exec {} = .error halt := by
  rcases program.run_compile_cases with ⟨reached, hexec, hrun⟩ | ⟨first, stack, hexec, hrun⟩
  · simp [hexec, hrun]
  · simp [hexec, hrun, Halt.map]

end Program

namespace Engine

/-- The engine has carried out the first `k` statements of a program, which gave the
store. -/
def Reaches (program : Program) (k : Nat) (store : Store) : Engine → Prop
  | interpreter => Program.exec {} (program.take k) = .ok store
  | vm =>
      ∃ machine, ({} : Machine).run (program.compile.take (program.codeIndex k)) = .ok machine ∧
        machine.toStore = store

/-- The engine halts in the statement with index `k`, the machine at one of the
instructions of that statement. -/
def HaltsIn (program : Program) (k : Nat) (halt : Halt Store) : Engine → Prop
  | interpreter => StopsAt Statement.exec {} program k halt
  | vm =>
      ∃ stopped,
        (∃ j, program.codeIndex k ≤ j ∧ j < program.codeIndex (k + 1) ∧
          ({} : Machine).HaltsAt program.compile j stopped) ∧
        stopped.map Machine.toStore = halt

variable {program : Program} {k : Nat}

theorem reaches_iff (engine : Engine) {store : Store} :
    engine.Reaches program k store ↔ Program.exec {} (program.take k) = .ok store := by
  cases engine with
  | interpreter => exact Iff.rfl
  | vm =>
      rw [Reaches, Program.take_codeIndex_compile]
      exact Program.exists_run_compile_ok_iff

theorem haltsIn_iff (engine : Engine) {halt : Halt Store} :
    engine.HaltsIn program k halt ↔ StopsAt Statement.exec {} program k halt := by
  cases engine with
  | interpreter => exact Iff.rfl
  | vm =>
      have hbetween (stopped : Halt Machine) :
          (∃ j, program.codeIndex k ≤ j ∧ j < program.codeIndex (k + 1) ∧
            ({} : Machine).HaltsAt program.compile j stopped) ↔
          (∃ machine, ({} : Machine).run (program.compile.take (program.codeIndex k)) =
            .ok machine) ∧
          ({} : Machine).run (program.compile.take (program.codeIndex (k + 1))) =
            .error stopped := exists_stopsAt_between_iff
      simp only [Program.take_codeIndex_compile] at hbetween
      rw [stopsAt_iff_take]
      simp only [HaltsIn, hbetween]
      constructor
      · rintro ⟨stopped, ⟨⟨machine, hmachine⟩, hstopped⟩, hhalt⟩
        exact ⟨⟨machine.toStore, Program.exists_run_compile_ok_iff.mp ⟨machine, hmachine, rfl⟩⟩,
          Program.exists_run_compile_error_iff.mp ⟨stopped, hstopped, hhalt⟩⟩
      · rintro ⟨⟨reached, hreached⟩, herror⟩
        obtain ⟨machine, hmachine, -⟩ := Program.exists_run_compile_ok_iff.mpr hreached
        obtain ⟨stopped, hstopped, hhalt⟩ := Program.exists_run_compile_error_iff.mpr herror
        exact ⟨stopped, ⟨⟨machine, hmachine⟩, hstopped⟩, hhalt⟩

theorem exists_run_eq_ok_iff (engine : Engine) :
    (∃ execution, engine.backend.run program = .ok execution) ↔
      ∃ store, program.exec {} = .ok store := by
  rw [run_backend]
  cases program.exec {} with
  | ok store => exact iff_of_true ⟨_, rfl⟩ ⟨store, rfl⟩
  | error halt => exact iff_of_false (by rintro ⟨_, ⟨⟩⟩) (by rintro ⟨_, ⟨⟩⟩)

theorem run_eq_error_iff (engine : Engine) {failure : Failure} :
    engine.backend.run program = .error failure ↔
      ∃ k halt, failure = .halted halt ∧ engine.HaltsIn program k halt := by
  have hexec (halt : Halt Store) :
      program.exec {} = .error halt ↔ ∃ k, engine.HaltsIn program k halt := by
    simp only [haltsIn_iff]
    exact foldlM_eq_error_iff
  rw [run_backend, exists_comm]
  simp only [exists_and_left, ← hexec]
  cases program.exec {} with
  | ok store => simp
  | error halt => simp [eq_comm]

end Engine

end Polish
