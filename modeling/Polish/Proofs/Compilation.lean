import Polish.Execution
import Polish.Proofs.Evaluation

namespace Polish

namespace Machine

theorem steps_compile_of_eval_eq_ok (machine : Machine) {e : Expr} {value : Int64}
    (h : e.eval machine.bindings = .ok value) :
    machine.steps e.compile = .ok { machine with stack := value :: machine.stack } := by
  induction e generalizing machine value with
  | const v =>
      cases h
      rfl
  | var name =>
      have hload : machine.bindings.load name = .ok value := h
      rw [Expr.compile, steps_singleton, step_load, hload]
  | binary op left right ihLeft ihRight =>
      obtain ⟨a, hleft, b, hright, happly⟩ := Expr.eval_binary_eq_ok_iff.mp h
      rw [Expr.compile, List.append_assoc, steps_append_of_ok (ihLeft machine hleft)]
      rw [steps_append_of_ok (ihRight { machine with stack := a :: machine.stack } hright)]
      rw [steps_singleton, step_binary, happly]
  | unary op operand ih =>
      obtain ⟨a, hoperand, happly⟩ := Expr.eval_unary_eq_ok_iff.mp h
      rw [Expr.compile, steps_append_of_ok (ih machine hoperand)]
      rw [steps_singleton, step_unary, happly]

theorem steps_compile_of_eval_eq_error (machine : Machine) {e : Expr} {error : RuntimeError}
    (h : e.eval machine.bindings = .error error) :
    ∃ stack, machine.steps e.compile = .error ⟨error, { machine with stack }⟩ := by
  induction e generalizing machine error with
  | const v => cases h
  | var name =>
      have hload : machine.bindings.load name = .error error := h
      refine ⟨machine.stack, ?_⟩
      rw [Expr.compile, steps_singleton, step_load, hload]
  | binary op left right ihLeft ihRight =>
      rw [Expr.compile, List.append_assoc]
      rcases Expr.eval_binary_eq_error_iff.mp h with
        hleft | ⟨a, hleft, hright | ⟨b, hright, happly⟩⟩
      · obtain ⟨stack, hsteps⟩ := ihLeft machine hleft
        exact ⟨stack, steps_append_of_error hsteps _⟩
      · obtain ⟨stack, hsteps⟩ := ihRight { machine with stack := a :: machine.stack } hright
        refine ⟨stack, ?_⟩
        rw [steps_append_of_ok (steps_compile_of_eval_eq_ok machine hleft)]
        exact steps_append_of_error hsteps _
      · refine ⟨machine.stack, ?_⟩
        rw [steps_append_of_ok (steps_compile_of_eval_eq_ok machine hleft)]
        rw [steps_append_of_ok (steps_compile_of_eval_eq_ok
          { machine with stack := a :: machine.stack } hright)]
        rw [steps_singleton, step_binary, happly]
  | unary op operand ih =>
      rw [Expr.compile]
      rcases Expr.eval_unary_eq_error_iff.mp h with hoperand | ⟨a, hoperand, happly⟩
      · obtain ⟨stack, hsteps⟩ := ih machine hoperand
        exact ⟨stack, steps_append_of_error hsteps _⟩
      · refine ⟨machine.stack, ?_⟩
        rw [steps_append_of_ok (steps_compile_of_eval_eq_ok machine hoperand)]
        rw [steps_singleton, step_unary, happly]

theorem steps_compile_of_exec_eq_ok {store next : Store} {statement : Statement}
    (h : statement.exec store = .ok next) :
    ({ toStore := store } : Machine).steps statement.compile = .ok { toStore := next } := by
  obtain ⟨value, heval, rfl⟩ := Statement.exec_eq_ok_iff.mp h
  have hvalue := steps_compile_of_eval_eq_ok { toStore := store } heval
  cases statement with
  | assign target e => exact steps_append_of_ok hvalue [.store target]
  | print e => exact steps_append_of_ok hvalue [.print]

theorem steps_compile_of_exec_eq_error {store : Store} {statement : Statement}
    {halt : Halt Store} (h : statement.exec store = .error halt) :
    ∃ stack, ({ toStore := store } : Machine).steps statement.compile =
      .error ⟨halt.error, { toStore := halt.state, stack }⟩ := by
  obtain ⟨heval, hstate⟩ := Statement.exec_eq_error_iff.mp h
  obtain ⟨stack, hsteps⟩ := steps_compile_of_eval_eq_error { toStore := store } heval
  rw [hstate]
  refine ⟨stack, ?_⟩
  cases statement with
  | assign target e => exact steps_append_of_error hsteps _
  | print e => exact steps_append_of_error hsteps _

end Machine

namespace Program

/-- The machine at work on the code of a program and the evaluator at work on
its statements stop in the same way at the same store.  A machine that gets to
the end has nothing on its stack. -/
theorem steps_compile (store : Store) (program : Program) :
    (∀ next, program.exec store = .ok next →
      ({ toStore := store } : Machine).steps program.compile = .ok { toStore := next }) ∧
    ∀ halt, program.exec store = .error halt →
      ∃ stack, ({ toStore := store } : Machine).steps program.compile =
        .error ⟨halt.error, { toStore := halt.state, stack }⟩ := by
  induction program generalizing store with
  | nil =>
      constructor
      · rintro next ⟨⟩
        rfl
      · rintro halt ⟨⟩
  | cons statement program ih =>
      rw [compile_cons]
      cases hstatement : statement.exec store with
      | ok middle =>
          rw [exec_cons_of_ok hstatement,
            Machine.steps_append_of_ok (Machine.steps_compile_of_exec_eq_ok hstatement)]
          exact ih middle
      | error halt =>
          rw [exec_cons_of_error hstatement]
          constructor
          · rintro next ⟨⟩
          · rintro _ ⟨⟩
            obtain ⟨stack, hsteps⟩ := Machine.steps_compile_of_exec_eq_error hstatement
            exact ⟨stack, Machine.steps_append_of_error hsteps _⟩

/-- Whatever state a machine is in, running the code of a program on it gives
what running the program as a tree gives: a result with nothing left on the
stack, or the same error with the same values printed and bound.  The code never
runs out of operands. -/
theorem run_compile_agrees (machine : Machine) (program : Program) :
    match machine.run program.compile, program.exec {} with
    | .ok final, .ok store =>
        final.execution = { store with residual := 0 } ∧ final.stack = []
    | .error halt, .error expected =>
        halt.map Machine.toStore = expected ∧
          ∀ mnemonic needed found,
            halt.error ≠ .prematureEnd mnemonic needed found
    | _, _ => False := by
  have hrun : machine.run program.compile = ({ toStore := {} } : Machine).steps program.compile :=
    rfl
  obtain ⟨hok, herror⟩ := steps_compile {} program
  rw [hrun]
  cases hexec : program.exec {} with
  | ok store =>
      rw [hok store hexec]
      exact ⟨rfl, rfl⟩
  | error expected =>
      obtain ⟨stack, hsteps⟩ := herror expected hexec
      rw [hsteps]
      refine ⟨rfl, ?_⟩
      intro mnemonic needed found hpremature
      obtain ⟨e, bindings, heval⟩ := error_of_exec hexec
      rw [show expected.error = _ from hpremature] at heval
      rcases Expr.error_of_eval heval with ⟨name, hname⟩ | hzero | ⟨operand, hoperand⟩
      · cases hname
      · cases hzero
      · cases hoperand

end Program

end Polish
