import Polish.Evaluation
import Polish.Proofs.Outcome

namespace Polish

theorem Bindings.error_of_load {bindings : Bindings} {name : String} {error : RuntimeError}
    (h : bindings.load name = .error error) : error = .uninitialized name := by
  simp only [Bindings.load] at h
  split at h
  · cases h
  · cases h
    rfl

theorem BinaryOp.apply_eq_error_iff {op : BinaryOp} {left right : Int64}
    {error : RuntimeError} :
    op.apply left right = .error error ↔ op = .div ∧ right = 0 ∧ error = .divideByZero := by
  cases op with
  | div =>
      by_cases hright : right = 0
      · simp [BinaryOp.apply, hright, eq_comm]
      · simp [BinaryOp.apply, hright]
  | add | sub | mul => simp [BinaryOp.apply]

theorem UnaryOp.apply_eq_error_iff {op : UnaryOp} {operand : Int64} {error : RuntimeError} :
    op.apply operand = .error error ↔
      op = .sqrt ∧ operand < 0 ∧ error = .negativeSqrt operand := by
  cases op with
  | negate => simp [UnaryOp.apply]
  | sqrt =>
      by_cases hoperand : operand < 0
      · simp [UnaryOp.apply, hoperand, eq_comm]
      · simp [UnaryOp.apply, hoperand]

namespace Expr

theorem eval_binary_eq_ok_iff {bindings : Bindings} {op : BinaryOp} {left right : Expr}
    {value : Int64} :
    (binary op left right).eval bindings = .ok value ↔
      ∃ a, left.eval bindings = .ok a ∧
        ∃ b, right.eval bindings = .ok b ∧ op.apply a b = .ok value := by
  simp only [eval, bind_eq_ok_iff]

/-- The first of the three things in a binary operation that can fail is the one
whose error counts. -/
theorem eval_binary_eq_error_iff {bindings : Bindings} {op : BinaryOp} {left right : Expr}
    {error : RuntimeError} :
    (binary op left right).eval bindings = .error error ↔
      left.eval bindings = .error error ∨
        ∃ a, left.eval bindings = .ok a ∧
          (right.eval bindings = .error error ∨
            ∃ b, right.eval bindings = .ok b ∧ op.apply a b = .error error) := by
  simp only [eval, bind_eq_error_iff]

theorem eval_unary_eq_ok_iff {bindings : Bindings} {op : UnaryOp} {operand : Expr}
    {value : Int64} :
    (unary op operand).eval bindings = .ok value ↔
      ∃ a, operand.eval bindings = .ok a ∧ op.apply a = .ok value := by
  simp only [eval, bind_eq_ok_iff]

theorem eval_unary_eq_error_iff {bindings : Bindings} {op : UnaryOp} {operand : Expr}
    {error : RuntimeError} :
    (unary op operand).eval bindings = .error error ↔
      operand.eval bindings = .error error ∨
        ∃ a, operand.eval bindings = .ok a ∧ op.apply a = .error error := by
  simp only [eval, bind_eq_error_iff]

/-- Only a name without a value, a zero divisor and a negative number under a
root stop an expression. -/
theorem error_of_eval {bindings : Bindings} {e : Expr} {error : RuntimeError}
    (h : e.eval bindings = .error error) :
    (∃ name, error = .uninitialized name) ∨ error = .divideByZero ∨
      ∃ operand, error = .negativeSqrt operand := by
  induction e generalizing error with
  | const value => cases h
  | var name => exact Or.inl ⟨name, Bindings.error_of_load h⟩
  | binary op left right ihLeft ihRight =>
      rcases eval_binary_eq_error_iff.mp h with hleft | ⟨a, -, hright | ⟨b, -, happly⟩⟩
      · exact ihLeft hleft
      · exact ihRight hright
      · exact Or.inr (Or.inl (BinaryOp.apply_eq_error_iff.mp happly).2.2)
  | unary op operand ih =>
      rcases eval_unary_eq_error_iff.mp h with hoperand | ⟨a, -, happly⟩
      · exact ih hoperand
      · exact Or.inr (Or.inr ⟨a, (UnaryOp.apply_eq_error_iff.mp happly).2.2⟩)

end Expr

namespace Statement

theorem exec_eq_ok_iff {store next : Store} {statement : Statement} :
    statement.exec store = .ok next ↔
      ∃ value, statement.value.eval store.bindings = .ok value ∧
        statement.commit value store = next := by
  rw [exec]
  cases statement.value.eval store.bindings with
  | ok value => simp
  | error error => simp

theorem exec_eq_error_iff {store : Store} {statement : Statement} {halt : Halt Store} :
    statement.exec store = .error halt ↔
      statement.value.eval store.bindings = .error halt.error ∧ halt.state = store := by
  obtain ⟨first, state⟩ := halt
  rw [exec]
  cases statement.value.eval store.bindings with
  | ok value => simp
  | error error => simp [eq_comm]

end Statement

namespace Program

theorem exec_cons_of_ok {store next : Store} {statement : Statement}
    (h : statement.exec store = .ok next) (program : Program) :
    exec store (statement :: program) = exec next program := by
  simp only [exec, List.foldlM_cons, h]
  rfl

theorem exec_cons_of_error {store : Store} {statement : Statement} {halt : Halt Store}
    (h : statement.exec store = .error halt) (program : Program) :
    exec store (statement :: program) = .error halt := by
  simp only [exec, List.foldlM_cons, h]
  rfl

theorem error_of_exec {store : Store} {program : Program} {halt : Halt Store}
    (h : program.exec store = .error halt) :
    ∃ (e : Expr) (bindings : Bindings), e.eval bindings = .error halt.error := by
  obtain ⟨k, reached, statement, -, -, hstop⟩ := foldlM_eq_error_iff.mp h
  exact ⟨statement.value, reached.bindings, (Statement.exec_eq_error_iff.mp hstop).1⟩

end Program

end Polish
