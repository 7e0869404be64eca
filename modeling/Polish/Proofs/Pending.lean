import Polish.Proofs.Compilation

/-!
What a failed run leaves on the stack of the machine.

A run of compiled code fails at one node of one expression: the first, from left to
right and operands before operators, that has no value although its operands have.
The machine is then inside the right operands of some binary operations, and their
left values are on its stack, the innermost on top.  Nothing else is.
-/

namespace Polish

/-- The way from a node of an expression down to one of its operands. -/
inductive Branch where
  | left
  | right
  | operand
  deriving DecidableEq, Repr

/-- Where a node of an expression is: the branches that lead from the root to it. -/
abbrev Position := List Branch

/-- Something at a position of an operand, seen from the operation. -/
def Branch.extend {α : Type} (branch : Branch) (found : Position × α) : Position × α :=
  (branch :: found.1, found.2)

namespace Expr

/-- The nodes of an expression from left to right in post-order, each with its
position and the expression of which it is the root. -/
def nodes : Expr → List (Position × Expr)
  | const value => [([], const value)]
  | var name => [([], var name)]
  | binary op left right =>
      left.nodes.map Branch.left.extend ++ right.nodes.map Branch.right.extend ++
        [([], binary op left right)]
  | unary op operand => operand.nodes.map Branch.operand.extend ++ [([], unary op operand)]

/-- The expressions that have to be evaluated before the root. -/
def operands : Expr → List Expr
  | const _ | var _ => []
  | binary _ left right => [left, right]
  | unary _ operand => [operand]

/-- The error of the root itself: its operands have values, but the look-up or the
operation fails. -/
def ownError? (bindings : Bindings) (e : Expr) : Option RuntimeError :=
  match e.eval bindings with
  | .ok _ => none
  | .error error =>
      if e.operands.all fun operand => (operand.eval bindings).isOk then some error else none

/-- The position of the first node in post-order that fails itself, and its error. -/
def firstError? (bindings : Bindings) (e : Expr) : Option (Position × RuntimeError) :=
  e.nodes.findSome? fun (position, node) => (node.ownError? bindings).map (position, ·)

/-- The left operands of the binary operations that have the position inside their
right operand, the outermost first. -/
def pending : Expr → Position → List Expr
  | binary _ left right, .right :: position => left :: right.pending position
  | binary _ left _, .left :: position => left.pending position
  | unary _ operand, .operand :: position => operand.pending position
  | _, _ => []

theorem pending_root (e : Expr) : e.pending [] = [] := by
  cases e <;> rfl

variable {bindings : Bindings}

theorem findSome?_extend (branch : Branch) (nodes : List (Position × Expr)) :
    ((nodes.map branch.extend).findSome? fun (position, node) =>
        (node.ownError? bindings).map (position, ·)) =
      (nodes.findSome? fun (position, node) =>
        (node.ownError? bindings).map (position, ·)).map branch.extend := by
  rw [List.findSome?_map, List.map_findSome?]
  congr 1
  funext ⟨position, node⟩
  simp [Branch.extend, Function.comp_def]

theorem firstError?_binary (op : BinaryOp) (left right : Expr) :
    (binary op left right).firstError? bindings =
      (((left.firstError? bindings).map Branch.left.extend).or
        ((right.firstError? bindings).map Branch.right.extend)).or
        (((binary op left right).ownError? bindings).map ([], ·)) := by
  simp only [firstError?, nodes, List.findSome?_append, findSome?_extend, List.findSome?_singleton]

theorem firstError?_unary (op : UnaryOp) (operand : Expr) :
    (unary op operand).firstError? bindings =
      ((operand.firstError? bindings).map Branch.operand.extend).or
        (((unary op operand).ownError? bindings).map ([], ·)) := by
  simp only [firstError?, nodes, List.findSome?_append, findSome?_extend, List.findSome?_singleton]

theorem ownError?_eq_some_iff {e : Expr} {error : RuntimeError} :
    e.ownError? bindings = some error ↔
      (∀ operand ∈ e.operands, ∃ value, operand.eval bindings = .ok value) ∧
        e.eval bindings = .error error := by
  simp only [ownError?]
  cases e.eval bindings with
  | ok value => simp
  | error found => simp [isOk_eq_true_iff]

theorem ownError?_eq_none_iff {e : Expr}
    (hoperands : ∀ operand ∈ e.operands, ∃ value, operand.eval bindings = .ok value) :
    e.ownError? bindings = none ↔ ∃ value, e.eval bindings = .ok value := by
  rw [Option.eq_none_iff_forall_ne_some]
  cases heval : e.eval bindings with
  | ok value => simp [ownError?_eq_some_iff, heval]
  | error error => simpa [ownError?_eq_some_iff, heval] using hoperands

theorem firstError?_eq_none_iff {e : Expr} :
    e.firstError? bindings = none ↔ ∃ value, e.eval bindings = .ok value := by
  induction e with
  | const value => exact iff_of_true rfl ⟨value, rfl⟩
  | var name =>
      rw [← ownError?_eq_none_iff (List.forall_mem_nil _)]
      simp [firstError?, nodes]
  | binary op left right ihLeft ihRight =>
      rw [firstError?_binary, Option.or_eq_none_iff, Option.or_eq_none_iff, Option.map_eq_none_iff,
        Option.map_eq_none_iff, Option.map_eq_none_iff, ihLeft, ihRight]
      constructor
      · rintro ⟨⟨hleft, hright⟩, hown⟩
        refine (ownError?_eq_none_iff ?_).mp hown
        simp [operands, hleft, hright]
      · intro h
        obtain ⟨value, hvalue⟩ := id h
        obtain ⟨a, hleft, b, hright, -⟩ := eval_binary_eq_ok_iff.mp hvalue
        refine ⟨⟨⟨a, hleft⟩, ⟨b, hright⟩⟩, (ownError?_eq_none_iff ?_).mpr h⟩
        simp [operands, hleft, hright]
  | unary op operand ih =>
      rw [firstError?_unary, Option.or_eq_none_iff, Option.map_eq_none_iff,
        Option.map_eq_none_iff, ih]
      constructor
      · rintro ⟨hoperand, hown⟩
        refine (ownError?_eq_none_iff ?_).mp hown
        simp [operands, hoperand]
      · intro h
        obtain ⟨value, hvalue⟩ := id h
        obtain ⟨a, hoperand, -⟩ := eval_unary_eq_ok_iff.mp hvalue
        refine ⟨⟨a, hoperand⟩, (ownError?_eq_none_iff ?_).mpr h⟩
        simp [operands, hoperand]

/-- Evaluation gets to the node at a position, all on the way to it having a value,
and fails there. -/
inductive FailsAt (bindings : Bindings) : Expr → Position → RuntimeError → Prop
  | here {e : Expr} {error : RuntimeError} (hown : e.ownError? bindings = some error) :
      FailsAt bindings e [] error
  | left {op : BinaryOp} {left right : Expr} {position : Position} {error : RuntimeError}
      (h : FailsAt bindings left position error) :
      FailsAt bindings (binary op left right) (.left :: position) error
  | right {op : BinaryOp} {left right : Expr} {position : Position} {error : RuntimeError}
      {a : Int64} (hleft : left.eval bindings = .ok a)
      (h : FailsAt bindings right position error) :
      FailsAt bindings (binary op left right) (.right :: position) error
  | operand {op : UnaryOp} {operand : Expr} {position : Position} {error : RuntimeError}
      (h : FailsAt bindings operand position error) :
      FailsAt bindings (unary op operand) (.operand :: position) error

theorem failsAt_of_firstError? {e : Expr} {position : Position} {error : RuntimeError}
    (h : e.firstError? bindings = some (position, error)) : e.FailsAt bindings position error := by
  induction e generalizing position with
  | const value => cases h
  | var name =>
      simp only [firstError?, nodes, List.findSome?_singleton, Option.map_eq_some_iff] at h
      obtain ⟨_, hown, ⟨⟩⟩ := h
      exact .here hown
  | binary op left right ihLeft ihRight =>
      simp only [firstError?_binary, Option.or_eq_some_iff, Option.or_eq_none_iff,
        Option.map_eq_some_iff, Option.map_eq_none_iff] at h
      rcases h with (⟨found, hleft, ⟨⟩⟩ | ⟨hleft, found, hright, ⟨⟩⟩) | ⟨-, found, hown, ⟨⟩⟩
      · exact .left (ihLeft hleft)
      · obtain ⟨a, hvalue⟩ := firstError?_eq_none_iff.mp hleft
        exact .right hvalue (ihRight hright)
      · exact .here hown
  | unary op operand ih =>
      simp only [firstError?_unary, Option.or_eq_some_iff, Option.map_eq_some_iff] at h
      rcases h with ⟨found, hoperand, ⟨⟩⟩ | ⟨-, found, hown, ⟨⟩⟩
      · exact .operand (ih hoperand)
      · exact .here hown

theorem FailsAt.eval_eq {e : Expr} {position : Position} {error : RuntimeError}
    (h : e.FailsAt bindings position error) : e.eval bindings = .error error := by
  induction h with
  | here hown => exact (ownError?_eq_some_iff.mp hown).2
  | left _ ih => exact eval_binary_eq_error_iff.mpr (Or.inl ih)
  | right hleft _ ih => exact eval_binary_eq_error_iff.mpr (Or.inr ⟨_, hleft, Or.inl ih⟩)
  | operand _ ih => exact eval_unary_eq_error_iff.mpr (Or.inl ih)

theorem eval_eq_error_iff_firstError? {e : Expr} {error : RuntimeError} :
    e.eval bindings = .error error ↔
      ∃ position, e.firstError? bindings = some (position, error) := by
  constructor
  · intro heval
    cases hfirst : e.firstError? bindings with
    | none =>
        obtain ⟨value, hvalue⟩ := firstError?_eq_none_iff.mp hfirst
        rw [hvalue] at heval
        cases heval
    | some found =>
        have heval' := (failsAt_of_firstError? hfirst).eval_eq
        rw [heval] at heval'
        cases heval'
        exact ⟨found.1, rfl⟩
  · rintro ⟨position, hfirst⟩
    exact (failsAt_of_firstError? hfirst).eval_eq

end Expr

namespace Machine

/-- An operation that fails itself has taken its operands off the stack. -/
theorem steps_compile_of_ownError? (machine : Machine) {e : Expr} {error : RuntimeError}
    (h : e.ownError? machine.bindings = some error) :
    machine.steps e.compile = .error ⟨error, machine⟩ := by
  obtain ⟨hoperands, heval⟩ := Expr.ownError?_eq_some_iff.mp h
  cases e with
  | const value => cases heval
  | var name =>
      have hload : machine.bindings.load name = .error error := heval
      rw [Expr.compile, steps_singleton, step_load, hload]
  | binary op left right =>
      obtain ⟨a, hleft⟩ := hoperands left List.mem_cons_self
      obtain ⟨b, hright⟩ := hoperands right (List.mem_cons_of_mem _ List.mem_cons_self)
      have happly : op.apply a b = .error error := by
        rwa [Expr.eval, hleft, hright] at heval
      rw [Expr.compile, List.append_assoc,
        steps_append_of_ok (steps_compile_of_eval_eq_ok machine hleft),
        steps_append_of_ok (steps_compile_of_eval_eq_ok
          { machine with stack := a :: machine.stack } hright),
        steps_singleton, step_binary, happly]
  | unary op operand =>
      obtain ⟨a, hoperand⟩ := hoperands operand List.mem_cons_self
      have happly : op.apply a = .error error := by
        rwa [Expr.eval, hoperand] at heval
      rw [Expr.compile, steps_append_of_ok (steps_compile_of_eval_eq_ok machine hoperand),
        steps_singleton, step_unary, happly]

/-- The code of an expression that fails halts with the values of what is pending at
the failing node on top of what the stack held before. -/
theorem steps_compile_of_failsAt {e : Expr} {position : Position} {error : RuntimeError}
    {bindings : Bindings} (h : e.FailsAt bindings position error) (machine : Machine)
    (hbindings : machine.bindings = bindings) :
    ∃ values, (e.pending position).mapM (Expr.eval bindings) = .ok values ∧
      machine.steps e.compile =
        .error ⟨error, { machine with stack := values.reverse ++ machine.stack }⟩ := by
  induction h generalizing machine with
  | here hown =>
      subst hbindings
      refine ⟨[], ?_, steps_compile_of_ownError? machine hown⟩
      rw [Expr.pending_root]
      rfl
  | left _ ih =>
      obtain ⟨values, hvalues, hsteps⟩ := ih machine hbindings
      refine ⟨values, hvalues, ?_⟩
      rw [Expr.compile, List.append_assoc]
      exact steps_append_of_error hsteps _
  | @right op left right position error a hleft _ ih =>
      -- The value of the left operand waits below what the right one leaves.
      obtain ⟨values, hvalues, hsteps⟩ := ih { machine with stack := a :: machine.stack } hbindings
      subst hbindings
      refine ⟨a :: values, ?_, ?_⟩
      · rw [Expr.pending, List.mapM_cons, hleft, ok_bind, hvalues]
        rfl
      · rw [Expr.compile, List.append_assoc,
          steps_append_of_ok (steps_compile_of_eval_eq_ok machine hleft),
          steps_append_of_error hsteps, List.reverse_cons, List.append_assoc]
        rfl
  | operand _ ih =>
      obtain ⟨values, hvalues, hsteps⟩ := ih machine hbindings
      refine ⟨values, hvalues, ?_⟩
      rw [Expr.compile]
      exact steps_append_of_error hsteps _

theorem steps_compile_of_firstError? {statement : Statement} {position : Position}
    {error : RuntimeError} {store : Store}
    (h : statement.value.firstError? store.bindings = some (position, error)) :
    ∃ values, (statement.value.pending position).mapM (Expr.eval store.bindings) = .ok values ∧
      ({ toStore := store } : Machine).steps statement.compile =
        .error ⟨error, { toStore := store, stack := values.reverse }⟩ := by
  obtain ⟨values, hvalues, hsteps⟩ :=
    steps_compile_of_failsAt (Expr.failsAt_of_firstError? h) { toStore := store } rfl
  rw [List.append_nil] at hsteps
  refine ⟨values, hvalues, ?_⟩
  cases statement with
  | assign target value => exact steps_append_of_error hsteps _
  | print value => exact steps_append_of_error hsteps _

end Machine

namespace Program

variable {program : Program} {k : Nat} {reached : Store} {statement : Statement}

theorem run_compile_of_firstError? (machine : Machine) {position : Position}
    {error : RuntimeError} (hreached : exec {} (program.take k) = .ok reached)
    (hget : program[k]? = some statement)
    (hfirst : statement.value.firstError? reached.bindings = some (position, error)) :
    ∃ values, (statement.value.pending position).mapM (Expr.eval reached.bindings) = .ok values ∧
      machine.run program.compile =
        .error ⟨error, { toStore := reached, stack := values.reverse }⟩ := by
  obtain ⟨values, hvalues, hsteps⟩ := Machine.steps_compile_of_firstError? hfirst
  refine ⟨values, hvalues, ?_⟩
  have hbefore := (steps_compile {} (program.take k)).1 reached hreached
  have hprogram : program = program.take k ++ statement :: program.drop (k + 1) := by
    obtain ⟨hk, rfl⟩ := List.getElem?_eq_some_iff.mp hget
    simp
  rw [hprogram, compile_append, compile_cons]
  exact (Machine.steps_append_of_ok hbefore _).trans (Machine.steps_append_of_error hsteps _)

/-- A run of compiled code halts with the first statement whose expression fails, at
the first node of that expression, from left to right in post-order, that fails
itself.  On the stack are then the values of the left operands of all binary
operations with that node inside their right operand, the outermost at the bottom, and
nothing else: neither the operands of the failed operation nor anything of an earlier
statement or run. -/
theorem run_compile_eq_error_iff (machine : Machine) (program : Program) (halt : Halt Machine) :
    machine.run program.compile = .error halt ↔
      ∃ k statement position,
        exec {} (program.take k) = .ok halt.state.toStore ∧ program[k]? = some statement ∧
        statement.value.firstError? halt.state.bindings = some (position, halt.error) ∧
        (statement.value.pending position).mapM (Expr.eval halt.state.bindings) =
          .ok halt.state.stack.reverse := by
  constructor
  · intro hrun
    cases hexec : program.exec {} with
    | ok store =>
        have hok : machine.run program.compile = .ok { toStore := store } :=
          (steps_compile {} program).1 store hexec
        rw [hok] at hrun
        cases hrun
    | error stopped =>
        obtain ⟨k, reached, statement, hreached, hget, hstop⟩ := foldlM_eq_error_iff.mp hexec
        obtain ⟨heval, -⟩ := Statement.exec_eq_error_iff.mp hstop
        obtain ⟨position, hfirst⟩ := Expr.eval_eq_error_iff_firstError?.mp heval
        obtain ⟨values, hvalues, hhalt⟩ := run_compile_of_firstError? machine hreached hget hfirst
        rw [hhalt] at hrun
        cases hrun
        rw [← List.reverse_reverse values] at hvalues
        exact ⟨k, statement, position, hreached, hget, hfirst, hvalues⟩
  · rintro ⟨k, statement, position, hreached, hget, hfirst, hvalues⟩
    obtain ⟨values, hvalues', hrun⟩ := run_compile_of_firstError? machine hreached hget hfirst
    rw [hvalues'] at hvalues
    cases hvalues
    rw [hrun, List.reverse_reverse]

example :
    let quotient : Expr := .binary .div (.const 7) (.const 0)
    let e : Expr := .binary .add (.const 1) (.unary .negate (.binary .sub (.const 2) quotient))
    e.firstError? .empty = some ([.right, .operand, .right], .divideByZero) ∧
      ({} : Machine).run (compile [.print e]) = .error ⟨.divideByZero, { stack := [2, 1] }⟩ :=
  ⟨rfl, rfl⟩

end Program

end Polish
