import Polish.Proofs.Atomicity
import Polish.Proofs.Naming

namespace Polish

/-- Both have the same value for a name, or both have none. -/
def Bindings.AgreeAt (first second : Bindings) (name : String) : Prop :=
  first.get? name = second.get? name

instance (first second : Bindings) (name : String) : Decidable (first.AgreeAt second name) :=
  inferInstanceAs (Decidable (first.get? name = second.get? name))

theorem Expr.eval_congr {first second : Bindings} {e : Expr}
    (h : ∀ name ∈ e.names, first.AgreeAt second name) : e.eval first = e.eval second := by
  induction e with
  | const value => rfl
  | var name =>
      have hname : first.get? name = second.get? name := h name (List.mem_singleton_self name)
      rw [eval, eval, Bindings.load, Bindings.load, hname]
  | binary op left right ihLeft ihRight =>
      rw [eval, eval, ihLeft fun name hname => h name (List.mem_append_left _ hname),
        ihRight fun name hname => h name (List.mem_append_right _ hname)]
  | unary op operand ih => rw [eval, eval, ih h]

namespace Program

variable {program : Program} {statement : Statement} {name : String}

/-- Some statement reads the name, and none before it assigns the name. -/
def ReadsFirst (program : Program) (name : String) : Prop :=
  ∃ k statement, program[k]? = some statement ∧ name ∈ statement.value.names ∧
    name ∉ targets (program.take k)

/-- The names that a program reads before it assigns them. -/
def inputs : Program → List String
  | [] => []
  | statement :: program =>
      statement.value.names ++
        (inputs program).filter fun name => decide (statement.target? ≠ some name)

theorem readsFirst_cons_iff :
    ReadsFirst (statement :: program) name ↔
      name ∈ statement.value.names ∨ statement.target? ≠ some name ∧ ReadsFirst program name := by
  constructor
  · rintro ⟨k, reader, hget, hread, hunassigned⟩
    cases k with
    | zero =>
        obtain rfl := Option.some.inj hget
        exact Or.inl hread
    | succ k =>
        rw [List.take_succ_cons, mem_targets_cons, not_or] at hunassigned
        exact Or.inr ⟨hunassigned.1, k, reader, hget, hread, hunassigned.2⟩
  · rintro (hread | ⟨htarget, k, reader, hget, hread, hunassigned⟩)
    · exact ⟨0, statement, rfl, hread, List.not_mem_nil⟩
    · refine ⟨k + 1, reader, hget, hread, ?_⟩
      rw [List.take_succ_cons, mem_targets_cons, not_or]
      exact ⟨htarget, hunassigned⟩

theorem mem_inputs_iff : name ∈ program.inputs ↔ program.ReadsFirst name := by
  induction program with
  | nil => exact iff_of_false List.not_mem_nil (by rintro ⟨_, _, ⟨⟩, _⟩)
  | cons statement program ih =>
      rw [inputs, List.mem_append, List.mem_filter, decide_eq_true_eq, readsFirst_cons_iff, ih,
        and_comm]

/-- What two runs have in common that have carried out the same statements, one from
`first` to `first'` and the other from `second` to `second'`. -/
structure InStep (first second : Store) (completed : Program) (first' second' : Store) :
    Prop where
  printed : ∃ values, first'.printed = first.printed ++ values ∧
    second'.printed = second.printed ++ values
  agree : ∀ name, first.bindings.AgreeAt second.bindings name ∨ name ∈ targets completed →
    first'.bindings.AgreeAt second'.bindings name
  frame : ∀ name, name ∉ targets completed →
    first'.bindings.get? name = first.bindings.get? name ∧
      second'.bindings.get? name = second.bindings.get? name

variable {first second first' second' : Store} {value : Int64}

/-- A statement makes stores agree on its target, whatever they had for it. -/
theorem agreeAt_commit
    (h : statement.target? = some name ∨ first.bindings.AgreeAt second.bindings name) :
    (statement.commit value first).bindings.AgreeAt (statement.commit value second).bindings
      name := by
  rw [Bindings.AgreeAt, Statement.get?_commit, Statement.get?_commit]
  split
  · rfl
  · rename_i htarget
    exact h.resolve_left htarget

theorem exists_printed_commit (statement : Statement) (value : Int64) :
    ∃ values : Array Int64, ∀ store : Store,
      (statement.commit value store).printed = store.printed ++ values := by
  cases statement with
  | assign target e => exact ⟨#[], fun store => (Array.append_empty).symm⟩
  | print e => exact ⟨#[value], fun store => Array.push_eq_append⟩

theorem InStep.nil (first second : Store) : InStep first second [] first second where
  printed := ⟨#[], (Array.append_empty).symm, (Array.append_empty).symm⟩
  agree := fun _ h => h.resolve_right List.not_mem_nil
  frame := fun _ _ => ⟨rfl, rfl⟩

theorem InStep.cons
    (h : InStep (statement.commit value first) (statement.commit value second) program first'
      second') :
    InStep first second (statement :: program) first' second' where
  printed := by
    obtain ⟨before, hbefore⟩ := exists_printed_commit statement value
    obtain ⟨after, hfirst, hsecond⟩ := h.printed
    refine ⟨before ++ after, ?_, ?_⟩
    · rw [hfirst, hbefore, Array.append_assoc]
    · rw [hsecond, hbefore, Array.append_assoc]
  agree := by
    intro name hname
    apply h.agree
    rw [mem_targets_cons] at hname
    rcases hname with hagree | htarget | hrest
    · exact Or.inl (agreeAt_commit (Or.inr hagree))
    · exact Or.inl (agreeAt_commit (Or.inl htarget))
    · exact Or.inr hrest
  frame := by
    intro name hname
    rw [mem_targets_cons, not_or] at hname
    obtain ⟨hfirst, hsecond⟩ := h.frame name hname.2
    rw [hfirst, hsecond, Statement.get?_commit, Statement.get?_commit, if_neg hname.1,
      if_neg hname.1]
    exact ⟨rfl, rfl⟩

/-- Two runs of a program, from stores that agree on every name that it reads before
assigning it, stay in step.  If they fail, they do so at the same statement with the same
error. -/
theorem exec_depends_on_inputs (program : Program) (first second : Store)
    (h : ∀ name, program.ReadsFirst name → first.bindings.AgreeAt second.bindings name) :
    Parallel
      (fun halt halt' => halt.error = halt'.error ∧
        ∃ k, StopsAt Statement.exec first program k halt ∧
          StopsAt Statement.exec second program k halt' ∧
          InStep first second (program.take k) halt.state halt'.state)
      (InStep first second program) (exec first program) (exec second program) := by
  induction program generalizing first second with
  | nil => exact InStep.nil first second
  | cons statement program ih =>
      have heval : statement.value.eval first.bindings = statement.value.eval second.bindings :=
        Expr.eval_congr fun name hname => h name (readsFirst_cons_iff.mpr (Or.inl hname))
      rw [parallel_iff]
      cases hvalue : statement.value.eval first.bindings with
      | error error =>
          have hstop : statement.exec first = .error ⟨error, first⟩ :=
            Statement.exec_eq_error_iff.mpr ⟨hvalue, rfl⟩
          have hstop' : statement.exec second = .error ⟨error, second⟩ :=
            Statement.exec_eq_error_iff.mpr ⟨heval ▸ hvalue, rfl⟩
          exact Or.inr ⟨_, _, exec_cons_of_error hstop program, exec_cons_of_error hstop' program,
            rfl, 0, stopsAt_zero hstop, stopsAt_zero hstop', .nil first second⟩
      | ok value =>
          have hnext : statement.exec first = .ok (statement.commit value first) :=
            Statement.exec_eq_ok_iff.mpr ⟨value, hvalue, rfl⟩
          have hnext' : statement.exec second = .ok (statement.commit value second) :=
            Statement.exec_eq_ok_iff.mpr ⟨value, heval ▸ hvalue, rfl⟩
          have hagree : ∀ name, ReadsFirst program name →
              (statement.commit value first).bindings.AgreeAt
                (statement.commit value second).bindings name := by
            intro name hreads
            by_cases htarget : statement.target? = some name
            · exact agreeAt_commit (Or.inl htarget)
            · exact agreeAt_commit
                (Or.inr (h name (readsFirst_cons_iff.mpr (Or.inr ⟨htarget, hreads⟩))))
          rw [exec_cons_of_ok hnext, exec_cons_of_ok hnext']
          rcases parallel_iff.mp (ih _ _ hagree) with
            ⟨first', second', hfirst, hsecond, hstep⟩ |
              ⟨halt, halt', hfirst, hsecond, herror, k, hstops, hstops', hstep⟩
          · exact Or.inl ⟨first', second', hfirst, hsecond, hstep.cons⟩
          · exact Or.inr ⟨halt, halt', hfirst, hsecond, herror, k + 1, hstops.cons hnext,
              hstops'.cons hnext', hstep.cons⟩

/-- The name `z` is different in the two stores and stays so, and `y` is assigned before it
is read.  Both runs stop at the last statement. -/
theorem exec_depends_on_inputs_halted :
    let program : Program :=
      [.assign "y" (.binary .add (.var "x") (.const 1)), .print (.var "y"),
        .print (.binary .div (.var "y") (.binary .sub (.var "x") (.const 4)))]
    let first : Store :=
      { bindings := .ofList [("x", 4), ("y", 7), ("z", 1)], printed := #[9] }
    let second : Store := { bindings := .ofList [("x", 4), ("z", 2)] }
    (∀ name, program.ReadsFirst name → first.bindings.AgreeAt second.bindings name) ∧
      ∃ halt halt', exec first program = .error halt ∧ exec second program = .error halt' ∧
        halt.error = .divideByZero ∧ halt'.error = halt.error ∧
        halt.state.printed = #[9, 5] ∧ halt'.state.printed = #[5] ∧
        halt.state.bindings.AgreeAt halt'.state.bindings "y" ∧
        halt.state.bindings.get? "z" = some 1 ∧ halt'.state.bindings.get? "z" = some 2 := by
  intro program first second
  have hagree : ∀ name, program.ReadsFirst name → first.bindings.AgreeAt second.bindings name := by
    intro name hname
    have hinputs : ∀ name ∈ program.inputs, first.bindings.AgreeAt second.bindings name := by
      decide
    exact hinputs name (mem_inputs_iff.mpr hname)
  refine ⟨hagree, ?_⟩
  rcases parallel_iff.mp (exec_depends_on_inputs program first second hagree) with
    ⟨store, _, hexec, -⟩ | ⟨halt, halt', hexec, hexec', herror, -⟩
  · cases hexec
  · cases hexec
    cases hexec'
    exact ⟨_, _, rfl, rfl, rfl, herror.symm, rfl, rfl, rfl, rfl, rfl⟩

end Program

end Polish
