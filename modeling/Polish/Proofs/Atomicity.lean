import Polish.Proofs.Evaluation

namespace Polish

/-- The store at the end of a run, whether it succeeded or not. -/
def Store.after : Except (Halt Store) Store → Store
  | .ok store => store
  | .error halt => halt.state

namespace Statement

def target? : Statement → Option String
  | assign target _ => some target
  | print _ => none

/-- What a statement prints if its expression has the given value. -/
def output? (value : Int64) : Statement → Option Int64
  | assign _ _ => none
  | print _ => some value

theorem get?_commit (statement : Statement) (value : Int64) (store : Store) (name : String) :
    (statement.commit value store).bindings.get? name =
      if statement.target? = some name then some value else store.bindings.get? name := by
  cases statement with
  | assign target e =>
      rw [commit, Bindings.get?_assign]
      simp only [target?, Option.some.injEq, eq_comm]
  | print e => rfl

theorem toList_printed_commit (statement : Statement) (value : Int64) (store : Store) :
    (statement.commit value store).printed.toList =
      store.printed.toList ++ (statement.output? value).toList := by
  cases statement with
  | assign target e => simp [commit, output?]
  | print e => simp [commit, output?]

end Statement

namespace Program

/-- The targets of the assignments in a program, in order. -/
def targets (program : Program) : List String :=
  program.filterMap Statement.target?

/-- The values of the expressions of a program, each with the bindings that the
statements before it have made. -/
def Values (store : Store) (program : Program) (values : List Int64) : Prop :=
  values.length = program.length ∧
    ∀ i statement value, program[i]? = some statement → values[i]? = some value →
      ∃ before, exec store (program.take i) = .ok before ∧
        statement.value.eval before.bindings = .ok value

/-- The values that belong to print statements. -/
def outputs (program : Program) (values : List Int64) : List Int64 :=
  (program.zip values).filterMap fun (statement, value) => statement.output? value

variable {store next : Store} {statement : Statement} {program : Program}

theorem exec_cons_eq_ok_iff :
    exec store (statement :: program) = .ok next ↔
      ∃ value, statement.value.eval store.bindings = .ok value ∧
        exec (statement.commit value store) program = .ok next := by
  simp only [exec, List.foldlM_cons, bind_eq_ok_iff, Statement.exec_eq_ok_iff]
  constructor
  · rintro ⟨_, ⟨value, hvalue, rfl⟩, hrest⟩
    exact ⟨value, hvalue, hrest⟩
  · rintro ⟨value, hvalue, hrest⟩
    exact ⟨_, ⟨value, hvalue, rfl⟩, hrest⟩

theorem mem_targets_cons {name : String} :
    name ∈ targets (statement :: program) ↔
      statement.target? = some name ∨ name ∈ targets program := by
  simp only [targets, List.mem_filterMap, List.mem_cons, exists_eq_or_imp]

theorem get?_of_exec (h : exec store program = .ok next) {name : String}
    (hname : name ∉ program.targets) : next.bindings.get? name = store.bindings.get? name := by
  induction program generalizing store with
  | nil =>
      cases h
      rfl
  | cons statement program ih =>
      obtain ⟨value, -, hrest⟩ := exec_cons_eq_ok_iff.mp h
      rw [mem_targets_cons, not_or] at hname
      rw [ih hrest hname.2, Statement.get?_commit, if_neg hname.1]

theorem Values.nil (store : Store) : Values store [] [] :=
  ⟨rfl, fun _ _ _ hget => by simp at hget⟩

theorem Values.cons {value : Int64} {values : List Int64}
    (hvalue : statement.value.eval store.bindings = .ok value)
    (h : Values (statement.commit value store) program values) :
    Values store (statement :: program) (value :: values) := by
  obtain ⟨hlength, hvalues⟩ := h
  refine ⟨congrArg Nat.succ hlength, ?_⟩
  intro i other found hget hfound
  cases i with
  | zero =>
      cases hget
      cases hfound
      exact ⟨store, rfl, hvalue⟩
  | succ i =>
      obtain ⟨before, hbefore, heval⟩ := hvalues i other found hget hfound
      exact ⟨before, exec_cons_eq_ok_iff.mpr ⟨value, hvalue, hbefore⟩, heval⟩

theorem exists_values_of_exec (h : exec store program = .ok next) :
    ∃ values, Values store program values ∧
      next.printed.toList = store.printed.toList ++ outputs program values := by
  induction program generalizing store with
  | nil =>
      cases h
      exact ⟨[], .nil _, (List.append_nil _).symm⟩
  | cons statement program ih =>
      obtain ⟨value, hvalue, hrest⟩ := exec_cons_eq_ok_iff.mp h
      obtain ⟨values, hvalues, hprinted⟩ := ih hrest
      refine ⟨value :: values, hvalues.cons hvalue, ?_⟩
      rw [hprinted, Statement.toList_printed_commit, List.append_assoc]
      congr 1
      simp only [outputs, List.zip_cons_cons, List.filterMap_cons]
      cases statement.output? value with
      | none => rfl
      | some output => rfl

/-- A run from any store carries out the first `k` statements, all of them just if it
succeeds, and otherwise it fails with the error of the next expression.  At its end the
store is that of running only those statements: their print statements have added
their values, in order, and a name that is none of their targets is bound as before.
Running one program and, if it succeeds, another one after it is running both as one
program. -/
theorem exec_by_statements (store : Store) (program : Program) :
    (∃ k reached values, k ≤ program.length ∧ exec store (program.take k) = .ok reached ∧
      ((∃ final, exec store program = .ok final) ↔ k = program.length) ∧
      (∀ halt, exec store program = .error halt → ∃ statement, program[k]? = some statement ∧
        statement.value.eval reached.bindings = .error halt.error) ∧
      Store.after (exec store program) = reached ∧
      Values store (program.take k) values ∧
      reached.printed.toList = store.printed.toList ++ outputs (program.take k) values ∧
      ∀ name, name ∉ targets (program.take k) →
        reached.bindings.get? name = store.bindings.get? name) ∧
    ∀ second : Program, exec store (program ++ second) =
      exec store program >>= fun reached => exec reached second := by
  refine ⟨?_, exec_append store program⟩
  cases hexec : exec store program with
  | ok final =>
      obtain ⟨values, hvalues, hprinted⟩ := exists_values_of_exec hexec
      refine ⟨program.length, final, values, Nat.le_refl _, ?_⟩
      rw [List.take_length]
      refine ⟨hexec, iff_of_true ⟨final, rfl⟩ rfl, ?_, rfl, hvalues, hprinted, ?_⟩
      · rintro halt ⟨⟩
      · exact fun name hname => get?_of_exec hexec hname
  | error halt =>
      obtain ⟨k, reached, statement, hreached, hget, hstop⟩ := foldlM_eq_error_iff.mp hexec
      obtain ⟨heval, hstate⟩ := Statement.exec_eq_error_iff.mp hstop
      obtain ⟨values, hvalues, hprinted⟩ := exists_values_of_exec hreached
      have hk : k < program.length := (List.getElem?_eq_some_iff.mp hget).1
      refine ⟨k, reached, values, Nat.le_of_lt hk, hreached, ?_, ?_, hstate, hvalues, hprinted, ?_⟩
      · exact iff_of_false (by rintro ⟨_, ⟨⟩⟩) (Nat.ne_of_lt hk)
      · rintro _ ⟨⟩
        exact ⟨statement, hget, heval⟩
      · exact fun name hname => get?_of_exec hreached hname

end Program

end Polish
