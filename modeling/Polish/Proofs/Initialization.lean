import Polish.Proofs.Atomicity
import Polish.Proofs.Lockstep
import Polish.Proofs.Naming
import Polish.Proofs.WrapAround

namespace Polish

namespace Bindings

variable {bindings : Bindings} {name : String}

theorem load_eq_ok_iff {value : Int64} :
    bindings.load name = .ok value ↔ bindings.get? name = some value := by
  rw [load]
  cases bindings.get? name with
  | none => simp
  | some found => simp

theorem load_eq_error_iff {error : RuntimeError} :
    bindings.load name = .error error ↔
      bindings.get? name = none ∧ error = .uninitialized name := by
  rw [load]
  cases bindings.get? name with
  | none => simp [eq_comm]
  | some found => simp

end Bindings

namespace Expr

variable {bindings : Bindings} {e : Expr}

theorem isSome_get?_of_eval {value : Int64} (h : e.eval bindings = .ok value) {name : String}
    (hname : name ∈ e.names) : (bindings.get? name).isSome = true := by
  induction e generalizing value with
  | const v => cases hname
  | var read =>
      obtain rfl := List.mem_singleton.mp hname
      rw [Bindings.load_eq_ok_iff.mp h]
      rfl
  | binary op left right ihLeft ihRight =>
      obtain ⟨a, hleft, b, hright, -⟩ := eval_binary_eq_ok_iff.mp h
      rcases List.mem_append.mp hname with hname | hname
      · exact ihLeft hleft hname
      · exact ihRight hright hname
  | unary op operand ih =>
      obtain ⟨a, hoperand, -⟩ := eval_unary_eq_ok_iff.mp h
      exact ih hoperand hname

theorem get?_of_eval_eq_uninitialized {name : String}
    (h : e.eval bindings = .error (.uninitialized name)) :
    name ∈ e.names ∧ bindings.get? name = none := by
  induction e with
  | const v => cases h
  | var read =>
      obtain ⟨hget, hname⟩ := Bindings.load_eq_error_iff.mp h
      obtain rfl := RuntimeError.uninitialized.inj hname
      exact ⟨List.mem_singleton_self _, hget⟩
  | binary op left right ihLeft ihRight =>
      rcases eval_binary_eq_error_iff.mp h with hleft | ⟨a, -, hright | ⟨b, -, happly⟩⟩
      · obtain ⟨hmem, hget⟩ := ihLeft hleft
        exact ⟨List.mem_append_left _ hmem, hget⟩
      · obtain ⟨hmem, hget⟩ := ihRight hright
        exact ⟨List.mem_append_right _ hmem, hget⟩
      · cases (BinaryOp.apply_eq_error_iff.mp happly).2.2
  | unary op operand ih =>
      rcases eval_unary_eq_error_iff.mp h with hoperand | ⟨a, -, happly⟩
      · exact ih hoperand
      · cases (UnaryOp.apply_eq_error_iff.mp happly).2.2

theorem Polynomial.error_of_eval (h : e.Polynomial) {error : RuntimeError}
    (heval : e.eval bindings = .error error) : ∃ name, error = .uninitialized name := by
  induction e with
  | const v => cases heval
  | var name => exact ⟨name, Bindings.error_of_load heval⟩
  | binary op left right ihLeft ihRight =>
      obtain ⟨hop, hleft, hright⟩ := h
      rcases eval_binary_eq_error_iff.mp heval with herror | ⟨a, -, herror | ⟨b, -, happly⟩⟩
      · exact ihLeft hleft herror
      · exact ihRight hright herror
      · exact absurd (BinaryOp.apply_eq_error_iff.mp happly).1 hop
  | unary op operand ih =>
      obtain ⟨hop, hoperand⟩ := h
      rcases eval_unary_eq_error_iff.mp heval with herror | ⟨a, -, happly⟩
      · exact ih hoperand herror
      · exact absurd (UnaryOp.apply_eq_error_iff.mp happly).1 hop

end Expr

namespace Program

variable {store next : Store} {program : Program} {k : Nat} {statement : Statement}

theorem isSome_get?_of_exec (h : exec store program = .ok next) (name : String) :
    (next.bindings.get? name).isSome = true ↔
      name ∈ program.targets ∨ (store.bindings.get? name).isSome = true := by
  induction program generalizing store with
  | nil =>
      cases h
      simp [targets]
  | cons statement program ih =>
      obtain ⟨value, -, hrest⟩ := exec_cons_eq_ok_iff.mp h
      rw [ih hrest, mem_targets_cons, Statement.get?_commit]
      split
      · rename_i htarget
        simp [htarget]
      · rename_i htarget
        simp [htarget]

/-- The names that a run from the empty store has bound are the targets. -/
theorem bound_iff_mem_targets (h : exec {} program = .ok next) (name : String) :
    (next.bindings.get? name).isSome = true ↔ name ∈ program.targets := by
  rw [isSome_get?_of_exec h]
  simp

/-- Every statement reads only targets of the statements before it. -/
def AssignsBeforeReading (program : Program) : Prop :=
  ∀ k statement, program[k]? = some statement → ∀ name ∈ statement.value.names,
    name ∈ targets (program.take k)

theorem stopsAt_uninitialized {halt : Halt Store} {name : String}
    (h : StopsAt Statement.exec {} program k halt) (hname : halt.error = .uninitialized name) :
    ∃ statement, program[k]? = some statement ∧ name ∈ statement.value.names ∧
      name ∉ targets (program.take k) := by
  obtain ⟨reached, statement, hreached, hget, hstop⟩ := h
  obtain ⟨heval, -⟩ := Statement.exec_eq_error_iff.mp hstop
  rw [hname] at heval
  obtain ⟨hmem, hunbound⟩ := Expr.get?_of_eval_eq_uninitialized heval
  refine ⟨statement, hget, hmem, ?_⟩
  rw [← bound_iff_mem_targets hreached, hunbound]
  exact Bool.false_ne_true

/-- A run does not get past a statement that reads a name before it is assigned. -/
theorem exists_stopsAt_of_not_mem_targets {name : String} (hget : program[k]? = some statement)
    (hmem : name ∈ statement.value.names) (hname : name ∉ targets (program.take k)) :
    ∃ j halt, j ≤ k ∧ StopsAt Statement.exec {} program j halt := by
  cases hexec : exec {} (program.take (k + 1)) with
  | ok next =>
      rw [List.take_add_one, hget, Option.toList_some, exec_append] at hexec
      obtain ⟨reached, hreached, hstatement⟩ := bind_eq_ok_iff.mp hexec
      obtain ⟨value, heval, -⟩ := exec_cons_eq_ok_iff.mp hstatement
      have hbound := Expr.isSome_get?_of_eval heval hmem
      exact absurd ((bound_iff_mem_targets hreached name).mp hbound) hname
  | error halt =>
      obtain ⟨j, hstops⟩ := foldlM_eq_error_iff.mp hexec
      obtain ⟨hj, hstops⟩ := stopsAt_take_iff.mp hstops
      exact ⟨j, halt, Nat.le_of_lt_succ hj, hstops⟩

theorem assignsBeforeReading_of_exec (h : exec {} program = .ok next) :
    program.AssignsBeforeReading := by
  intro k statement hget name hmem
  by_contra hname
  obtain ⟨j, halt, -, hstops⟩ := exists_stopsAt_of_not_mem_targets hget hmem hname
  have herror : exec {} program = .error halt := foldlM_eq_error_iff.mpr ⟨j, hstops⟩
  rw [h] at herror
  cases herror

theorem AssignsBeforeReading.exists_exec (h : program.AssignsBeforeReading)
    (hpolynomial : program.Polynomial) : ∃ store, program.exec {} = .ok store := by
  cases hexec : program.exec {} with
  | ok store => exact ⟨store, rfl⟩
  | error halt =>
      obtain ⟨k, hstops⟩ := foldlM_eq_error_iff.mp hexec
      obtain ⟨reached, statement, -, hget, hstop⟩ := id hstops
      obtain ⟨heval, -⟩ := Statement.exec_eq_error_iff.mp hstop
      obtain ⟨name, hname⟩ :=
        (hpolynomial statement (List.mem_of_getElem? hget)).error_of_eval heval
      obtain ⟨other, hother, hmem, hnot⟩ := stopsAt_uninitialized hstops hname
      exact absurd (h k other hother name hmem) hnot

end Program

namespace Engine

open Program (targets)

/-- On both engines, after `k` statements the names with a value are the targets of
those statements.  A run fails for want of a name just where the name is read and not
assigned before, unless something else stops it earlier; so a program without division
and root succeeds just if it assigns every name before it reads it. -/
theorem use_before_assignment (engine : Engine) (program : Program) :
    (∀ k store, engine.Reaches program k store → ∀ name,
      (store.bindings.get? name).isSome = true ↔ name ∈ targets (program.take k)) ∧
    (∀ k halt, engine.HaltsIn program k halt → engine.Reaches program k halt.state) ∧
    (∀ failure, engine.backend.run program = .error failure →
      ∃ k halt, failure = .halted halt ∧ engine.HaltsIn program k halt ∧
        ∀ name, halt.error = .uninitialized name →
          ∃ statement, program[k]? = some statement ∧ name ∈ statement.value.names ∧
            name ∉ targets (program.take k)) ∧
    (program.AssignsBeforeReading → ∀ failure, engine.backend.run program = .error failure →
      ∃ halt, failure = .halted halt ∧ ∀ name, halt.error ≠ .uninitialized name) ∧
    (∀ k statement name, program[k]? = some statement → name ∈ statement.value.names →
      name ∉ targets (program.take k) →
        ∃ j halt, j ≤ k ∧ engine.HaltsIn program j halt ∧
          engine.backend.run program = .error (.halted halt)) ∧
    (program.Polynomial →
      ((∃ execution, engine.backend.run program = .ok execution) ↔
        program.AssignsBeforeReading)) := by
  refine ⟨?_, ?_, ?_, ?_, ?_, ?_⟩
  · intro k store hreaches name
    exact Program.bound_iff_mem_targets ((reaches_iff engine).mp hreaches) name
  · intro k halt hhalts
    obtain ⟨reached, statement, hreached, -, hstop⟩ := (haltsIn_iff engine).mp hhalts
    obtain ⟨-, hstate⟩ := Statement.exec_eq_error_iff.mp hstop
    exact (reaches_iff engine).mpr (hstate ▸ hreached)
  · intro failure hrun
    obtain ⟨k, halt, hfailure, hhalts⟩ := (run_eq_error_iff engine).mp hrun
    refine ⟨k, halt, hfailure, hhalts, ?_⟩
    intro name hname
    exact Program.stopsAt_uninitialized ((haltsIn_iff engine).mp hhalts) hname
  · intro hassigns failure hrun
    obtain ⟨k, halt, hfailure, hhalts⟩ := (run_eq_error_iff engine).mp hrun
    refine ⟨halt, hfailure, ?_⟩
    intro name hname
    obtain ⟨statement, hget, hmem, hnot⟩ :=
      Program.stopsAt_uninitialized ((haltsIn_iff engine).mp hhalts) hname
    exact hnot (hassigns k statement hget name hmem)
  · intro k statement name hget hmem hname
    obtain ⟨j, halt, hj, hstops⟩ := Program.exists_stopsAt_of_not_mem_targets hget hmem hname
    have hhalts := (haltsIn_iff engine).mpr hstops
    exact ⟨j, halt, hj, hhalts, (run_eq_error_iff engine).mpr ⟨j, halt, rfl, hhalts⟩⟩
  · intro hpolynomial
    rw [exists_run_eq_ok_iff]
    constructor
    · rintro ⟨store, hexec⟩
      exact Program.assignsBeforeReading_of_exec hexec
    · exact fun hassigns => hassigns.exists_exec hpolynomial

end Engine

end Polish
