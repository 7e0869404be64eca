import Polish.Execution
import Polish.Proofs.Halting

/-!
Where code runs out of operands.

How many values are on the stack depends on the code alone: every instruction that
is carried out changes their number by a fixed amount.  So one can see without
running the code which instruction is the first to find too few of them.  Only
another error can stop the run before it gets there.
-/

namespace Polish

/-- What an instruction that is carried out adds to the height of the stack. -/
def Instruction.effect : Instruction → Int
  | pushConst _ | load _ => 1
  | store _ | print | binary _ => -1
  | unary _ => 0

namespace Code

/-- The height to which code takes an empty stack if all of it is carried out. -/
def balance : Code → Int
  | [] => 0
  | instruction :: code => instruction.effect + balance code

/-- The instructions before index `k` leave too little for the one at `k`. -/
def Underflows (code : Code) (k : Nat) : Prop :=
  ∃ instruction ∈ code[k]?, balance (code.take k) < instruction.operandCount

instance (code : Code) (k : Nat) : Decidable (code.Underflows k) :=
  inferInstanceAs (Decidable (∃ instruction ∈ code[k]?, _))

def FirstUnderflow (code : Code) (k : Nat) : Prop :=
  code.Underflows k ∧ ∀ j < k, ¬ code.Underflows j

instance (code : Code) (k : Nat) : Decidable (code.FirstUnderflow k) :=
  inferInstanceAs (Decidable (_ ∧ ∀ j < k, ¬ code.Underflows j))

end Code

def RuntimeError.IsPrematureEnd (error : RuntimeError) : Prop :=
  ∃ mnemonic needed found, error = prematureEnd mnemonic needed found

namespace Machine

variable {machine next : Machine} {instruction : Instruction} {code : Code} {k : Nat}
  {halt : Halt Machine}

theorem Moves.length_stack (h : machine.Moves instruction next) :
    (next.stack.length : Int) = machine.stack.length + instruction.effect := by
  cases h with
  | pushConst value | load hname => rfl
  | store name hstack | print hstack | unary hstack happly | binary hstack happly =>
      simp only [hstack, List.length_cons, Instruction.effect]
      omega

theorem Stops.isPrematureEnd_iff {error : RuntimeError} {stack : List Int64}
    (h : machine.Stops instruction error stack) :
    error.IsPrematureEnd ↔ machine.stack.length < instruction.operandCount := by
  cases h with
  | short hshort => exact iff_of_true ⟨_, _, _, rfl⟩ hshort
  | load hname =>
      obtain rfl := Bindings.error_of_load hname
      exact iff_of_false (by rintro ⟨_, _, _, ⟨⟩⟩) (Nat.not_lt_zero _)
  | binary hstack happly =>
      obtain ⟨-, -, rfl⟩ := BinaryOp.apply_eq_error_iff.mp happly
      refine iff_of_false (by rintro ⟨_, _, _, ⟨⟩⟩) ?_
      simp only [hstack, List.length_cons, Instruction.operandCount]
      omega
  | unary hstack happly =>
      obtain ⟨-, -, rfl⟩ := UnaryOp.apply_eq_error_iff.mp happly
      refine iff_of_false (by rintro ⟨_, _, _, ⟨⟩⟩) ?_
      simp only [hstack, List.length_cons, Instruction.operandCount]
      omega

theorem length_stack_of_steps (h : machine.steps code = .ok next) :
    (next.stack.length : Int) = machine.stack.length + code.balance := by
  induction code generalizing machine with
  | nil =>
      cases h
      exact (Int.add_zero _).symm
  | cons instruction code ih =>
      obtain ⟨middle, hstep, hrest⟩ := bind_eq_ok_iff.mp h
      have hmiddle := (step_eq_ok_iff.mp hstep).length_stack
      have hnext := ih hrest
      rw [Code.balance]
      omega

theorem length_stack_of_run (h : machine.run code = .ok next) :
    (next.stack.length : Int) = code.balance := by
  have hsteps := length_stack_of_steps h
  rwa [show machine.reset.stack.length = 0 from rfl, Int.natCast_zero, Int.zero_add] at hsteps

theorem not_haltsAt_of_run {j : Nat} (h : machine.run (code.take k) = .ok next) (hj : j < k) :
    ¬ machine.HaltsAt code j halt := by
  intro hhalts
  have herror : machine.run (code.take k) = .error halt :=
    run_eq_error_iff.mpr ⟨j, stopsAt_take_iff.mpr ⟨hj, hhalts⟩⟩
  rw [h] at herror
  cases herror

theorem HaltsAt.isPrematureEnd_iff (h : machine.HaltsAt code k halt) :
    halt.error.IsPrematureEnd ↔ code.Underflows k := by
  obtain ⟨reached, instruction, hreached, hget, hstep⟩ := h
  obtain ⟨stack, hstops, -⟩ := step_eq_error_iff.mp hstep
  rw [hstops.isPrematureEnd_iff]
  have hlength := length_stack_of_run hreached
  constructor
  · intro hshort
    refine ⟨instruction, hget, ?_⟩
    omega
  · rintro ⟨_, hget', hshort⟩
    obtain rfl := Option.some.inj (hget.symm.trans hget')
    omega

theorem exists_haltsAt_of_underflows (h : machine.run (code.take k) = .ok next)
    (hunder : code.Underflows k) : ∃ halt, machine.HaltsAt code k halt := by
  obtain ⟨instruction, hget, hshort⟩ := hunder
  have hlength := length_stack_of_run h
  have hstops : next.Stops instruction _ next.stack := .short (by omega)
  exact ⟨_, next, instruction, h, hget, step_of_stops hstops⟩

theorem not_underflows_of_run {j : Nat} (h : machine.run (code.take k) = .ok next) (hj : j < k) :
    ¬ code.Underflows j := by
  intro hunder
  obtain ⟨reached, hreached⟩ := exists_foldlM_take_eq_ok h j
  rw [List.take_take, Nat.min_eq_left (Nat.le_of_lt hj)] at hreached
  obtain ⟨halt, hhalts⟩ := exists_haltsAt_of_underflows hreached hunder
  exact not_haltsAt_of_run h hj hhalts

theorem haltsAt_isPrematureEnd_iff :
    (∃ halt, machine.HaltsAt code k halt ∧ halt.error.IsPrematureEnd) ↔
      code.FirstUnderflow k ∧
        ¬ ∃ j < k, ∃ halt, machine.HaltsAt code j halt ∧ ¬ halt.error.IsPrematureEnd := by
  constructor
  · rintro ⟨halt, hhalts, hpremature⟩
    obtain ⟨reached, _, hreached, _⟩ := id hhalts
    refine ⟨⟨hhalts.isPrematureEnd_iff.mp hpremature, ?_⟩, ?_⟩
    · intro j hj
      exact not_underflows_of_run hreached hj
    · rintro ⟨j, hj, other, hother, -⟩
      exact not_haltsAt_of_run hreached hj hother
  · rintro ⟨⟨hunder, hfirst⟩, hother⟩
    cases hrun : machine.run (code.take k) with
    | ok reached =>
        obtain ⟨halt, hhalts⟩ := exists_haltsAt_of_underflows hrun hunder
        exact ⟨halt, hhalts, hhalts.isPrematureEnd_iff.mpr hunder⟩
    | error halt =>
        -- The run stops at an earlier index, where neither kind of error is left.
        obtain ⟨j, hstops⟩ := run_eq_error_iff.mp hrun
        obtain ⟨hj, hhalts⟩ := stopsAt_take_iff.mp hstops
        refine absurd ⟨j, hj, halt, hhalts, ?_⟩ hother
        intro hpremature
        exact hfirst j hj ((HaltsAt.isPrematureEnd_iff hhalts).mp hpremature)

theorem HaltsAt.error_eq (h : machine.HaltsAt code k halt) (hpremature : halt.error.IsPrematureEnd) :
    ∃ instruction, code[k]? = some instruction ∧
      ∃ found : Nat, (found : Int) = Code.balance (code.take k) ∧
        halt.error =
          .prematureEnd instruction.mnemonic instruction.operandCount found := by
  obtain ⟨reached, instruction, hreached, hget, hstep⟩ := h
  obtain ⟨stack, hstops, -⟩ := step_eq_error_iff.mp hstep
  have hshort : reached.Stops instruction _ reached.stack :=
    .short (hstops.isPrematureEnd_iff.mp hpremature)
  refine ⟨instruction, hget, reached.stack.length, length_stack_of_run hreached, ?_⟩
  have hstep' := step_of_stops hshort
  rw [hstep] at hstep'
  cases hstep'
  rfl

/-- The number of values on the stack is the balance of the code that was run, so
running out of operands can be read off the code.  A run does so just at the first
index that underflows, unless another error stops it before, and reports what was
needed and found there.  Code with such an index never runs to its end; code without
one may fail, but not for want of operands. -/
theorem underflow_is_static (machine : Machine) (code : Code) :
    (∀ k reached, machine.run (code.take k) = .ok reached →
      (reached.stack.length : Int) = Code.balance (code.take k)) ∧
    (∀ k, (∃ halt, machine.HaltsAt code k halt ∧ halt.error.IsPrematureEnd) ↔
      code.FirstUnderflow k ∧
        ¬ ∃ j < k, ∃ halt, machine.HaltsAt code j halt ∧ ¬ halt.error.IsPrematureEnd) ∧
    (∀ k halt, machine.HaltsAt code k halt → halt.error.IsPrematureEnd →
      ∃ instruction, code[k]? = some instruction ∧
        ∃ found : Nat, (found : Int) = Code.balance (code.take k) ∧
          halt.error =
            .prematureEnd instruction.mnemonic instruction.operandCount found) ∧
    ((∃ k, code.FirstUnderflow k) → ∀ final, machine.run code ≠ .ok final) ∧
    ((¬ ∃ k, code.FirstUnderflow k) → ∀ halt, machine.run code = .error halt →
      ¬ halt.error.IsPrematureEnd) ∧
    ∀ final, machine.run code = .ok final →
      (final.execution.residual : Int) = code.balance := by
  refine ⟨fun k reached => length_stack_of_run, fun k => haltsAt_isPrematureEnd_iff,
    fun k halt => HaltsAt.error_eq, ?_, ?_, fun final => length_stack_of_run⟩
  · rintro ⟨k, hunder, -⟩ final hrun
    obtain ⟨instruction, hget, -⟩ := id hunder
    have hk : k < code.length := (List.getElem?_eq_some_iff.mp hget).1
    rw [← List.take_length (l := code)] at hrun
    exact not_underflows_of_run hrun hk hunder
  · intro hnone halt hrun hpremature
    obtain ⟨k, hhalts⟩ := run_eq_error_iff.mp hrun
    exact hnone ⟨k, (haltsAt_isPrematureEnd_iff.mp ⟨halt, hhalts, hpremature⟩).1⟩

example :
    let code : Code := [.pushConst 1, .pushConst 0, .binary .div, .print, .print]
    code.FirstUnderflow 4 ∧ ({} : Machine).run code = .error ⟨.divideByZero, {}⟩ :=
  ⟨by decide, rfl⟩

end Machine

end Polish
