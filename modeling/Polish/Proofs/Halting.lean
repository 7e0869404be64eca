import Polish.Machine
import Polish.Proofs.Evaluation

/-!
What one instruction does, and where a failed run leaves the machine.

A run fails at the first instruction that cannot be carried out.  The machine is
then as it was before that instruction, but for the operands of an operator: they
are off the stack, since an operator takes them before it looks at them.
-/

namespace Polish

namespace Machine

/-- The instruction can be carried out, and makes the second machine of the first. -/
inductive Moves (machine : Machine) : Instruction → Machine → Prop
  | pushConst (value : Int64) :
      Moves machine (.pushConst value) { machine with stack := value :: machine.stack }
  | load {name : String} {value : Int64} (hname : machine.bindings.load name = .ok value) :
      Moves machine (.load name) { machine with stack := value :: machine.stack }
  | store {value : Int64} {stack : List Int64} (name : String)
      (hstack : machine.stack = value :: stack) :
      Moves machine (.store name)
        { machine with stack, bindings := machine.bindings.assign name value }
  | binary {op : BinaryOp} {left right value : Int64} {stack : List Int64}
      (hstack : machine.stack = right :: left :: stack)
      (happly : op.apply left right = .ok value) :
      Moves machine (.binary op) { machine with stack := value :: stack }
  | unary {op : UnaryOp} {operand value : Int64} {stack : List Int64}
      (hstack : machine.stack = operand :: stack) (happly : op.apply operand = .ok value) :
      Moves machine (.unary op) { machine with stack := value :: stack }
  | print {value : Int64} {stack : List Int64} (hstack : machine.stack = value :: stack) :
      Moves machine .print { machine with stack, printed := machine.printed.push value }

/-- The instruction cannot be carried out, for the given reason, and the stack is
what it leaves. -/
inductive Stops (machine : Machine) : Instruction → RuntimeError → List Int64 → Prop
  | short {instruction : Instruction}
      (hshort : machine.stack.length < instruction.operandCount) :
      Stops machine instruction
        (.prematureEnd instruction.mnemonic instruction.operandCount machine.stack.length)
        machine.stack
  | load {name : String} {error : RuntimeError}
      (hname : machine.bindings.load name = .error error) :
      Stops machine (.load name) error machine.stack
  | binary {op : BinaryOp} {left right : Int64} {stack : List Int64} {error : RuntimeError}
      (hstack : machine.stack = right :: left :: stack)
      (happly : op.apply left right = .error error) : Stops machine (.binary op) error stack
  | unary {op : UnaryOp} {operand : Int64} {stack : List Int64} {error : RuntimeError}
      (hstack : machine.stack = operand :: stack) (happly : op.apply operand = .error error) :
      Stops machine (.unary op) error stack

variable {machine next : Machine} {instruction : Instruction} {halt : Halt Machine}

theorem step_of_moves (h : machine.Moves instruction next) :
    machine.step instruction = .ok next := by
  obtain ⟨store, stack⟩ := machine
  cases h with
  | pushConst value => rfl
  | load hname => rw [step_load, hname]
  | store name hstack =>
      cases hstack
      rfl
  | binary hstack happly =>
      cases hstack
      exact (step_binary ⟨store, []⟩ _ _ _ _).trans (by rw [happly])
  | unary hstack happly =>
      cases hstack
      exact (step_unary ⟨store, []⟩ _ _ _).trans (by rw [happly])
  | print hstack =>
      cases hstack
      rfl

theorem step_of_stops {error : RuntimeError} {stack : List Int64}
    (h : machine.Stops instruction error stack) :
    machine.step instruction = .error ⟨error, { machine with stack }⟩ := by
  obtain ⟨store, values⟩ := machine
  cases h with
  | short hshort =>
      cases instruction with
      | pushConst value | load name => cases hshort
      | store name | print | unary op =>
          cases values with
          | nil => rfl
          | cons value values => simp [Instruction.operandCount] at hshort
      | binary op =>
          rcases values with _ | ⟨right, _ | ⟨left, values⟩⟩
          · rfl
          · rfl
          · simp only [Instruction.operandCount, List.length_cons] at hshort
            omega
  | load hname => rw [step_load, hname]
  | binary hstack happly =>
      cases hstack
      exact (step_binary ⟨store, []⟩ _ _ _ _).trans (by rw [happly])
  | unary hstack happly =>
      cases hstack
      exact (step_unary ⟨store, []⟩ _ _ _).trans (by rw [happly])

theorem moves_or_stops (machine : Machine) (instruction : Instruction) :
    (∃ next, machine.Moves instruction next) ∨
      ∃ error stack, machine.Stops instruction error stack := by
  by_cases hshort : machine.stack.length < instruction.operandCount
  · exact Or.inr ⟨_, _, .short hshort⟩
  · obtain ⟨store, values⟩ := machine
    cases instruction with
    | pushConst value => exact Or.inl ⟨_, .pushConst value⟩
    | load name =>
        cases hname : store.bindings.load name with
        | ok value => exact Or.inl ⟨_, .load hname⟩
        | error error => exact Or.inr ⟨_, _, .load hname⟩
    | store name =>
        cases values with
        | nil => exact absurd Nat.one_pos hshort
        | cons value stack => exact Or.inl ⟨_, .store name rfl⟩
    | binary op =>
        rcases values with _ | ⟨right, _ | ⟨left, stack⟩⟩
        · exact absurd Nat.two_pos hshort
        · exact absurd Nat.one_lt_two hshort
        · cases happly : op.apply left right with
          | ok value => exact Or.inl ⟨_, .binary rfl happly⟩
          | error error => exact Or.inr ⟨_, _, .binary rfl happly⟩
    | unary op =>
        cases values with
        | nil => exact absurd Nat.one_pos hshort
        | cons operand stack =>
            cases happly : op.apply operand with
            | ok value => exact Or.inl ⟨_, .unary rfl happly⟩
            | error error => exact Or.inr ⟨_, _, .unary rfl happly⟩
    | print =>
        cases values with
        | nil => exact absurd Nat.one_pos hshort
        | cons value stack => exact Or.inl ⟨_, .print rfl⟩

theorem step_eq_ok_iff : machine.step instruction = .ok next ↔ machine.Moves instruction next := by
  refine ⟨fun h => ?_, step_of_moves⟩
  rcases moves_or_stops machine instruction with ⟨other, hmoves⟩ | ⟨error, stack, hstops⟩
  · rw [step_of_moves hmoves] at h
    cases h
    exact hmoves
  · rw [step_of_stops hstops] at h
    cases h

theorem step_eq_error_iff :
    machine.step instruction = .error halt ↔
      ∃ stack, machine.Stops instruction halt.error stack ∧
        halt.state = { machine with stack } := by
  constructor
  · intro h
    rcases moves_or_stops machine instruction with ⟨other, hmoves⟩ | ⟨error, stack, hstops⟩
    · rw [step_of_moves hmoves] at h
      cases h
    · rw [step_of_stops hstops] at h
      cases h
      exact ⟨stack, hstops, rfl⟩
  · obtain ⟨error, state⟩ := halt
    rintro ⟨stack, hstops, rfl⟩
    exact step_of_stops hstops

/-- The run of code gets to the instruction with index `k` and halts there. -/
def HaltsAt (machine : Machine) (code : Code) (k : Nat) (halt : Halt Machine) : Prop :=
  StopsAt step machine.reset code k halt

theorem run_eq_error_iff {code : Code} :
    machine.run code = .error halt ↔ ∃ k, machine.HaltsAt code k halt :=
  foldlM_eq_error_iff

end Machine

/-- What is left of a stack on which an instruction fails.  Only an operator that
got its operands has changed it. -/
def RuntimeError.Leaves : RuntimeError → List Int64 → List Int64 → Prop
  | uninitialized _, before, after => after = before
  | prematureEnd _ _ _, before, after => after = before
  | divideByZero, before, after => ∃ left, before = 0 :: left :: after
  | negativeSqrt operand, before, after => operand < 0 ∧ before = operand :: after

namespace Machine

theorem Stops.leaves {machine : Machine} {instruction : Instruction} {error : RuntimeError}
    {stack : List Int64} (h : machine.Stops instruction error stack) :
    error.Leaves machine.stack stack := by
  cases h with
  | short hshort => rfl
  | load hname =>
      obtain rfl := Bindings.error_of_load hname
      rfl
  | binary hstack happly =>
      obtain ⟨rfl, rfl, rfl⟩ := BinaryOp.apply_eq_error_iff.mp happly
      exact ⟨_, hstack⟩
  | unary hstack happly =>
      obtain ⟨rfl, hneg, rfl⟩ := UnaryOp.apply_eq_error_iff.mp happly
      exact ⟨hneg, hstack⟩

/-- A run that fails does so at one instruction.  The instructions before it run
by themselves, and bindings and printed values stay as those have left them; of the
stack the error tells what is gone.  Neither the instructions after it nor what is
left of an earlier run can change any of this. -/
theorem state_of_failed_run (machine : Machine) (code : Code) (halt : Halt Machine)
    (h : machine.run code = .error halt) :
    ∃ k reached, k < code.length ∧ machine.run (code.take k) = .ok reached ∧
      halt.state.bindings = reached.bindings ∧ halt.state.printed = reached.printed ∧
      halt.error.Leaves reached.stack halt.state.stack ∧
      ∀ (other : Machine) (rest : Code), other.run (code.take (k + 1) ++ rest) = .error halt := by
  obtain ⟨k, hhalts⟩ := run_eq_error_iff.mp h
  obtain ⟨reached, instruction, hreached, hget, hstep⟩ := id hhalts
  obtain ⟨stack, hstops, hstate⟩ := step_eq_error_iff.mp hstep
  rw [hstate]
  refine ⟨k, reached, (List.getElem?_eq_some_iff.mp hget).1, hreached, rfl, rfl,
    hstops.leaves, ?_⟩
  intro other rest
  exact hhalts.foldlM_take_append rest

theorem state_of_failed_run_division :
    let machine : Machine := { printed := #[3], stack := [7] }
    let code : Code :=
      [.pushConst 1, .print, .pushConst 9, .pushConst 5, .pushConst 0, .binary .div, .print]
    let halt : Halt Machine := ⟨.divideByZero, { printed := #[1], stack := [9] }⟩
    machine.run code = .error halt ∧
      ∃ k reached, k < code.length ∧ machine.run (code.take k) = .ok reached ∧
        (∃ left, reached.stack = 0 :: left :: halt.state.stack) ∧
        ∀ (other : Machine) (rest : Code),
          other.run (code.take (k + 1) ++ rest) = .error halt := by
  intro machine code halt
  have hrun : machine.run code = .error halt := rfl
  obtain ⟨k, reached, hk, hreached, -, -, hleaves, hrest⟩ :=
    state_of_failed_run machine code halt hrun
  exact ⟨hrun, k, reached, hk, hreached, hleaves, hrest⟩

end Machine

end Polish
