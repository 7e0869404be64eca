import Polish.Evaluation
import Polish.Instruction

/-!
The stack machine.

An instruction that finds too few values on the stack leaves it alone.  An
operator takes its operands before it can fail.
-/

namespace Polish

/-- State of the machine.  The head of the stack is its top. -/
structure Machine extends Store where
  stack : List Int64 := []
  deriving DecidableEq

namespace Machine

def step (machine : Machine) (instruction : Instruction) :
    Except (Halt Machine) Machine :=
  match instruction, machine.stack with
  | .pushConst value, stack => .ok { machine with stack := value :: stack }
  | .load name, stack =>
      match machine.bindings.load name with
      | .ok value => .ok { machine with stack := value :: stack }
      | .error error => .error ⟨error, machine⟩
  | .store name, value :: stack =>
      .ok { machine with stack, bindings := machine.bindings.assign name value }
  | .binary op, right :: left :: stack =>
      match op.apply left right with
      | .ok value => .ok { machine with stack := value :: stack }
      | .error error => .error ⟨error, { machine with stack }⟩
  | .unary op, operand :: stack =>
      match op.apply operand with
      | .ok value => .ok { machine with stack := value :: stack }
      | .error error => .error ⟨error, { machine with stack }⟩
  | .print, value :: stack =>
      .ok { machine with stack, printed := machine.printed.push value }
  | instruction, stack =>
      .error ⟨.prematureEnd instruction.mnemonic instruction.operandCount stack.length,
        machine⟩

theorem step_load (machine : Machine) (name : String) :
    machine.step (.load name) =
      match machine.bindings.load name with
      | .ok value => .ok { machine with stack := value :: machine.stack }
      | .error error => .error ⟨error, machine⟩ :=
  rfl

theorem step_binary (machine : Machine) (op : BinaryOp) (left right : Int64)
    (stack : List Int64) :
    ({ machine with stack := right :: left :: stack } : Machine).step (.binary op) =
      match op.apply left right with
      | .ok value => .ok { machine with stack := value :: stack }
      | .error error => .error ⟨error, { machine with stack }⟩ :=
  rfl

theorem step_unary (machine : Machine) (op : UnaryOp) (operand : Int64) (stack : List Int64) :
    ({ machine with stack := operand :: stack } : Machine).step (.unary op) =
      match op.apply operand with
      | .ok value => .ok { machine with stack := value :: stack }
      | .error error => .error ⟨error, { machine with stack }⟩ :=
  rfl

def steps (machine : Machine) (code : Code) : Except (Halt Machine) Machine :=
  code.foldlM step machine

@[simp] theorem steps_nil (machine : Machine) : machine.steps [] = .ok machine :=
  rfl

theorem steps_append (machine : Machine) (first second : Code) :
    machine.steps (first ++ second) =
      machine.steps first >>= fun machine => machine.steps second := by
  simp [steps, List.foldlM_append]

@[simp] theorem steps_singleton (machine : Machine) (instruction : Instruction) :
    machine.steps [instruction] = machine.step instruction := by
  simp [steps]

theorem steps_append_of_ok {machine next : Machine} {first : Code}
    (h : machine.steps first = .ok next) (second : Code) :
    machine.steps (first ++ second) = next.steps second := by
  rw [steps_append, h]
  rfl

theorem steps_append_of_error {machine : Machine} {halt : Halt Machine} {first : Code}
    (h : machine.steps first = .error halt) (second : Code) :
    machine.steps (first ++ second) = .error halt := by
  rw [steps_append, h]
  rfl

def reset (machine : Machine) : Machine :=
  { machine with
    stack := []
    bindings := machine.bindings.clear
    printed := #[] }

/-- Runs code.  What earlier runs left is forgotten first. -/
def run (machine : Machine) (code : Code) : Except (Halt Machine) Machine :=
  machine.reset.steps code

/-- The state after a run, whether it succeeded or not. -/
def after : Except (Halt Machine) Machine → Machine
  | .ok machine => machine
  | .error halt => halt.state

end Machine

end Polish
