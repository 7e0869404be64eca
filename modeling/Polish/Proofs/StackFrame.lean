import Polish.Proofs.Underflow

namespace Polish

namespace Machine

/-- The machine with values put below those on its stack. -/
def atop (machine : Machine) (below : List Int64) : Machine :=
  { machine with stack := machine.stack ++ below }

variable {machine next : Machine} {instruction : Instruction} {code : Code}
  {halt : Halt Machine}

theorem stack_atop_of_cons {value : Int64} {stack : List Int64}
    (h : machine.stack = value :: stack) (below : List Int64) :
    (machine.atop below).stack = value :: (stack ++ below) := by
  rw [atop, h, List.cons_append]

theorem Moves.atop (h : machine.Moves instruction next) (below : List Int64) :
    (machine.atop below).Moves instruction (next.atop below) := by
  cases h with
  | pushConst value => exact .pushConst value
  | load hname => exact .load hname
  | store name hstack => exact .store name (stack_atop_of_cons hstack below)
  | binary hstack happly => exact .binary (stack_atop_of_cons hstack below) happly
  | unary hstack happly => exact .unary (stack_atop_of_cons hstack below) happly
  | print hstack => exact .print (stack_atop_of_cons hstack below)

/-- Any other failure than a want of operands comes from what the instruction finds in
its own stack, or does not find in the bindings. -/
theorem Stops.atop {error : RuntimeError} {stack : List Int64}
    (h : machine.Stops instruction error stack) (herror : ¬ error.IsPrematureEnd)
    (below : List Int64) : (machine.atop below).Stops instruction error (stack ++ below) := by
  cases h with
  | short hshort => exact absurd ⟨_, _, _, rfl⟩ herror
  | load hname => exact .load hname
  | binary hstack happly => exact .binary (stack_atop_of_cons hstack below) happly
  | unary hstack happly => exact .unary (stack_atop_of_cons hstack below) happly

theorem step_atop_of_error (h : machine.step instruction = .error halt)
    (herror : ¬ halt.error.IsPrematureEnd) (below : List Int64) :
    (machine.atop below).step instruction = .error ⟨halt.error, halt.state.atop below⟩ := by
  obtain ⟨stack, hstops, hstate⟩ := step_eq_error_iff.mp h
  rw [step_of_stops (hstops.atop herror below), hstate]
  rfl

theorem steps_atop_of_ok (h : machine.steps code = .ok next) (below : List Int64) :
    (machine.atop below).steps code = .ok (next.atop below) := by
  induction code generalizing machine with
  | nil =>
      cases h
      rfl
  | cons instruction code ih =>
      obtain ⟨middle, hstep, hrest⟩ := bind_eq_ok_iff.mp h
      have hmoves := (step_eq_ok_iff.mp hstep).atop below
      exact bind_eq_ok_iff.mpr ⟨middle.atop below, step_of_moves hmoves, ih hrest⟩

theorem steps_atop_of_error (h : machine.steps code = .error halt)
    (herror : ¬ halt.error.IsPrematureEnd) (below : List Int64) :
    (machine.atop below).steps code = .error ⟨halt.error, halt.state.atop below⟩ := by
  obtain ⟨k, reached, instruction, hreached, hget, hstep⟩ := foldlM_eq_error_iff.mp h
  exact foldlM_eq_error_iff.mpr ⟨k, reached.atop below, instruction,
    steps_atop_of_ok hreached below, hget, step_atop_of_error hstep herror below⟩

/-- Code cannot see below its own operands.  Unless it runs out of them, it ends atop
other values as it would without: with the same error if there is one, the same
bindings and the same printed values, and with those values below the stack that it
would leave. -/
theorem code_cannot_see_below (machine : Machine) (code : Code) (below : List Int64) :
    (∀ final, machine.steps code = .ok final →
      (machine.atop below).steps code = .ok (final.atop below)) ∧
    ∀ halt, machine.steps code = .error halt → ¬ halt.error.IsPrematureEnd →
      (machine.atop below).steps code = .error ⟨halt.error, halt.state.atop below⟩ :=
  ⟨fun _ hsteps => steps_atop_of_ok hsteps below,
    fun _ hsteps herror => steps_atop_of_error hsteps herror below⟩

theorem code_cannot_see_below_division :
    let machine : Machine :=
      { bindings := Bindings.empty.assign "x" 4, printed := #[9], stack := [3] }
    let code : Code := [.load "x", .print, .pushConst 0, .binary .div, .store "x"]
    let halted : Machine := { machine with printed := #[9, 4], stack := [] }
    machine.steps (code.take 3) = .ok { halted with stack := [0, 3] } ∧
      (machine.atop [7, 8]).steps (code.take 3) = .ok { halted with stack := [0, 3, 7, 8] } ∧
      machine.steps code = .error ⟨.divideByZero, halted⟩ ∧
      (machine.atop [7, 8]).steps code =
        .error ⟨.divideByZero, { halted with stack := [7, 8] }⟩ := by
  intro machine code halted
  have hfirst : machine.steps (code.take 3) = .ok { halted with stack := [0, 3] } := rfl
  have hcode : machine.steps code = .error ⟨.divideByZero, halted⟩ := rfl
  have herror : ¬ RuntimeError.divideByZero.IsPrematureEnd := by
    rintro ⟨_, _, _, ⟨⟩⟩
  exact ⟨hfirst, (code_cannot_see_below machine (code.take 3) [7, 8]).1 _ hfirst, hcode,
    (code_cannot_see_below machine code [7, 8]).2 _ hcode herror⟩

example :
    ({} : Machine).steps [.print] = .error ⟨.prematureEnd "PRINT" 1 0, {}⟩ ∧
      (({} : Machine).atop [1]).steps [.print] = .ok { printed := #[1] } :=
  ⟨rfl, rfl⟩

end Machine

end Polish
