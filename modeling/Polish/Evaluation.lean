import Polish.Arithmetic
import Polish.Bindings
import Polish.Program

namespace Polish

structure Store where
  bindings : Bindings := .empty
  printed : Array Int64 := #[]
  deriving DecidableEq

namespace Bindings

def load (bindings : Bindings) (name : String) : Except RuntimeError Int64 :=
  match bindings.get? name with
  | some value => .ok value
  | none => .error (.uninitialized name)

end Bindings

namespace Expr

def eval (bindings : Bindings) : Expr → Except RuntimeError Int64
  | const value => .ok value
  | var name => bindings.load name
  | binary op left right => do
      let left ← left.eval bindings
      let right ← right.eval bindings
      op.apply left right
  | unary op operand => do
      let operand ← operand.eval bindings
      op.apply operand

end Expr

namespace Statement

def value : Statement → Expr
  | assign _ value => value
  | print value => value

/-- What a statement does once its expression has a value. -/
def commit (statement : Statement) (value : Int64) (store : Store) : Store :=
  match statement with
  | assign target _ => { store with bindings := store.bindings.assign target value }
  | print _ => { store with printed := store.printed.push value }

def exec (store : Store) (statement : Statement) : Except (Halt Store) Store :=
  match statement.value.eval store.bindings with
  | .ok value => .ok (statement.commit value store)
  | .error error => .error ⟨error, store⟩

end Statement

namespace Program

/-- Runs the statements in order, up to the first that fails. -/
def exec (store : Store) (program : Program) : Except (Halt Store) Store :=
  program.foldlM Statement.exec store

@[simp] theorem exec_nil (store : Store) : exec store [] = .ok store :=
  rfl

theorem exec_append (store : Store) (first second : Program) :
    exec store (first ++ second) = exec store first >>= fun store => exec store second := by
  simp [exec, List.foldlM_append]

end Program

end Polish
