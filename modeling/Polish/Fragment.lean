import Polish.Cluster
import Polish.ParseError

/-!
Reducing a cluster to a statement.

The operands of a cluster are taken from the last to the first over a stack of
fragments.  An operator stands before its operands, so they are on the stack
when it is reached, the nearest one on top.
-/

namespace Polish

def depthLimit : Nat := 1024

/-- A reduced piece of a statement.  A lone identifier may become the target of
an assignment or the reading of a variable, so it is kept apart. -/
inductive Fragment where
  | target (name : String)
  | expr (value : Expr) (depth : Nat)
  deriving DecidableEq, Repr

namespace Fragment

def depth : Fragment → Nat
  | target _ => 1
  | expr _ depth => depth

def toExpr : Fragment → Expr
  | target name => .var name
  | expr value _ => value

/-- The fragment of an operation whose deepest operand has the given depth. -/
def operation (word : String) (depth : Nat) (value : Expr) : Except ParseError Fragment :=
  if depth + 1 > depthLimit then
    .error (.tooDeep word depthLimit)
  else
    .ok (.expr value (depth + 1))

/-- Takes one word, which stands before everything on the stack. -/
def push (word : String) (stack : List Fragment) : Except ParseError (List Fragment) :=
  match Token.ofWord word, stack with
  | .integer value, stack => .ok (.expr (.const value) 1 :: stack)
  | .identifier name, stack => .ok (.target name :: stack)
  | .binary op, left :: right :: stack =>
      (operation word (max left.depth right.depth)
        (.binary op left.toExpr right.toExpr)).map (· :: stack)
  | .unary op, operand :: stack =>
      (operation word operand.depth (.unary op operand.toExpr)).map (· :: stack)
  | .binary _, _ => .error (.missingOperand word)
  | .unary _, _ => .error (.missingOperand word)
  | .introducer _, _ => .error (.illegalToken word)
  | .illegal, _ => .error (.illegalToken word)

def stackOf (words : List String) : Except ParseError (List Fragment) :=
  words.foldrM push []

@[simp] theorem stackOf_nil : stackOf [] = .ok [] :=
  rfl

theorem stackOf_cons (word : String) (words : List String) :
    stackOf (word :: words) = stackOf words >>= push word := by
  simp [stackOf, List.foldrM_cons]

end Fragment

namespace Statement

def finish (statement : Statement) (rest : List Fragment) : Except ParseError Statement :=
  if rest.isEmpty then
    .ok statement
  else
    .error (.trailingOperands statement rest.length)

/-- The statement that an introducer makes of the stack of its operands. -/
def ofStack : Introducer → List Fragment → Except ParseError Statement
  | .assign, .target name :: value :: rest => finish (.assign name value.toExpr) rest
  | .assign, .expr found _ :: _ => .error (.notAVariable found)
  | .assign, _ => .error (.missingOperand Introducer.assign.word)
  | .print, value :: rest => finish (.print value.toExpr) rest
  | .print, [] => .error (.missingOperand Introducer.print.word)

end Statement

def Cluster.parse (cluster : Cluster) : Except ParseError Statement :=
  Fragment.stackOf cluster.operands >>= Statement.ofStack cluster.introducer

end Polish
