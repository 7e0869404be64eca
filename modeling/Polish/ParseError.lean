import Polish.ErrorKind
import Polish.Program

namespace Polish

inductive ParseError where
  /-- A word of no class, or an introducer among the operands of another. -/
  | illegalToken (word : String)
  /-- An assignment whose target is an expression. -/
  | notAVariable (found : Expr)
  | missingIntroducer (word : String)
  | missingOperand (word : String)
  /-- A complete statement with operands left over. -/
  | trailingOperands (statement : Statement) (count : Nat)
  | tooDeep (word : String) (limit : Nat)
  deriving DecidableEq, Repr

namespace ParseError

def kind : ParseError → ErrorKind
  | missingOperand _ => .prematureEnd
  | illegalToken _ => .illegalValue
  | notAVariable _ => .illegalValue
  | missingIntroducer _ => .illegalValue
  | trailingOperands _ _ => .illegalValue
  | tooDeep _ _ => .illegalValue

def message : ParseError → String
  | illegalToken word => "Illegal token '" ++ word ++ "'"
  | notAVariable found => "Assignment target must be a variable, found " ++ found.text
  | missingIntroducer word => "Program must start with ':=' or '@', found '" ++ word ++ "'"
  | missingOperand word => "Missing operand for '" ++ word ++ "'"
  | trailingOperands statement count =>
      "Statement '" ++ statement.text ++ "' leaves " ++ Decimal.text count ++
        " unused operand(s)"
  | tooDeep word limit =>
      "Expression under '" ++ word ++ "' nests deeper than " ++ Decimal.text limit ++
        " levels"

end ParseError

end Polish
