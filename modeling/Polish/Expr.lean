import Polish.Decimal
import Polish.Operator

namespace Polish

inductive Expr where
  | const (value : Int64)
  | var (name : String)
  | binary (op : BinaryOp) (left right : Expr)
  | unary (op : UnaryOp) (operand : Expr)
  deriving DecidableEq, Repr

namespace Expr

/-- Number of levels of an expression; a leaf has one. -/
def depth : Expr → Nat
  | const _ => 1
  | var _ => 1
  | binary _ left right => max left.depth right.depth + 1
  | unary _ operand => operand.depth + 1

def text : Expr → String
  | const value => Decimal.text value.toInt
  | var name => name
  | binary op left right =>
      "( " ++ left.text ++ " " ++ op.symbol ++ " " ++ right.text ++ " )"
  | unary op operand => op.symbol ++ operand.text

/-- The words that spell an expression, every operator before its operands. -/
def words : Expr → List String
  | const value => [Decimal.text value.toInt]
  | var name => [name]
  | binary op left right => op.symbol :: (left.words ++ right.words)
  | unary op operand => op.symbol :: operand.words

end Expr

end Polish
