import Polish.Expr
import Polish.Token

namespace Polish

inductive Statement where
  | assign (target : String) (value : Expr)
  | print (value : Expr)
  deriving DecidableEq, Repr

namespace Statement

def text : Statement → String
  | assign target value => target ++ " := " ++ value.text
  | print value => "Print " ++ value.text

def words : Statement → List String
  | assign target value => Introducer.assign.word :: target :: value.words
  | print value => Introducer.print.word :: value.words

end Statement

abbrev Program := List Statement

namespace Program

def text (program : Program) : String :=
  String.join (program.map fun statement => statement.text ++ "\n")

def words (program : Program) : List String :=
  program.flatMap Statement.words

end Program

end Polish
