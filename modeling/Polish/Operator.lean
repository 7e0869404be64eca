namespace Polish

inductive BinaryOp where
  | add
  | sub
  | mul
  | div
  deriving DecidableEq, Repr

inductive UnaryOp where
  | negate
  | sqrt
  deriving DecidableEq, Repr

namespace BinaryOp

def symbol : BinaryOp → String
  | .add => "+"
  | .sub => "-"
  | .mul => "*"
  | .div => "/"

def all : List BinaryOp :=
  [.add, .sub, .mul, .div]

def ofSymbol? (word : String) : Option BinaryOp :=
  all.find? (·.symbol == word)

@[simp] theorem ofSymbol?_symbol (op : BinaryOp) : ofSymbol? op.symbol = some op := by
  cases op <;> decide

theorem symbol_of_ofSymbol? {word : String} {op : BinaryOp}
    (h : ofSymbol? word = some op) : op.symbol = word := by
  simpa using List.find?_some h

end BinaryOp

namespace UnaryOp

def symbol : UnaryOp → String
  | .negate => "_"
  | .sqrt => "#"

def all : List UnaryOp :=
  [.negate, .sqrt]

def ofSymbol? (word : String) : Option UnaryOp :=
  all.find? (·.symbol == word)

theorem symbol_of_ofSymbol? {word : String} {op : UnaryOp}
    (h : ofSymbol? word = some op) : op.symbol = word := by
  simpa using List.find?_some h

end UnaryOp

end Polish
