namespace Polish

inductive ErrorKind where
  | illegalValue
  | uninitialized
  | divideByZero
  | prematureEnd
  deriving DecidableEq, Repr

def ErrorKind.name : ErrorKind → String
  | illegalValue => "ILLEGAL_VALUE"
  | uninitialized => "UNINITIALIZED"
  | divideByZero => "DIVIDE_BY_ZERO"
  | prematureEnd => "PREMATURE_END"

end Polish
