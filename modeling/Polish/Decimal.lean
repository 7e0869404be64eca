namespace Polish.Decimal

/-- The decimal digits of a natural number, most significant first. -/
def digits (n : Nat) : List Char :=
  Nat.toDigits 10 n

def text (i : Int) : String :=
  if i < 0 then
    String.ofList ('-' :: digits i.natAbs)
  else
    String.ofList (digits i.natAbs)

/-- The value of a word of ASCII digits.  The empty word has none. -/
def value? (cs : List Char) : Option Nat :=
  if !cs.isEmpty && cs.all Char.isDigit then
    some (Nat.ofDigitChars 10 cs 0)
  else
    none

def signedValue? : List Char → Option Int
  | '-' :: cs => (value? cs).map fun n => -(n : Int)
  | '+' :: cs => (value? cs).map fun n => (n : Int)
  | cs => (value? cs).map fun n => (n : Int)

end Polish.Decimal
