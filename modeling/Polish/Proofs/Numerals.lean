import Mathlib.Data.List.Induction
import Mathlib.Data.Nat.Digits.Defs
import Polish.Expr
import Polish.Proofs.Exactness
import Polish.Proofs.Lexicon

namespace Polish

inductive Sign where
  | minus
  | plus
  deriving DecidableEq, Repr

def Sign.char : Sign → Char
  | minus => '-'
  | plus => '+'

/-- A sign or none, and one or more decimal digits, the most significant first. -/
structure Numeral where
  sign : Option Sign
  first : Fin 10
  rest : List (Fin 10)
  deriving DecidableEq, Repr

namespace Numeral

def digitChar (digit : Fin 10) : Char :=
  Nat.digitChar digit.val

def digits (numeral : Numeral) : List (Fin 10) :=
  numeral.first :: numeral.rest

/-- The digits by their places, the last one in the place of the units. -/
def magnitude (numeral : Numeral) : Nat :=
  Nat.ofDigits 10 (numeral.digits.map Fin.val).reverse

def value (numeral : Numeral) : Int :=
  match numeral.sign with
  | some .minus => -(numeral.magnitude : Int)
  | some .plus | none => numeral.magnitude

def chars (numeral : Numeral) : List Char :=
  numeral.sign.toList.map Sign.char ++ numeral.digits.map digitChar

def text (numeral : Numeral) : String :=
  String.ofList numeral.chars

theorem toNat_digitChar (digit : Fin 10) : (digitChar digit).toNat = 48 + digit.val :=
  Nat.toNat_digitChar_of_lt_ten digit.isLt

theorem isDigit_digitChar (digit : Fin 10) : (digitChar digit).isDigit = true := by
  rw [digitChar, Nat.isDigit_digitChar]
  exact decide_eq_true digit.isLt

theorem exists_digitChar {c : Char} (h : c.isDigit = true) :
    ∃ digit : Fin 10, digitChar digit = c := by
  obtain ⟨hlow, hhigh⟩ : 48 ≤ c.toNat ∧ c.toNat ≤ 57 := Char.isDigit_iff_toNat.mp h
  refine ⟨⟨c.toNat - 48, by omega⟩, Char.toNat_inj.mp ?_⟩
  rw [toNat_digitChar]
  exact Nat.add_sub_of_le hlow

theorem ofDigitChars_digitChar (digits : List (Fin 10)) :
    Nat.ofDigitChars 10 (digits.map digitChar) 0 =
      Nat.ofDigits 10 (digits.map Fin.val).reverse := by
  induction digits using List.reverseRecOn with
  | nil => rfl
  | append_singleton digits last ih =>
      have hlast : (digitChar last).toNat - '0'.toNat = last.val := by
        rw [toNat_digitChar]
        exact Nat.add_sub_cancel_left 48 last.val
      calc
        Nat.ofDigitChars 10 ((digits ++ [last]).map digitChar) 0 =
            10 * Nat.ofDigitChars 10 (digits.map digitChar) 0 + last.val := by
          rw [List.map_append, Nat.ofDigitChars_append, List.map_singleton,
            Nat.ofDigitChars_cons, hlast, Nat.ofDigitChars_nil]
        _ = last.val + 10 * Nat.ofDigits 10 (digits.map Fin.val).reverse := by
          rw [ih, Nat.add_comm]
        _ = Nat.ofDigits 10 ((digits ++ [last]).map Fin.val).reverse := by
          rw [List.map_append, List.map_singleton, List.reverse_append, List.reverse_singleton,
            List.singleton_append, Nat.ofDigits_cons]

theorem exists_map_digitChar {cs : List Char} (h : ∀ c ∈ cs, c.isDigit = true) :
    ∃ digits : List (Fin 10), digits.map digitChar = cs := by
  induction cs with
  | nil => exact ⟨[], rfl⟩
  | cons c cs ih =>
      obtain ⟨hc, hcs⟩ := List.forall_mem_cons.mp h
      obtain ⟨digit, rfl⟩ := exists_digitChar hc
      obtain ⟨digits, rfl⟩ := ih hcs
      exact ⟨digit :: digits, rfl⟩

end Numeral

namespace Decimal

open Numeral (digitChar)

theorem exists_digits_of_value? {cs : List Char} {n : Nat} (h : value? cs = some n) :
    ∃ (first : Fin 10) (rest : List (Fin 10)), (first :: rest).map digitChar = cs := by
  rw [value?] at h
  split at h
  · rename_i hcs
    simp only [Bool.and_eq_true, Bool.not_eq_true', List.isEmpty_eq_false_iff,
      List.all_eq_true] at hcs
    obtain ⟨digits, rfl⟩ := Numeral.exists_map_digitChar hcs.2
    obtain ⟨first, rest, rfl⟩ := List.exists_cons_of_ne_nil (mt List.map_eq_nil_iff.mpr hcs.1)
    exact ⟨first, rest, rfl⟩
  · cases h

theorem value?_digitChar (numeral : Numeral) :
    value? (numeral.digits.map digitChar) = some numeral.magnitude := by
  have hall : (numeral.digits.map digitChar).all Char.isDigit = true := by
    simp [Numeral.isDigit_digitChar]
  rw [value?, hall, Numeral.ofDigitChars_digitChar]
  rfl

theorem signedValue?_chars (numeral : Numeral) :
    signedValue? numeral.chars = some numeral.value := by
  obtain ⟨sign, first, rest⟩ := numeral
  have hvalue := value?_digitChar ⟨sign, first, rest⟩
  cases sign with
  | none => exact signedValue?_of_value? hvalue
  | some sign =>
      cases sign with
      | minus => exact signedValue?_minus hvalue
      | plus => exact signedValue?_plus hvalue

theorem exists_value?_of_signedValue? {cs : List Char} {i : Int} (h : signedValue? cs = some i) :
    ∃ (sign : Option Sign) (digits : List Char) (n : Nat),
      sign.toList.map Sign.char ++ digits = cs ∧ value? digits = some n := by
  rw [signedValue?.eq_def] at h
  split at h
  · rename_i digits
    cases hvalue : value? digits with
    | none => simp [hvalue] at h
    | some n => exact ⟨some .minus, digits, n, rfl, hvalue⟩
  · rename_i digits
    cases hvalue : value? digits with
    | none => simp [hvalue] at h
    | some n => exact ⟨some .plus, digits, n, rfl, hvalue⟩
  · cases hvalue : value? cs with
    | none => simp [hvalue] at h
    | some n => exact ⟨none, cs, n, rfl, hvalue⟩

theorem exists_chars_of_signedValue? {cs : List Char} {i : Int} (h : signedValue? cs = some i) :
    ∃ numeral : Numeral, numeral.chars = cs := by
  obtain ⟨sign, digits, n, rfl, hvalue⟩ := exists_value?_of_signedValue? h
  obtain ⟨first, rest, rfl⟩ := exists_digits_of_value? hvalue
  exact ⟨⟨sign, first, rest⟩, rfl⟩

theorem signedValue?_eq_some_iff {cs : List Char} {i : Int} :
    signedValue? cs = some i ↔ ∃ numeral : Numeral, numeral.chars = cs ∧ numeral.value = i := by
  constructor
  · intro h
    obtain ⟨numeral, rfl⟩ := exists_chars_of_signedValue? h
    rw [signedValue?_chars] at h
    exact ⟨numeral, rfl, Option.some.inj h⟩
  · rintro ⟨numeral, rfl, rfl⟩
    exact signedValue?_chars numeral

end Decimal

namespace Numeral

theorem signedValue?_text (numeral : Numeral) :
    Decimal.signedValue? numeral.text.toList = some numeral.value := by
  rw [text, String.toList_ofList, Decimal.signedValue?_chars]

theorem literal?_text (numeral : Numeral) :
    literal? numeral.text =
      if InRange numeral.value then some (Int64.ofInt numeral.value) else none := by
  rw [literal?, signedValue?_text]
  rfl

theorem literal?_eq_some_iff {word : String} {value : Int64} :
    literal? word = some value ↔
      ∃ numeral : Numeral, numeral.text = word ∧ numeral.value = value.toInt := by
  rw [Polish.literal?_eq_some_iff, Decimal.signedValue?_eq_some_iff]
  constructor
  · rintro ⟨numeral, hchars, hvalue⟩
    exact ⟨numeral, by rw [text, hchars, String.ofList_toList], hvalue⟩
  · rintro ⟨numeral, rfl, hvalue⟩
    exact ⟨numeral, by rw [text, String.toList_ofList], hvalue⟩

end Numeral

namespace Token

/-- A numeral, with or without a sign and of any length, is read as the integer that it
writes if that fits into 64 bits, and is illegal otherwise.  No other word is read as
an integer, and every 64-bit integer is read from its own text. -/
theorem integer_words_are_numerals :
    (∀ numeral : Numeral,
      ofWord numeral.text =
        if InRange numeral.value then .integer (Int64.ofInt numeral.value) else .illegal) ∧
    (∀ (word : String) (value : Int64),
      ofWord word = .integer value ↔
        ∃ numeral : Numeral, numeral.text = word ∧ numeral.value = value.toInt) ∧
    ∀ value : Int64, ofWord (Expr.const value).text = .integer value := by
  refine ⟨?_, ?_, ofWord_text⟩
  · intro numeral
    rw [ofWord_of_signedValue? numeral.signedValue?_text, numeral.literal?_text]
    by_cases hrange : InRange numeral.value
    · rw [if_pos hrange, if_pos hrange]
    · rw [if_neg hrange, if_neg hrange]
  · intro word value
    rw [ofWord_eq_integer_iff, Numeral.literal?_eq_some_iff]

example :
    ofWord "-00009223372036854775808" = .integer Int64.minValue ∧
      ofWord "+9223372036854775808" = .illegal := by
  decide +kernel

end Token

end Polish
