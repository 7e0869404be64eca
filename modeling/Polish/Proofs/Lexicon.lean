import Polish.Proofs.Spacing
import Polish.Token

namespace Polish

namespace Decimal

theorem isDigit_of_mem_digits {n : Nat} {c : Char} (h : c ∈ digits n) : c.isDigit = true :=
  Nat.isDigit_of_mem_toDigits (by decide) (by decide) h

theorem value?_digits (n : Nat) : value? (digits n) = some n := by
  have hempty : (digits n).isEmpty = false := by
    rw [List.isEmpty_eq_false_iff]
    exact Nat.toDigits_ne_nil
  have hall : (digits n).all Char.isDigit = true := by
    rw [List.all_eq_true]
    exact fun c hc => isDigit_of_mem_digits hc
  rw [value?, hempty, hall, digits, Nat.ofDigitChars_ten_toDigits]
  rfl

theorem isDigit_of_value? {c : Char} {cs : List Char} {n : Nat}
    (h : value? (c :: cs) = some n) : c.isDigit = true := by
  rcases hc : c.isDigit with _ | _
  · simp [value?, hc] at h
  · rfl

theorem signedValue?_of_value? {cs : List Char} {n : Nat} (h : value? cs = some n) :
    signedValue? cs = some (n : Int) := by
  rw [signedValue?.eq_def]
  split
  · exact absurd (isDigit_of_value? h) (by decide)
  · exact absurd (isDigit_of_value? h) (by decide)
  · rw [h]
    rfl

theorem signedValue?_minus {cs : List Char} {n : Nat} (h : value? cs = some n) :
    signedValue? ('-' :: cs) = some (-(n : Int)) := by
  simp [signedValue?, h]

theorem signedValue?_plus {cs : List Char} {n : Nat} (h : value? cs = some n) :
    signedValue? ('+' :: cs) = some (n : Int) := by
  simp [signedValue?, h]

theorem signedValue?_text (i : Int) : signedValue? (text i).toList = some i := by
  rw [text]
  split
  · rename_i hneg
    rw [String.toList_ofList, signedValue?_minus (value?_digits _), Option.some.injEq]
    omega
  · rename_i hpos
    rw [String.toList_ofList, signedValue?_of_value? (value?_digits _), Option.some.injEq]
    omega

theorem text_injective : Function.Injective text := by
  intro i j h
  have hvalue := congrArg (fun word => signedValue? word.toList) h
  simp only [signedValue?_text] at hvalue
  exact Option.some.inj hvalue

theorem mem_text {i : Int} {c : Char} (h : c ∈ (text i).toList) : c.isDigit = true ∨ c = '-' := by
  rw [text] at h
  split at h
  · rw [String.toList_ofList] at h
    rcases List.mem_cons.mp h with rfl | h
    · exact Or.inr rfl
    · exact Or.inl (isDigit_of_mem_digits h)
  · rw [String.toList_ofList] at h
    exact Or.inl (isDigit_of_mem_digits h)

theorem exists_cons_text (i : Int) :
    ∃ c cs, (text i).toList = c :: cs ∧ (c.isDigit = true ∨ c = '-') := by
  rcases h : (text i).toList with _ | ⟨c, cs⟩
  · have hvalue := signedValue?_text i
    rw [h] at hvalue
    cases hvalue
  · exact ⟨c, cs, rfl, mem_text (h ▸ List.mem_cons_self)⟩

theorem head_of_signedValue? {c : Char} {cs : List Char} {i : Int}
    (h : signedValue? (c :: cs) = some i) : c = '-' ∨ c = '+' ∨ c.isDigit = true := by
  rw [signedValue?.eq_def] at h
  split at h
  · rename_i heq
    exact Or.inl (List.cons.inj heq).1
  · rename_i heq
    exact Or.inr (Or.inl (List.cons.inj heq).1)
  · rcases hvalue : value? (c :: cs) with _ | n
    · simp [hvalue] at h
    · exact Or.inr (Or.inr (isDigit_of_value? hvalue))

end Decimal

theorem isAlpha_of_isDigit {c : Char} (h : c.isDigit = true) : c.isAlpha = false := by
  obtain ⟨-, hle⟩ := Char.isDigit_iff_toNat.mp h
  have hafter {letter : Char} (hletter : '9'.toNat < letter.toNat) : ¬letter.val ≤ c.val := by
    intro hc
    exact absurd (UInt32.le_iff_toNat_le.mp hc) (Nat.not_le.mpr (Nat.lt_of_le_of_lt hle hletter))
  rw [Bool.eq_false_iff]
  intro halpha
  rcases (Bool.or_eq_true _ _).mp halpha with hupper | hlower
  · exact hafter (by decide) (of_decide_eq_true hupper).1
  · exact hafter (by decide) (of_decide_eq_true ((Bool.and_eq_true _ _).mp hlower).1)

/-- A word is a literal of the value that it has as a numeral, if that fits into 64
bits. -/
theorem literal?_eq_some_iff {word : String} {value : Int64} :
    literal? word = some value ↔ Decimal.signedValue? word.toList = some value.toInt := by
  rw [literal?]
  constructor
  · intro h
    split at h
    · cases h
    · rename_i i hvalue
      split at h
      · rename_i hrange
        obtain rfl := Option.some.inj h
        rw [Int64.toInt_minValue, Int64.toInt_maxValue] at hrange
        rw [hvalue, Int64.toInt_ofInt_of_le (by omega) (by omega)]
      · cases h
  · intro h
    rw [h]
    simp only
    rw [if_pos ⟨value.minValue_le_toInt, value.toInt_le⟩, Int64.ofInt_toInt]

theorem literal?_text (value : Int64) : literal? (Decimal.text value.toInt) = some value :=
  literal?_eq_some_iff.mpr (Decimal.signedValue?_text _)

theorem isIdentifier_of_signedValue? {word : String} {i : Int}
    (h : Decimal.signedValue? word.toList = some i) : isIdentifier word = false := by
  rcases hword : word.toList with _ | ⟨c, cs⟩
  · rw [isIdentifier, hword]
  · rw [isIdentifier, hword]
    rw [hword] at h
    rcases Decimal.head_of_signedValue? h with rfl | rfl | hdigit
    · rfl
    · rfl
    · exact isAlpha_of_isDigit hdigit

namespace Token

/-- Neither an introducer nor an operator. -/
def Plain (word : String) : Prop :=
  (∀ introducer : Introducer, introducer.word ≠ word) ∧
    (∀ op : BinaryOp, op.symbol ≠ word) ∧ ∀ op : UnaryOp, op.symbol ≠ word

theorem ofWord_of_plain {word : String} (h : Plain word) :
    ofWord word =
      if isIdentifier word then
        .identifier word
      else
        match literal? word with
        | some value => .integer value
        | none => .illegal := by
  obtain ⟨hintroducer, hbinary, hunary⟩ := h
  rw [ofWord]
  split
  · rename_i introducer hword
    exact absurd (Introducer.word_of_ofWord? hword) (hintroducer introducer)
  · split
    · rename_i op hword
      exact absurd (BinaryOp.symbol_of_ofSymbol? hword) (hbinary op)
    · split
      · rename_i op hword
        exact absurd (UnaryOp.symbol_of_ofSymbol? hword) (hunary op)
      · rfl

theorem plain_of_isIdentifier {word : String} (h : isIdentifier word = true) : Plain word := by
  refine ⟨?_, ?_, ?_⟩
  · rintro introducer rfl
    revert h
    cases introducer <;> decide
  · rintro op rfl
    revert h
    cases op <;> decide
  · rintro op rfl
    revert h
    cases op <;> decide

theorem plain_of_signedValue? {word : String} {i : Int}
    (h : Decimal.signedValue? word.toList = some i) : Plain word := by
  refine ⟨?_, ?_, ?_⟩
  · rintro introducer rfl
    cases introducer <;> cases h
  · rintro op rfl
    cases op <;> cases h
  · rintro op rfl
    cases op <;> cases h

theorem ofWord_of_signedValue? {word : String} {i : Int}
    (h : Decimal.signedValue? word.toList = some i) :
    ofWord word =
      match literal? word with
      | some value => .integer value
      | none => .illegal := by
  rw [ofWord_of_plain (plain_of_signedValue? h), isIdentifier_of_signedValue? h]
  rfl

theorem ofWord_of_literal? {word : String} {value : Int64} (h : literal? word = some value) :
    ofWord word = .integer value := by
  rw [ofWord_of_signedValue? (literal?_eq_some_iff.mp h), h]

theorem ofWord_eq_integer_iff {word : String} {value : Int64} :
    ofWord word = .integer value ↔ literal? word = some value := by
  constructor
  · intro h
    simp only [ofWord] at h
    grind
  · exact ofWord_of_literal?

theorem ofWord_text (value : Int64) : ofWord (Decimal.text value.toInt) = .integer value :=
  ofWord_of_literal? (literal?_text value)

theorem ofWord_eq_identifier_iff {word : String} :
    ofWord word = .identifier word ↔ isIdentifier word = true := by
  constructor
  · intro h
    simp only [ofWord] at h
    grind
  · intro h
    rw [ofWord_of_plain (plain_of_isIdentifier h), if_pos h]

end Token

theorem not_isBlank_of_digit {c : Char} (h : c.isDigit = true ∨ c = '-') : isBlank c = false := by
  rcases h with h | rfl
  · obtain ⟨hlow, hhigh⟩ : 48 ≤ c.toNat ∧ c.toNat ≤ 57 := Char.isDigit_iff_toNat.mp h
    have hmiss : ∀ range ∈ blankRanges, range.2 < 48 ∨ 57 < range.1 := by decide
    rw [isBlank, List.any_eq_false]
    intro range hrange hinside
    simp only [Bool.and_eq_true, decide_eq_true_eq] at hinside
    have hrangeMiss := hmiss range hrange
    omega
  · decide

theorem Decimal.isWord_text (i : Int) : IsWord (text i) := by
  obtain ⟨c, cs, htext, -⟩ := exists_cons_text i
  constructor
  · intro hempty
    rw [hempty] at htext
    cases htext
  · intro c hc
    exact not_isBlank_of_digit (mem_text hc)

theorem Introducer.isWord_word (introducer : Introducer) : IsWord introducer.word := by
  cases introducer <;> decide

theorem BinaryOp.isWord_symbol (op : BinaryOp) : IsWord op.symbol := by
  cases op <;> decide

theorem UnaryOp.isWord_symbol (op : UnaryOp) : IsWord op.symbol := by
  cases op <;> decide

end Polish
