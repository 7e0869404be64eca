import Mathlib.Data.List.Lex
import Mathlib.Tactic.SplitIfs
import Polish.Bindings

namespace Polish

/-- The bytes of a text in UTF-8. -/
def utf8 (text : String) : List UInt8 :=
  text.toUTF8.data.toList

/-- The first byte in which two texts differ is smaller in the first text, or else the
second text goes on where the first one ends. -/
def ByteLt (first second : String) : Prop :=
  List.Lex (· < ·) (utf8 first) (utf8 second)

theorem utf8_eq_flatMap (text : String) :
    utf8 text = text.toList.flatMap String.utf8EncodeChar := by
  have htext : text.toByteArray = text.toList.utf8Encode := by
    rw [← String.toByteArray_ofList, String.ofList_toList]
  rw [utf8, String.toUTF8_eq_toByteArray, htext, List.utf8Encode, List.toList_data_toByteArray]

theorem lex_ofNat_cons_iff {m n : Nat} (hm : m < 256) (hn : n < 256) {u v : List UInt8} :
    List.Lex (· < ·) (UInt8.ofNat m :: u) (UInt8.ofNat n :: v) ↔
      m < n ∨ m = n ∧ List.Lex (· < ·) u v := by
  rw [List.cons_lex_cons_iff, UInt8.lt_iff_toNat_lt, ← UInt8.toNat_inj,
    UInt8.toNat_ofNat_of_lt' hm, UInt8.toNat_ofNat_of_lt' hn]

/-- What comes after the encodings of two different characters has no influence. -/
theorem lex_utf8EncodeChar_append {c d : Char} (h : c < d) (u v : List UInt8) :
    List.Lex (· < ·) (String.utf8EncodeChar c ++ u) (String.utf8EncodeChar d ++ v) := by
  have hlt : c.val.toNat < d.val.toNat := h
  have hd : d.val.toNat < 0x110000 := d.valid.elim (by omega) (by omega)
  -- `omega` relates neither the quotients to each other nor the highest digit to its remainder.
  have hdiv (n : Nat) : n / 64 / 64 = n / 4096 ∧ n / 4096 / 64 = n / 262144 :=
    ⟨Nat.div_div_eq_div_mul n 64 64, Nat.div_div_eq_div_mul n 4096 64⟩
  have hdivc := hdiv c.val.toNat
  have hdivd := hdiv d.val.toNat
  have hlead {n : Nat} (hn : n < 0x110000) : n / 262144 % 8 = n / 262144 := by omega
  have hleadc := hlead (Nat.lt_trans hlt hd)
  have hleadd := hlead hd
  simp only [String.utf8EncodeChar]
  split_ifs
  all_goals
    simp (disch := omega) only [List.cons_append, List.nil_append, lex_ofNat_cons_iff]
    omega

theorem lex_flatMap_utf8EncodeChar {cs ds : List Char} (h : List.Lex (· < ·) cs ds) :
    List.Lex (· < ·) (cs.flatMap String.utf8EncodeChar) (ds.flatMap String.utf8EncodeChar) := by
  induction h with
  | nil =>
      rename_i d ds
      rw [List.flatMap_cons]
      rcases hd : String.utf8EncodeChar d with _ | ⟨byte, bytes⟩
      · exact absurd hd String.utf8EncodeChar_ne_nil
      · exact .nil
  | rel hlt => exact lex_utf8EncodeChar_append hlt _ _
  | cons _ ih => exact .append_left _ ih _

theorem byteLt_of_lt {first second : String} (h : first < second) : ByteLt first second := by
  rw [ByteLt, utf8_eq_flatMap, utf8_eq_flatMap]
  exact lex_flatMap_utf8EncodeChar h

theorem byteLt_iff_lt {first second : String} : ByteLt first second ↔ first < second := by
  refine ⟨?_, byteLt_of_lt⟩
  intro h
  by_contra hnot
  rcases eq_or_ne second first with rfl | hne
  · exact List.lt_irrefl _ h
  · have hlt : second < first := Std.lt_of_le_of_ne (String.not_lt.mp hnot) hne
    exact List.lt_asymm h (byteLt_of_lt hlt)

end Polish
