import Polish.Words

namespace Polish

/-- A text that fits on one line. -/
def OneLine (text : String) : Prop :=
  '\n' ∉ text.toList

instance (text : String) : Decidable (OneLine text) :=
  inferInstanceAs (Decidable ('\n' ∉ text.toList))

def unlines (lines : List String) : String :=
  String.join (lines.map (· ++ "\n"))

theorem toList_unlines_cons (line : String) (lines : List String) :
    (unlines (line :: lines)).toList = line.toList ++ '\n' :: (unlines lines).toList := by
  simp [unlines, String.join_cons]

theorem splitOnP_unlines {lines : List String} (h : ∀ line ∈ lines, OneLine line) :
    (unlines lines).toList.splitOnP (· == '\n') = lines.map String.toList ++ [[]] := by
  induction lines with
  | nil => rfl
  | cons line lines ih =>
      obtain ⟨hline, hlines⟩ := List.forall_mem_cons.mp h
      have hchars : ∀ c ∈ line.toList, (c == '\n') = false := by
        intro c hc
        apply beq_false_of_ne
        rintro rfl
        exact hline hc
      rw [toList_unlines_cons, List.splitOnP_append_cons (p := (· == '\n')) _ _ rfl,
        List.splitOnP_eq_singleton hchars, ih hlines]
      rfl

theorem eq_of_unlines_eq {first second : List String} (hfirst : ∀ line ∈ first, OneLine line)
    (hsecond : ∀ line ∈ second, OneLine line) (h : unlines first = unlines second) :
    first = second := by
  have hlines : first.map String.toList ++ [[]] = second.map String.toList ++ [[]] := by
    rw [← splitOnP_unlines hfirst, ← splitOnP_unlines hsecond, h]
  apply (List.map_inj_right fun _ _ => String.toList_inj.mp).mp
  exact List.append_cancel_right hlines

end Polish
