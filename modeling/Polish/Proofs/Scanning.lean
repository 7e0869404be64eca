import Polish.Proofs.ParserState
import Polish.Proofs.Reduction

namespace Polish

namespace Fragment

/-- The fragment was made of the words.  It is kept apart as a target just if they are
one identifier, and the depth that it records is that of its expression. -/
structure StemsFrom (fragment : Fragment) (words : List String) : Prop where
  spelled : fragment.toExpr.SpelledBy words
  target_iff (name : String) :
    fragment = .target name ↔ words = [name] ∧ Token.ofWord name = .identifier name
  depth_eq : fragment.depth = fragment.toExpr.depth
  depth_le : fragment.depth ≤ depthLimit

theorem ofExpr_eq_target_iff {e : Expr} {name : String} :
    ofExpr e = .target name ↔ e = .var name := by
  cases e with
  | var other => simp
  | const value | binary op left right | unary op operand => simp [ofExpr]

theorem stemsFrom_ofExpr {e : Expr} {words : List String} (h : e.SpelledBy words)
    (hdepth : e.depth ≤ depthLimit) : (ofExpr e).StemsFrom words where
  spelled := by rwa [toExpr_ofExpr]
  target_iff name := by
    rw [ofExpr_eq_target_iff]
    constructor
    · rintro rfl
      exact Expr.SpelledBy.var_iff.mp h
    · rintro ⟨rfl, hname⟩
      have hinj : e = .var name ∧ ([] : List String) = [] := h.append_inj (.var hname) rfl
      exact hinj.1
  depth_eq := by rw [depth_ofExpr, toExpr_ofExpr]
  depth_le := by rwa [depth_ofExpr]

theorem stemsFrom_of_stackOf {words : List String} {stack : List Fragment}
    (h : stackOf words = .ok stack) : InOrder StemsFrom stack words := by
  obtain ⟨exprs, rfl, hspelled, hdepths⟩ := exists_of_stackOf h
  exact hspelled.map fun e he part hpart => stemsFrom_ofExpr hpart (hdepths e he)

end Fragment

namespace Parsing

theorem takeWords_append (front back : List String) :
    takeWords (front ++ back) = takeWords back >>= fun _ => takeWords front := by
  simp [takeWords]

theorem stackOf_of_takeWords {parser reached : Parser} {words : List String}
    (h : (takeWords words).run { parser with stack := [] } = (.ok (), reached)) :
    Fragment.stackOf words = .ok reached.stack := by
  obtain ⟨names, stack, hrun, hstack⟩ := run_takeWords words { parser with stack := [] }
  rw [hrun] at h
  obtain ⟨hresult, rfl⟩ := Prod.mk.inj h
  rcases hfold : words.foldrM Fragment.push [] with error | next
  · rw [hfold] at hresult
    cases hresult
  · rw [hstack next hfold]
    exact hfold

/-- At any point of its scan a parser has taken the last words of a cluster.  If none of
them was an error, its stack, read from the top, stems from just these words, whatever
it held before, and the parser goes on from there with the words before them. -/
theorem stack_spells_words_taken (parser reached : Parser) (cluster : Cluster)
    (ahead taken : List String) (hcluster : cluster.operands = ahead ++ taken)
    (htaken : (takeWords taken).run { parser with stack := [] } = (.ok (), reached)) :
    InOrder Fragment.StemsFrom reached.stack taken ∧
      (takeCluster cluster).run parser =
        (do
          takeWords ahead
          let statement ← statementOf cluster.introducer
          Statement.finish statement (← get).stack : Parsing Statement).run reached := by
  refine ⟨Fragment.stemsFrom_of_stackOf (stackOf_of_takeWords htaken), ?_⟩
  rw [takeCluster, run_bind_of_ok (run_modify _ parser), hcluster, takeWords_append, bind_assoc,
    run_bind_of_ok htaken]

theorem stack_spells_words_taken_operand :
    let parser : Parser := { stack := [.target "left"] }
    let cluster : Cluster := ⟨.assign, ["x", "-", "_", "a", "007", "b"]⟩
    let taken := ["-", "_", "a", "007", "b"]
    let difference : Expr := .binary .sub (.unary .negate (.var "a")) (.const 7)
    let reached : Parser :=
      { names := ["a", "b"], stack := [.expr difference 3, .target "b"] }
    (takeWords taken).run { parser with stack := [] } = (.ok (), reached) ∧
      InOrder Fragment.StemsFrom reached.stack taken ∧
      ((takeCluster cluster).run parser).1 =
        .error (.trailingOperands (.assign "x" difference) 1) := by
  intro parser cluster taken difference reached
  have htaken : (takeWords taken).run { parser with stack := [] } = (.ok (), reached) := by
    decide +kernel
  obtain ⟨hstack, hcluster⟩ :=
    stack_spells_words_taken parser reached cluster ["x"] taken rfl htaken
  rw [hcluster]
  exact ⟨htaken, hstack, by decide +kernel⟩

end Parsing

end Polish
