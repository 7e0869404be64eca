import Polish.Evaluation
import Polish.Fragment
import Polish.Proofs.Outcome
import Polish.Proofs.Spelling

/-!
What the stack of fragments means.

The words that have been taken are the spellings of the expressions on the
stack, the top one first, and no expression is deeper than the limit.  Every
word that is taken keeps it so, and every spelling can be taken.
-/

namespace Polish

namespace Fragment

/-- The fragment of an expression.  A variable stays apart from the rest. -/
def ofExpr : Expr → Fragment
  | .var name => .target name
  | e => .expr e e.depth

@[simp] theorem ofExpr_var (name : String) : ofExpr (.var name) = .target name :=
  rfl

@[simp] theorem toExpr_ofExpr (e : Expr) : (ofExpr e).toExpr = e := by
  cases e <;> rfl

@[simp] theorem depth_ofExpr (e : Expr) : (ofExpr e).depth = e.depth := by
  cases e <;> rfl

theorem operation_of_le {depth : Nat} (h : depth + 1 ≤ depthLimit) (word : String)
    (value : Expr) : operation word depth value = .ok (.expr value (depth + 1)) := by
  rw [operation, if_neg (Nat.not_lt.mpr h)]

theorem of_map_operation {word : String} {depth : Nat} {value : Expr}
    {rest stack : List Fragment}
    (h : (operation word depth value).map (· :: rest) = .ok stack) :
    depth + 1 ≤ depthLimit ∧ stack = .expr value (depth + 1) :: rest := by
  by_cases hdepth : depth + 1 ≤ depthLimit
  · rw [operation_of_le hdepth] at h
    cases h
    exact ⟨hdepth, rfl⟩
  · rw [operation, if_pos (Nat.not_le.mp hdepth)] at h
    cases h

/-- The expression that a word makes of its operands. -/
inductive Makes : String → List Expr → Expr → Prop where
  | const {word : String} {value : Int64} (h : Token.ofWord word = .integer value) :
      Makes word [] (.const value)
  | var {name : String} (h : Token.ofWord name = .identifier name) :
      Makes name [] (.var name)
  | binary (op : BinaryOp) (left right : Expr) :
      Makes op.symbol [left, right] (.binary op left right)
  | unary (op : UnaryOp) (operand : Expr) : Makes op.symbol [operand] (.unary op operand)

theorem Makes.spelledBy {word : String} {operands : List Expr} {e : Expr}
    (h : Makes word operands e) {words : List String}
    (hwords : InOrder Expr.SpelledBy operands words) : e.SpelledBy (word :: words) := by
  cases h with
  | const h =>
      rw [InOrder.nil_iff.mp hwords]
      exact .const h
  | var h =>
      rw [InOrder.nil_iff.mp hwords]
      exact .var h
  | binary op left right =>
      obtain ⟨first, second, hfirst, hsecond, rfl⟩ := InOrder.cons_iff.mp hwords
      exact .binary hfirst (InOrder.singleton_iff.mp hsecond)
  | unary op operand => exact .unary (InOrder.singleton_iff.mp hwords)

theorem exists_of_push {word : String} {exprs : List Expr} {stack : List Fragment}
    (h : push word (exprs.map ofExpr) = .ok stack) :
    ∃ operands rest e, exprs = operands ++ rest ∧ Makes word operands e ∧
      e.depth ≤ depthLimit ∧ stack = (e :: rest).map ofExpr := by
  have leaf_le : 1 ≤ depthLimit := by decide
  cases hword : Token.ofWord word with
  | integer value =>
      simp only [push, hword, Except.ok.injEq] at h
      exact ⟨[], exprs, .const value, rfl, .const hword, leaf_le, h.symm⟩
  | identifier name =>
      simp only [push, hword, Except.ok.injEq] at h
      obtain rfl := Token.name_of_ofWord hword
      exact ⟨[], exprs, .var name, rfl, .var hword, leaf_le, h.symm⟩
  | binary op =>
      obtain rfl := Token.symbol_of_ofWord_binary hword
      rcases exprs with _ | ⟨left, _ | ⟨right, rest⟩⟩
      · simp [push] at h
      · simp [push] at h
      · simp only [push, List.map_cons, hword, toExpr_ofExpr, depth_ofExpr] at h
        obtain ⟨hdepth, rfl⟩ := of_map_operation h
        exact ⟨[left, right], rest, _, rfl, .binary op left right, hdepth, rfl⟩
  | unary op =>
      obtain rfl := Token.symbol_of_ofWord_unary hword
      rcases exprs with _ | ⟨operand, rest⟩
      · simp [push] at h
      · simp only [push, List.map_cons, hword, toExpr_ofExpr, depth_ofExpr] at h
        obtain ⟨hdepth, rfl⟩ := of_map_operation h
        exact ⟨[operand], rest, _, rfl, .unary op operand, hdepth, rfl⟩
  | introducer introducer => simp [push, hword] at h
  | illegal => simp [push, hword] at h

/-- A stack that the words leave: they are the spellings of its expressions. -/
theorem exists_of_stackOf {words : List String} {stack : List Fragment}
    (h : stackOf words = .ok stack) :
    ∃ exprs, stack = exprs.map ofExpr ∧ InOrder Expr.SpelledBy exprs words ∧
      ∀ e ∈ exprs, e.depth ≤ depthLimit := by
  induction words generalizing stack with
  | nil =>
      cases h
      exact ⟨[], rfl, InOrder.nil_iff.mpr rfl, by simp⟩
  | cons word words ih =>
      rw [stackOf_cons, bind_eq_ok_iff] at h
      obtain ⟨below, hbelow, hpush⟩ := h
      obtain ⟨exprs, rfl, hspelled, hdepths⟩ := ih hbelow
      obtain ⟨operands, rest, e, rfl, hmakes, hdepth, rfl⟩ := exists_of_push hpush
      obtain ⟨first, second, hfirst, hsecond, rfl⟩ := InOrder.append_iff.mp hspelled
      refine ⟨e :: rest, rfl, ?_, ?_⟩
      · exact InOrder.cons_iff.mpr ⟨_, _, hmakes.spelledBy hfirst, hsecond, rfl⟩
      · refine List.forall_mem_cons.mpr ⟨hdepth, ?_⟩
        intro other hother
        exact hdepths other (List.mem_append_right _ hother)

/-- The spelling of an expression puts it on top of any stack. -/
theorem foldrM_push_of_spelledBy {e : Expr} {words : List String} (h : e.SpelledBy words)
    (hdepth : e.depth ≤ depthLimit) (stack : List Fragment) :
    words.foldrM push stack = .ok (ofExpr e :: stack) := by
  induction h generalizing stack with
  | const h =>
      simp [push, h]
      rfl
  | var h =>
      simp [push, h]
  | binary hleft hright ihLeft ihRight =>
      rename_i op left right leftWords rightWords
      rw [Expr.depth] at hdepth
      have hleftDepth : left.depth ≤ depthLimit := by omega
      have hrightDepth : right.depth ≤ depthLimit := by omega
      -- Words are taken from the last, so the right operand is below the left one.
      rw [List.foldrM_cons, List.foldrM_append, ihRight hrightDepth, ok_bind,
        ihLeft hleftDepth, ok_bind]
      simp only [push, Token.ofWord_binary, depth_ofExpr, toExpr_ofExpr,
        operation_of_le hdepth]
      rfl
  | unary h ih =>
      rename_i op operand words
      rw [Expr.depth] at hdepth
      have hoperandDepth : operand.depth ≤ depthLimit := by omega
      rw [List.foldrM_cons, ih hoperandDepth, ok_bind]
      simp only [push, Token.ofWord_unary, depth_ofExpr, toExpr_ofExpr,
        operation_of_le hdepth]
      rfl

theorem stackOf_of_inOrder {exprs : List Expr} {words : List String}
    (h : InOrder Expr.SpelledBy exprs words) (hdepths : ∀ e ∈ exprs, e.depth ≤ depthLimit) :
    stackOf words = .ok (exprs.map ofExpr) := by
  induction exprs generalizing words with
  | nil =>
      rw [InOrder.nil_iff.mp h]
      rfl
  | cons e exprs ih =>
      obtain ⟨first, rest, hfirst, hrest, rfl⟩ := InOrder.cons_iff.mp h
      obtain ⟨hdepth, hdepths⟩ := List.forall_mem_cons.mp hdepths
      have hbelow : rest.foldrM push [] = .ok (exprs.map ofExpr) := ih hrest hdepths
      rw [stackOf, List.foldrM_append, hbelow, ok_bind]
      exact foldrM_push_of_spelledBy hfirst hdepth _

end Fragment

namespace Statement

theorem finish_eq_ok_iff {statement found : Statement} {rest : List Expr} :
    finish statement (rest.map Fragment.ofExpr) = .ok found ↔
      found = statement ∧ rest = [] := by
  rcases rest with _ | ⟨e, rest⟩
  · simp [finish, eq_comm]
  · simp [finish]

theorem ofStack_eq_ok_iff {introducer : Introducer} {exprs : List Expr}
    {statement : Statement} :
    ofStack introducer (exprs.map Fragment.ofExpr) = .ok statement ↔
      statement.introducer = introducer ∧ exprs = statement.operands := by
  constructor
  · intro h
    rcases introducer with _ | _
    · rcases exprs with _ | ⟨e, exprs⟩
      · simp [ofStack] at h
      · rcases e with value | name | ⟨op, left, right⟩ | ⟨op, operand⟩
        · simp [ofStack, Fragment.ofExpr] at h
        · rcases exprs with _ | ⟨value, rest⟩
          · simp [ofStack] at h
          · rw [List.map_cons, Fragment.ofExpr_var, List.map_cons, ofStack,
              Fragment.toExpr_ofExpr] at h
            obtain ⟨rfl, rfl⟩ := finish_eq_ok_iff.mp h
            exact ⟨rfl, rfl⟩
        · simp [ofStack, Fragment.ofExpr] at h
        · simp [ofStack, Fragment.ofExpr] at h
    · rcases exprs with _ | ⟨value, rest⟩
      · simp [ofStack] at h
      · rw [List.map_cons, ofStack, Fragment.toExpr_ofExpr] at h
        obtain ⟨rfl, rfl⟩ := finish_eq_ok_iff.mp h
        exact ⟨rfl, rfl⟩
  · rintro ⟨rfl, rfl⟩
    rcases statement with ⟨target, value⟩ | value
    · simp [ofStack, operands, introducer, finish]
    · simp [ofStack, operands, introducer, finish]

theorem depth_operands_le_iff {statement : Statement} :
    (∀ e ∈ statement.operands, e.depth ≤ depthLimit) ↔
      statement.value.depth ≤ depthLimit := by
  have hvar : 1 ≤ depthLimit := by decide
  rcases statement with ⟨target, value⟩ | value
  · simp [operands, Statement.value, Expr.depth, hvar]
  · simp [operands, Statement.value]

end Statement

theorem Cluster.parse_eq_ok_iff {cluster : Cluster} {statement : Statement} :
    cluster.parse = .ok statement ↔
      statement.SpelledBy cluster.words ∧ statement.value.depth ≤ depthLimit := by
  rw [Statement.spelledBy_iff, ← Statement.depth_operands_le_iff]
  constructor
  · intro h
    rw [Cluster.parse, bind_eq_ok_iff] at h
    obtain ⟨stack, hstack, hstatement⟩ := h
    obtain ⟨exprs, rfl, hspelled, hdepths⟩ := Fragment.exists_of_stackOf hstack
    obtain ⟨hintroducer, rfl⟩ := Statement.ofStack_eq_ok_iff.mp hstatement
    refine ⟨⟨cluster.operands, ?_, hspelled⟩, hdepths⟩
    rw [hintroducer, Cluster.words]
  · rintro ⟨⟨rest, hwords, hspelled⟩, hdepths⟩
    obtain ⟨hword, rfl⟩ := List.cons.inj hwords
    rw [Cluster.parse, Fragment.stackOf_of_inOrder hspelled hdepths, ok_bind]
    exact Statement.ofStack_eq_ok_iff.mpr ⟨(Introducer.word_injective hword).symm, rfl⟩

end Polish
