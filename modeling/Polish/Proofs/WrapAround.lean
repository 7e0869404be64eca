import Mathlib.Data.List.Forall2
import Mathlib.Data.Option.Basic
import Polish.Proofs.Evaluation
import Polish.Proofs.Exact

namespace Polish

/-- The value is the integer reduced modulo 2^64 into the signed range, from -2^63
to 2^63 - 1. -/
def Wraps (value : Int64) (n : Int) : Prop :=
  value.toInt = n.bmod Int64.size

namespace Wraps

theorem iff_eq_ofInt {value : Int64} {n : Int} :
    Wraps value n ↔ value = Int64.ofInt n := by
  rw [← Int64.toInt_inj, Int64.toInt_ofInt]
  exact Iff.rfl

theorem toInt (value : Int64) : Wraps value value.toInt :=
  iff_eq_ofInt.mpr (Int64.ofInt_toInt value).symm

variable {a b : Int64} {x y : Int}

theorem add (ha : Wraps a x) (hb : Wraps b y) : Wraps (a + b) (x + y) := by
  rw [iff_eq_ofInt] at ha hb ⊢
  rw [ha, hb, Int64.ofInt_add]

theorem sub (ha : Wraps a x) (hb : Wraps b y) : Wraps (a - b) (x - y) := by
  rw [iff_eq_ofInt] at ha hb ⊢
  rw [ha, hb, Int64.ofInt_sub]

theorem mul (ha : Wraps a x) (hb : Wraps b y) : Wraps (a * b) (x * y) := by
  rw [iff_eq_ofInt] at ha hb ⊢
  rw [ha, hb, Int64.ofInt_mul]

theorem neg (ha : Wraps a x) : Wraps (-a) (-x) := by
  rw [iff_eq_ofInt] at ha ⊢
  rw [ha, Int64.ofInt_neg]

end Wraps

/-- The bindings and the printed values of a store, against exact ones. -/
structure StoreWraps (store : Store) (ideal : Exact.Store) : Prop where
  bindings : ∀ name, Option.Rel Wraps (store.bindings.get? name) (ideal.table name)
  printed : List.Forall₂ Wraps store.printed.toList ideal.printed.toList

/-- Made without division and root. -/
def Expr.Polynomial : Expr → Prop
  | const _ => True
  | var _ => True
  | binary op left right => op ≠ .div ∧ left.Polynomial ∧ right.Polynomial
  | unary op operand => op ≠ .sqrt ∧ operand.Polynomial

instance Expr.decidablePolynomial : (e : Expr) → Decidable e.Polynomial
  | const _ => isTrue trivial
  | var _ => isTrue trivial
  | binary op left right =>
      have := left.decidablePolynomial
      have := right.decidablePolynomial
      inferInstanceAs (Decidable (op ≠ .div ∧ left.Polynomial ∧ right.Polynomial))
  | unary op operand =>
      have := operand.decidablePolynomial
      inferInstanceAs (Decidable (op ≠ .sqrt ∧ operand.Polynomial))

def Program.Polynomial (program : Program) : Prop :=
  ∀ statement ∈ program, statement.value.Polynomial

instance (program : Program) : Decidable program.Polynomial :=
  inferInstanceAs (Decidable (∀ statement ∈ program, statement.value.Polynomial))

/-- Both evaluations miss the value of the same name. -/
def SameUnbound (error : RuntimeError) (fault : Exact.Fault) : Prop :=
  ∃ name, error = .uninitialized name ∧ fault = .unbound name

theorem BinaryOp.parallel_apply_of_wraps {E : RuntimeError → Exact.Fault → Prop} {op : BinaryOp}
    {a b : Int64} {x y : Int} (hop : op ≠ .div) (ha : Wraps a x) (hb : Wraps b y) :
    Parallel E Wraps (op.apply a b) (op.applyExactly x y) := by
  cases op with
  | add => exact ha.add hb
  | sub => exact ha.sub hb
  | mul => exact ha.mul hb
  | div => exact absurd rfl hop

theorem UnaryOp.parallel_apply_of_wraps {E : RuntimeError → Exact.Fault → Prop} {op : UnaryOp}
    {a : Int64} {x : Int} (hop : op ≠ .sqrt) (ha : Wraps a x) :
    Parallel E Wraps (op.apply a) (op.applyExactly x) := by
  cases op with
  | negate => exact ha.neg
  | sqrt => exact absurd rfl hop

section Run

variable {bindings : Bindings} {table : Exact.Table}

theorem Bindings.parallel_load
    (h : ∀ name, Option.Rel Wraps (bindings.get? name) (table name)) (name : String) :
    Parallel SameUnbound Wraps (bindings.load name) ((Expr.var name).evalExactly table) := by
  have hname := h name
  simp only [Bindings.load, Expr.evalExactly]
  generalize bindings.get? name = value, table name = n at hname
  cases hname with
  | some hvalue => exact hvalue
  | none => exact ⟨name, rfl, rfl⟩

theorem Expr.parallel_eval (h : ∀ name, Option.Rel Wraps (bindings.get? name) (table name))
    {e : Expr} (he : e.Polynomial) :
    Parallel SameUnbound Wraps (e.eval bindings) (e.evalExactly table) := by
  induction e with
  | const value => exact Wraps.toInt value
  | var name => exact Bindings.parallel_load h name
  | binary op left right ihLeft ihRight =>
      obtain ⟨hop, hleft, hright⟩ := he
      apply (ihLeft hleft).bind
      intro a x _ _ ha
      apply (ihRight hright).bind
      intro b y _ _ hb
      exact BinaryOp.parallel_apply_of_wraps hop ha hb
  | unary op operand ih =>
      obtain ⟨hop, hoperand⟩ := he
      apply (ih hoperand).bind
      intro a x _ _ ha
      exact UnaryOp.parallel_apply_of_wraps hop ha

variable {store : Store} {ideal : Exact.Store}

theorem StoreWraps.commit (h : StoreWraps store ideal) (statement : Statement) {value : Int64}
    {n : Int} (hvalue : Wraps value n) :
    StoreWraps (statement.commit value store) (statement.commitExactly n ideal) := by
  cases statement with
  | assign target e =>
      refine ⟨?_, h.printed⟩
      intro name
      simp only [Statement.commit, Statement.commitExactly, Bindings.get?_assign,
        Function.update_apply]
      split
      · exact Option.Rel.some hvalue
      · exact h.bindings name
  | print e =>
      refine ⟨h.bindings, ?_⟩
      simp only [Statement.commit, Statement.commitExactly, Array.toList_push]
      exact List.rel_append h.printed (.cons hvalue .nil)

theorem Statement.parallel_exec (h : StoreWraps store ideal) {statement : Statement}
    (hstatement : statement.value.Polynomial) :
    Parallel (fun halt fault => SameUnbound halt.error fault.1 ∧ StoreWraps halt.state fault.2)
      StoreWraps (statement.exec store) (statement.execExactly ideal) := by
  simp only [Statement.exec, Statement.execExactly]
  rcases parallel_iff.mp (Expr.parallel_eval h.bindings hstatement) with
    ⟨value, n, heval, hexact, hvalue⟩ | ⟨error, fault, heval, hexact, hsame⟩
  · rw [heval, hexact]
    exact h.commit statement hvalue
  · rw [heval, hexact]
    exact ⟨hsame, h⟩

end Run

/-- A run of a program without division and root, and the same run over the
integers: both get to the end, or both stop at the same statement for want of the
same name.  Either way every value printed or bound is the one over the integers,
modulo 2^64. -/
theorem Program.exec_modulo (program : Program) (h : program.Polynomial) :
    Parallel
      (fun halt fault => (SameUnbound halt.error fault.1 ∧ StoreWraps halt.state fault.2) ∧
        ∃ k, StopsAt Statement.exec {} program k halt ∧
          StopsAt Statement.execExactly {} program k fault)
      StoreWraps (program.exec {}) (program.execExactly {}) := by
  have hempty : StoreWraps {} {} := ⟨fun _ => .none, .nil⟩
  refine foldlM_parallel ?_ hempty
  intro statement hmem store ideal hstore
  exact Statement.parallel_exec hstore (h statement hmem)

/-- The name `x` is out of range at once, and all that follows is computed from it. -/
theorem Program.exec_modulo_overflow :
    let program : Program :=
      [.assign "x" (.binary .add (.const Int64.maxValue) (.const 1)),
        .print (.binary .sub (.var "x") (.unary .negate (.var "x"))),
        .print (.var "y")]
    program.Polynomial ∧
      ∃ halt fault, program.exec {} = .error halt ∧ program.execExactly {} = .error fault ∧
        halt.error = .uninitialized "y" ∧ halt.state.printed = #[0] ∧
        fault.1 = .unbound "y" ∧ fault.2.printed = #[18446744073709551616] ∧
        StoreWraps halt.state fault.2 := by
  intro program
  have hpolynomial : program.Polynomial := by decide
  refine ⟨hpolynomial, ?_⟩
  rcases parallel_iff.mp (Program.exec_modulo program hpolynomial) with
    ⟨store, _, hexec, -⟩ | ⟨halt, fault, hexec, hexact, ⟨-, hwraps⟩, -⟩
  · cases hexec
  · cases hexec
    cases hexact
    exact ⟨_, _, rfl, rfl, rfl, rfl, rfl, rfl, hwraps⟩

end Polish
