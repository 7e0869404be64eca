import Mathlib.Data.Int.Sqrt
import Polish.Evaluation

namespace Polish

namespace Exact

inductive Fault where
  | unbound (name : String)
  | zeroDivisor
  | negativeRoot (operand : Int)
  deriving DecidableEq, Repr

/-- The names that have a value, with their values. -/
abbrev Table := String → Option Int

structure Store where
  table : Table := fun _ => none
  printed : Array Int := #[]

end Exact

open Exact (Table)

def BinaryOp.applyExactly (op : BinaryOp) (left right : Int) : Except Exact.Fault Int :=
  match op with
  | .add => .ok (left + right)
  | .sub => .ok (left - right)
  | .mul => .ok (left * right)
  | .div => if right = 0 then .error .zeroDivisor else .ok (left.tdiv right)

def UnaryOp.applyExactly (op : UnaryOp) (operand : Int) : Except Exact.Fault Int :=
  match op with
  | .negate => .ok (-operand)
  | .sqrt => if operand < 0 then .error (.negativeRoot operand) else .ok operand.sqrt

namespace Expr

def evalExactly (table : Table) : Expr → Except Exact.Fault Int
  | const value => .ok value.toInt
  | var name =>
      match table name with
      | some value => .ok value
      | none => .error (.unbound name)
  | binary op left right => do
      let left ← left.evalExactly table
      let right ← right.evalExactly table
      op.applyExactly left right
  | unary op operand => do
      let operand ← operand.evalExactly table
      op.applyExactly operand

/-- The values of the parts of an expression, in the order in which they are found.
Nothing is found after the first failure. -/
def found (table : Table) : Expr → List Int
  | const value => [value.toInt]
  | var name => (table name).toList
  | binary op left right =>
      left.found table ++
        (match left.evalExactly table with
        | .ok _ => right.found table
        | .error _ => []) ++
        ((binary op left right).evalExactly table).toOption.toList
  | unary op operand =>
      operand.found table ++ ((unary op operand).evalExactly table).toOption.toList

end Expr

namespace Statement

def commitExactly (statement : Statement) (value : Int) (store : Exact.Store) : Exact.Store :=
  match statement with
  | assign target _ => { store with table := Function.update store.table target (some value) }
  | print _ => { store with printed := store.printed.push value }

def execExactly (store : Exact.Store) (statement : Statement) :
    Except (Exact.Fault × Exact.Store) Exact.Store :=
  match statement.value.evalExactly store.table with
  | .ok value => .ok (statement.commitExactly value store)
  | .error fault => .error (fault, store)

end Statement

def Program.execExactly (store : Exact.Store) (program : Program) :
    Except (Exact.Fault × Exact.Store) Exact.Store :=
  program.foldlM Statement.execExactly store

namespace Exact

/-- The quotient leaves a remainder smaller than the divisor, and either none or one
with the sign of the dividend. -/
def IsQuotient (left right quotient : Int) : Prop :=
  ∃ remainder, left = quotient * right + remainder ∧ remainder.natAbs < right.natAbs ∧
    (remainder = 0 ∨ remainder.sign = left.sign)

def IsRoot (n root : Int) : Prop :=
  0 ≤ root ∧ root * root ≤ n ∧ n < (root + 1) * (root + 1)

theorem IsQuotient.ne_zero {left right quotient : Int} (h : IsQuotient left right quotient) :
    right ≠ 0 := by
  rintro rfl
  obtain ⟨remainder, -, hsmall, -⟩ := h
  exact Nat.not_lt_zero _ hsmall

theorem IsRoot.nonneg {n root : Int} (h : IsRoot n root) : 0 ≤ n :=
  Int.le_trans (Int.mul_nonneg h.1 h.1) h.2.1

theorem isQuotient_iff {left right quotient : Int} (hright : right ≠ 0) :
    IsQuotient left right quotient ↔ left.tdiv right = quotient := by
  constructor
  · rintro ⟨remainder, hleft, hsmall, hsign⟩
    have hsum : remainder + right * quotient = left := by
      rw [hleft, Int.mul_comm, Int.add_comm]
    rcases Int.le_total 0 left with hnonneg | hnonpos
    · have hremainder : 0 ≤ remainder := by
        rcases hsign with rfl | hsign
        · exact Int.le_refl 0
        · exact Int.sign_nonneg_iff.mp (hsign ▸ Int.sign_nonneg_iff.mpr hnonneg)
      exact ((Int.tdiv_tmod_unique hnonneg hright).mpr ⟨hsum, hremainder, by omega⟩).1
    · have hremainder : remainder ≤ 0 := by
        rcases hsign with rfl | hsign
        · exact Int.le_refl 0
        · exact Int.sign_nonpos_iff.mp (hsign ▸ Int.sign_nonpos_iff.mpr hnonpos)
      exact ((Int.tdiv_tmod_unique' hnonpos hright).mpr ⟨hsum, by omega, hremainder⟩).1
  · rintro rfl
    refine ⟨left.tmod right, (Int.tdiv_mul_add_tmod left right).symm, ?_, ?_⟩
    · rw [Int.natAbs_tmod]
      exact Nat.mod_lt _ (Int.natAbs_pos.mpr hright)
    · rw [Int.sign_tmod]
      split
      · rename_i hdvd
        exact Or.inl (Int.tmod_eq_zero_of_dvd hdvd)
      · exact Or.inr rfl

theorem isRoot_iff {n root : Int} (hn : 0 ≤ n) : IsRoot n root ↔ n.sqrt = root := by
  obtain ⟨n, rfl⟩ := Int.eq_ofNat_of_zero_le hn
  rw [Int.sqrt_natCast]
  constructor
  · rintro ⟨hroot, hle, hlt⟩
    obtain ⟨root, rfl⟩ := Int.eq_ofNat_of_zero_le hroot
    exact congrArg Int.ofNat (Nat.eq_sqrt.mpr ⟨by exact_mod_cast hle, by exact_mod_cast hlt⟩).symm
  · rintro rfl
    obtain ⟨hle, hlt⟩ := Nat.eq_sqrt.mp (Eq.refl n.sqrt)
    exact ⟨Int.natCast_nonneg _, by exact_mod_cast hle, by exact_mod_cast hlt⟩

end Exact

open Exact (IsQuotient IsRoot)

theorem BinaryOp.div_applyExactly_eq_ok_iff {left right quotient : Int} :
    BinaryOp.div.applyExactly left right = .ok quotient ↔ IsQuotient left right quotient := by
  simp only [BinaryOp.applyExactly]
  split
  · rename_i hright
    exact iff_of_false (by rintro ⟨⟩) fun h => h.ne_zero hright
  · rename_i hright
    rw [Exact.isQuotient_iff hright, Except.ok.injEq]

theorem UnaryOp.sqrt_applyExactly_eq_ok_iff {operand root : Int} :
    UnaryOp.sqrt.applyExactly operand = .ok root ↔ IsRoot operand root := by
  simp only [UnaryOp.applyExactly]
  split
  · rename_i hneg
    exact iff_of_false (by rintro ⟨⟩) fun h => Int.not_lt.mpr h.nonneg hneg
  · rename_i hnonneg
    rw [Exact.isRoot_iff (Int.not_lt.mp hnonneg), Except.ok.injEq]

end Polish
