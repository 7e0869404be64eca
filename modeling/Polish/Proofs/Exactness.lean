import Polish.Proofs.WrapAround

namespace Polish

open Exact (Table IsQuotient IsRoot)

/-- From the least to the greatest 64-bit integer. -/
def InRange (n : Int) : Prop :=
  Int64.minValue.toInt ≤ n ∧ n ≤ Int64.maxValue.toInt

instance (n : Int) : Decidable (InRange n) :=
  inferInstanceAs (Decidable (Int64.minValue.toInt ≤ n ∧ n ≤ Int64.maxValue.toInt))

theorem inRange_toInt (value : Int64) : InRange value.toInt :=
  ⟨value.minValue_le_toInt, value.toInt_le⟩

theorem Wraps.toInt_eq {value : Int64} {n : Int} (h : Wraps value n) (hrange : InRange n) :
    value.toInt = n := by
  obtain ⟨hmin, hmax⟩ := hrange
  rw [Int64.toInt_minValue] at hmin
  rw [Int64.toInt_maxValue] at hmax
  rw [h, Int64.size]
  exact Int.bmod_eq_of_le (by omega) (by omega)

/-- The same thing went wrong, with the same name or the same operand. -/
inductive SameError : RuntimeError → Exact.Fault → Prop
  | uninitialized (name : String) : SameError (.uninitialized name) (.unbound name)
  | divideByZero : SameError .divideByZero .zeroDivisor
  | negativeSqrt (operand : Int64) :
      SameError (.negativeSqrt operand) (.negativeRoot operand.toInt)

theorem floorSqrt_eq_sqrt (n : Nat) : floorSqrt n = n.sqrt :=
  Nat.eq_sqrt.mpr ⟨floorSqrt_sq_le n, lt_floorSqrt_succ_sq n⟩

theorem toInt_ofNat_sqrt {operand : Int64} (hoperand : 0 ≤ operand.toInt) :
    (Int64.ofNat (floorSqrt operand.toInt.toNat)).toInt = operand.toInt.sqrt := by
  have hlt := operand.toInt_lt
  have hle : operand.toInt.toNat.sqrt ≤ operand.toInt.toNat := Nat.sqrt_le_self _
  rw [floorSqrt_eq_sqrt, Int64.toInt_ofNat_of_lt (by omega)]
  rfl

theorem BinaryOp.parallel_apply (op : BinaryOp) (left right : Int64) :
    Parallel SameError Wraps (op.apply left right)
      (op.applyExactly left.toInt right.toInt) := by
  by_cases hop : op = .div
  · subst hop
    simp only [BinaryOp.apply, BinaryOp.applyExactly]
    by_cases hright : right = 0
    · subst hright
      exact SameError.divideByZero
    · have hexact : right.toInt ≠ 0 := by
        intro hzero
        exact hright (Int64.toInt_inj.mp hzero)
      rw [if_neg hright, if_neg hexact]
      exact Int64.toInt_div left right
  · exact parallel_apply_of_wraps hop (Wraps.toInt left) (Wraps.toInt right)

theorem UnaryOp.parallel_apply (op : UnaryOp) (operand : Int64) :
    Parallel SameError Wraps (op.apply operand) (op.applyExactly operand.toInt) := by
  by_cases hop : op = .sqrt
  · subst hop
    simp only [UnaryOp.apply, UnaryOp.applyExactly, Int64.lt_iff_toInt_lt, Int64.toInt_zero]
    split
    · exact SameError.negativeSqrt operand
    · rename_i hnonneg
      rw [← toInt_ofNat_sqrt (Int.not_lt.mp hnonneg)]
      exact Wraps.toInt _
  · exact parallel_apply_of_wraps hop (Wraps.toInt operand)

/-- A result that wraps round is exact if it is in range. -/
theorem Parallel.toInt_eq {x : Except RuntimeError Int64} {y : Except Exact.Fault Int}
    (h : Parallel SameError Wraps x y) (hrange : ∀ n ∈ y.toOption.toList, InRange n) :
    Parallel SameError (fun value n => value.toInt = n) x y := by
  rcases parallel_iff.mp h with ⟨value, n, rfl, rfl, hvalue⟩ | ⟨error, fault, rfl, rfl, hsame⟩
  · exact hvalue.toInt_eq (hrange n (List.mem_singleton_self n))
  · exact hsame

/-- The table with the same values as integers. -/
def Bindings.toTable (bindings : Bindings) : Table :=
  fun name => (bindings.get? name).map Int64.toInt

theorem Expr.eval_of_inRange {bindings : Bindings} {e : Expr}
    (h : ∀ n ∈ e.found bindings.toTable, InRange n) :
    Parallel SameError (fun value n => value.toInt = n) (e.eval bindings)
      (e.evalExactly bindings.toTable) := by
  induction e with
  | const value => rfl
  | var name =>
      simp only [Expr.eval, Bindings.load, Expr.evalExactly, Bindings.toTable]
      cases bindings.get? name with
      | none => exact SameError.uninitialized name
      | some value => rfl
  | binary op left right ihLeft ihRight =>
      simp only [Expr.found, List.forall_mem_append] at h
      obtain ⟨⟨hleft, hright⟩, hresult⟩ := h
      apply (ihLeft hleft).bind
      rintro a _ - hexactLeft rfl
      rw [hexactLeft] at hright
      apply (ihRight hright).bind
      rintro b _ - hexactRight rfl
      rw [Expr.evalExactly, hexactLeft, hexactRight, ok_bind, ok_bind] at hresult
      exact (op.parallel_apply a b).toInt_eq hresult
  | unary op operand ih =>
      simp only [Expr.found, List.forall_mem_append] at h
      obtain ⟨hoperand, hresult⟩ := h
      apply (ih hoperand).bind
      rintro a _ - hexact rfl
      rw [Expr.evalExactly, hexact, ok_bind] at hresult
      exact (op.parallel_apply a).toInt_eq hresult

theorem inRange_quotient_iff {left right : Int64} {quotient : Int}
    (h : IsQuotient left.toInt right.toInt quotient) :
    ¬ InRange quotient ↔ left = Int64.minValue ∧ right = -1 := by
  obtain rfl := (Exact.isQuotient_iff h.ne_zero).mp h
  constructor
  · intro hrange
    refine ⟨?_, ?_⟩
    · by_contra hleft
      rw [← Int64.toInt_div_of_ne_left left right hleft] at hrange
      exact hrange (inRange_toInt _)
    · by_contra hright
      rw [← Int64.toInt_div_of_ne_right left right hright] at hrange
      exact hrange (inRange_toInt _)
  · rintro ⟨rfl, rfl⟩
    decide

theorem inRange_root {operand : Int64} {root : Int} (h : IsRoot operand.toInt root) :
    InRange root := by
  obtain ⟨hroot, hle, -⟩ := h
  obtain ⟨root, rfl⟩ := Int.eq_ofNat_of_zero_le hroot
  have hself : (root : Int) ≤ root * root := by exact_mod_cast Nat.le_mul_self root
  have hmin : Int64.minValue.toInt ≤ 0 := by decide
  have hmax := operand.toInt_le
  exact ⟨by omega, by omega⟩

/-- If all that evaluation over the integers finds up to its first failure is in
range, then evaluation in 64 bits has the same value or the same error.  Quotients
and roots over the integers are what they should be, and in range, but for the
quotient of the least integer and -1: that division wraps round to the least integer. -/
theorem Expr.eval_exact :
    (∀ (bindings : Bindings) (e : Expr), (∀ n ∈ e.found bindings.toTable, InRange n) →
      Parallel SameError (fun value n => value.toInt = n) (e.eval bindings)
        (e.evalExactly bindings.toTable)) ∧
    (∀ left right quotient, BinaryOp.div.applyExactly left right = .ok quotient ↔
      IsQuotient left right quotient) ∧
    (∀ operand root, UnaryOp.sqrt.applyExactly operand = .ok root ↔ IsRoot operand root) ∧
    (∀ (left right : Int64) quotient, IsQuotient left.toInt right.toInt quotient →
      (¬ InRange quotient ↔ left = Int64.minValue ∧ right = -1)) ∧
    BinaryOp.div.apply Int64.minValue (-1) = .ok Int64.minValue ∧
    ∀ (operand : Int64) root, IsRoot operand.toInt root → InRange root := by
  refine ⟨fun bindings e => eval_of_inRange, ?_, ?_, ?_, rfl, ?_⟩
  · exact fun left right quotient => BinaryOp.div_applyExactly_eq_ok_iff
  · exact fun operand root => UnaryOp.sqrt_applyExactly_eq_ok_iff
  · exact fun left right quotient => inRange_quotient_iff
  · exact fun operand root => inRange_root

/-- The least integer is in range, and nothing is found after the root fails. -/
theorem Expr.eval_exact_negative_root :
    let bindings := Bindings.empty.assign "x" 4
    let e : Expr :=
      .binary .add (.const Int64.minValue) (.unary .sqrt (.unary .negate (.var "x")))
    e.found bindings.toTable = [Int64.minValue.toInt, 4, -4] ∧
      (∀ n ∈ e.found bindings.toTable, InRange n) ∧
      ∃ error, e.eval bindings = .error error ∧ SameError error (.negativeRoot (-4)) := by
  intro bindings e
  have hfound : e.found bindings.toTable = [Int64.minValue.toInt, 4, -4] := rfl
  have hrange : ∀ n ∈ e.found bindings.toTable, InRange n := by
    rw [hfound]
    decide
  have hexact : e.evalExactly bindings.toTable = .error (.negativeRoot (-4)) := rfl
  have hparallel := Expr.eval_exact.1 bindings e hrange
  rw [hexact] at hparallel
  rcases parallel_iff.mp hparallel with ⟨_, _, -, ⟨⟩, -⟩ | ⟨error, _, heval, ⟨⟩, hsame⟩
  exact ⟨hfound, hrange, error, heval, hsame⟩

end Polish
