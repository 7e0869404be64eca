import Polish.Operator
import Polish.RuntimeError

namespace Polish

/-- The greatest natural number whose square is at most `n`: twice the root of a
quarter of `n`, or one more. -/
def floorSqrt (n : Nat) : Nat :=
  if n = 0 then
    0
  else
    let r := 2 * floorSqrt (n / 4)
    if (r + 1) * (r + 1) ≤ n then r + 1 else r
termination_by n
decreasing_by omega

theorem floorSqrt_sq_le (n : Nat) : floorSqrt n * floorSqrt n ≤ n := by
  induction n using Nat.strongRecOn with
  | ind n ih =>
      rw [floorSqrt]
      split
      · omega
      · rename_i hn
        have hquarter := ih (n / 4) (by omega)
        dsimp only
        split
        · assumption
        · have h : 2 * floorSqrt (n / 4) * (2 * floorSqrt (n / 4)) =
              4 * (floorSqrt (n / 4) * floorSqrt (n / 4)) := by
            simp only [Nat.mul_assoc, Nat.mul_left_comm]
            omega
          omega

theorem lt_floorSqrt_succ_sq (n : Nat) : n < (floorSqrt n + 1) * (floorSqrt n + 1) := by
  induction n using Nat.strongRecOn with
  | ind n ih =>
      rw [floorSqrt]
      split
      · omega
      · rename_i hn
        have hquarter := ih (n / 4) (by omega)
        dsimp only
        split
        · have h : (2 * floorSqrt (n / 4) + 1 + 1) * (2 * floorSqrt (n / 4) + 1 + 1) =
              4 * ((floorSqrt (n / 4) + 1) * (floorSqrt (n / 4) + 1)) := by
            rw [show 2 * floorSqrt (n / 4) + 1 + 1 = 2 * (floorSqrt (n / 4) + 1) by omega]
            simp only [Nat.mul_assoc, Nat.mul_left_comm]
            omega
          omega
        · omega

def BinaryOp.apply (op : BinaryOp) (left right : Int64) : Except RuntimeError Int64 :=
  match op with
  | .add => .ok (left + right)
  | .sub => .ok (left - right)
  | .mul => .ok (left * right)
  | .div => if right = 0 then .error .divideByZero else .ok (left / right)

def UnaryOp.apply (op : UnaryOp) (operand : Int64) : Except RuntimeError Int64 :=
  match op with
  | .negate => .ok (-operand)
  | .sqrt =>
      if operand < 0 then
        .error (.negativeSqrt operand)
      else
        .ok (Int64.ofNat (floorSqrt operand.toInt.toNat))

end Polish
