import Make24.Proofs.Grammar
import Mathlib.Algebra.Order.Field.Rat

namespace Make24

/-- The operator on rational numbers. Division by zero gives zero here. -/
def Operator.rational : Operator → ℚ → ℚ → ℚ
  | .add => fun x y => x + y
  | .sub => fun x y => x - y
  | .mul => fun x y => x * y
  | .div => fun x y => x / y

/-- Exact arithmetic, where a division by zero has no value, nor has anything computed from one. -/
def Arithmetic.exact : Arithmetic (Option ℚ) where
  ofDigit d := some d
  apply op left right :=
    match left, right with
    | some x, some y => if op = .div ∧ y = 0 then none else some (op.rational x y)
    | _, _ => none

theorem exact_apply_some {op : Operator} {x y : ℚ} (h : op = .div → y ≠ 0) :
    Arithmetic.exact.apply op (some x) (some y) = some (op.rational x y) :=
  if_neg fun hd => h hd.1 hd.2

theorem exact_apply_div_zero (x : ℚ) :
    Arithmetic.exact.apply .div (some x) (some 0) = none := by
  simp [Arithmetic.exact]

@[simp] theorem exact_apply_none_left (op : Operator) (y : Option ℚ) :
    Arithmetic.exact.apply op none y = none := rfl

@[simp] theorem exact_apply_none_right (op : Operator) (x : Option ℚ) :
    Arithmetic.exact.apply op x none = none := by
  cases x <;> rfl

end Make24
