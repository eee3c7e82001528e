namespace Make24

inductive Operator where
  | add
  | sub
  | mul
  | div
  deriving DecidableEq, Repr

namespace Operator

def ofSymbol? : Char → Option Operator
  | '+' => some .add
  | '-' => some .sub
  | '*' => some .mul
  | '/' => some .div
  | _ => none

def symbol : Operator → Char
  | .add => '+'
  | .sub => '-'
  | .mul => '*'
  | .div => '/'

/-- Higher binds tighter. -/
def precedence : Operator → Nat
  | .add | .sub => 1
  | .mul | .div => 2

theorem ofSymbol?_symbol (op : Operator) : ofSymbol? op.symbol = some op := by
  cases op <;> rfl

theorem symbol_of_ofSymbol? (h : ofSymbol? c = some op) : op.symbol = c := by
  unfold ofSymbol? at h
  split at h <;> cases h <;> rfl

end Operator

/-- Numbers that expressions can be evaluated over. -/
structure Arithmetic (α : Type) where
  ofDigit : Nat → α
  apply : Operator → α → α → α

/-- Double precision. Dividing by zero gives an infinity or a NaN. -/
def Arithmetic.float : Arithmetic Float where
  ofDigit := Float.ofNat
  apply
    | .add => fun left right => left + right
    | .sub => fun left right => left - right
    | .mul => fun left right => left * right
    | .div => fun left right => left / right

end Make24
