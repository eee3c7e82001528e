import Make24.Expression.Operator

namespace Make24

/-- What the evaluation of an expression does on its way. -/
inductive Step (α : Type) where
  | consumed (digit : Nat) (remaining : List Nat)
  | entered (position : Nat)
  | applied (left : α) (op : Operator) (right result : α)
  deriving DecidableEq, Repr

/-- The values and operators of one bracket level that wait for each other, the latest first. -/
structure Pending (α : Type) where
  values : List α
  operators : List Operator
  deriving DecidableEq, Repr

namespace Pending

def empty : Pending α := ⟨[], []⟩

/-- A value came last, and not an operator. -/
def endsInValue (pending : Pending α) : Bool :=
  pending.operators.length < pending.values.length

def addValue (pending : Pending α) (value : α) : Pending α :=
  { pending with values := value :: pending.values }

/-- Takes the latest operator and the two latest values off, and puts what the operator makes of
them there instead. If one of the three lacks there is no step, but the others are taken off all the
same. -/
def reduce (ar : Arithmetic α) : Pending α → Pending α × Option (Step α)
  | ⟨right :: left :: values, op :: operators⟩ =>
    let result := ar.apply op left right
    (⟨result :: values, operators⟩, some (.applied left op right result))
  | ⟨values, operators⟩ => (⟨values.drop 2, operators.drop 1⟩, none)

/-- Reduces as long as the latest operator is due, and no further once an operator lacked an
operand. -/
def applyWhile (ar : Arithmetic α) (due : Operator → Bool) (values : List α) :
    List Operator → Pending α × List (Step α)
  | [] => (⟨values, []⟩, [])
  | op :: operators =>
    if due op then
      match reduce ar ⟨values, op :: operators⟩ with
      | (reduced, some step) =>
        let further := applyWhile ar due reduced.values operators
        (further.1, step :: further.2)
      | (reduced, none) => (reduced, [])
    else
      (⟨values, op :: operators⟩, [])

/-- An operator waits until those before it that bind at least as tightly are applied. -/
def addOperator (ar : Arithmetic α) (pending : Pending α) (op : Operator) :
    Pending α × List (Step α) :=
  let applied := applyWhile ar (fun before => op.precedence ≤ before.precedence)
    pending.values pending.operators
  (⟨applied.1.values, op :: applied.1.operators⟩, applied.2)

/-- Applies all that waits. There is no value if an operator lacks an operand. -/
def conclude (ar : Arithmetic α) (pending : Pending α) : Option α × List (Step α) :=
  match applyWhile ar (fun _ => true) pending.values pending.operators with
  | (⟨[value], []⟩, steps) => (some value, steps)
  | (_, steps) => (none, steps)

end Pending

end Make24
