import Make24.Decimal.Positional
import Make24.Expression.Fault
import Make24.Rules

namespace Make24

/-- Close enough to the target for a value that rounding has touched. -/
def reachesTarget (value : Float) : Bool :=
  (value - target).abs < tolerance

/-- What a round says about an answer. -/
inductive Verdict where
  | correct
  | incorrect (value : Float)
  | invalid (fault : Fault)

namespace Verdict

def ofResult : Except Fault Float → Verdict
  | .ok value => if reachesTarget value then .correct else .incorrect value
  | .error fault => .invalid fault

def isCorrect : Verdict → Bool
  | .correct => true
  | _ => false

/-- The line a player reads. It keeps back why an expression is invalid. -/
def message : Verdict → String
  | .correct => "yes, this is indeed " ++ Decimal.text target
  | .incorrect value => "no, this is " ++ Decimal.text value
  | .invalid _ => "sorry, this is not a valid expression"

end Verdict

end Make24
