import Make24.Digit

namespace Make24

/-- Why a text is no valid expression over a hand. -/
inductive Fault where
  | emptyExpression
  | digitNotAvailable (digit position : Nat)
  | multiDigitNumber (position : Nat)
  | missingOperator (position : Nat)
  | missingOperand (position : Nat)
  | unmatchedParenthesis (position : Nat)
  | unusedDigits (remaining : List Nat)
  | invalidToken (char : Char) (position : Nat)
  deriving DecidableEq, Repr

def Fault.message : Fault → String
  | .emptyExpression => "Expression is empty"
  | .digitNotAvailable digit position =>
    "Digit " ++ digit.repr ++ " at position " ++ position.repr ++ " is not available"
  | .multiDigitNumber position => "Multi-digit number at position " ++ position.repr
  | .missingOperator position => "Missing operator before position " ++ position.repr
  | .missingOperand position =>
    "Operator at position " ++ position.repr ++ " is missing an operand"
  | .unmatchedParenthesis position => "Unmatched parenthesis at position " ++ position.repr
  | .unusedDigits remaining => "Digits left unused: " ++ listText remaining
  | .invalidToken char position =>
    "Invalid token '" ++ char.toString ++ "' at position " ++ position.repr

end Make24
