import Make24.Log.Logged
import Make24.Rules
import Make24.Text.Blank

namespace Make24
open Log

/-- The digits of one round. -/
abbrev Deal := Vector Nat dealSize

/-- Why a text lists no deal. -/
inductive DealFault where
  | empty
  | invalid (text : String)
  | wrongCount (expected found : Nat)
  deriving DecidableEq, Repr

def DealFault.message : DealFault → String
  | .empty => "Digit list cannot be empty"
  | .invalid text => "Digit list must contain only digits 1-9: " ++ text
  | .wrongCount expected found =>
    "Expected " ++ expected.repr ++ " digits, found " ++ found.repr

/-- The characters of a digit list that are no separators. -/
def listed (text : String) : List Char :=
  text.toList.filter (fun c => !Text.isBlank c && c != ',')

/-- Reads digits that commas and blank characters may separate. -/
def Deal.parse (text : String) : Logged (Except DealFault Deal) := do
  log (.digitListRead text)
  if (Text.trimmed text.toList).isEmpty then
    log .digitListBlank
    return .error .empty
  match (listed text).find? (fun c => (digitOfChar? c).isNone) with
  | some c =>
    log (.digitListSpoiled c)
    return .error (.invalid text)
  | none =>
    let digits := (listed text).filterMap digitOfChar?
    if h : digits.length = dealSize then
      log (.digitListParsed digits)
      return .ok ⟨digits.toArray, h⟩
    else
      return .error (.wrongCount dealSize digits.length)

end Make24
