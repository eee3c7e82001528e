import Make24.Expression.Evaluation
import Make24.Log.Logged

namespace Make24
open Log

def readTokens (text : String) : Logged (List Lexeme) := do
  let tokens := lexemes text
  log (.tokenized text tokens.length)
  return tokens

namespace Hand

def create (digits : List Nat) : Logged (Except OutOfRange Hand) := do
  match ofDigits digits with
  | .ok hand =>
    log (.handCreated digits)
    return .ok hand
  | .error bad =>
    log (.handRefused digits bad.digit)
    return .error bad

/-- Takes one occurrence of the digit out of the hand. There is no result if it holds none. -/
def remove (hand : Hand) (digit : Nat) : Logged (Option Hand) := do
  match hand.remove? digit with
  | some left =>
    log (.stepped (.consumed digit left.digits))
    return some left
  | none => return none

/-- Evaluates the text in double precision. -/
def solve (hand : Hand) (text : String) : Logged (Outcome Float Float) := do
  log (.evaluationBegan text hand.digits)
  let outcome := evaluateLevel .float hand .whole (← readTokens text)
  logAll (outcome.steps.map .stepped)
  match outcome.result with
  | .ok value => log (.evaluated value)
  | .error fault => log (.refused fault)
  return outcome

end Hand

end Make24
