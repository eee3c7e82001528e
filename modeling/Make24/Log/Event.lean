import Make24.Decimal.Positional
import Make24.Digit
import Make24.Expression.Fault
import Make24.Expression.Pending
import Make24.Log.Level
import Make24.Rules

namespace Make24.Log

/-- What is worth a record. -/
inductive Event where
  | handRefused (digits : List Nat) (bad : Nat)
  | handCreated (digits : List Nat)
  | evaluationBegan (text : String) (remaining : List Nat)
  | tokenized (text : String) (count : Nat)
  | stepped (step : Step Float)
  | evaluated (value : Float)
  | refused (fault : Fault)
  | digitListRead (text : String)
  | digitListBlank
  | digitListSpoiled (char : Char)
  | digitListParsed (digits : List Nat)
  | seeded (seed : Nat)
  | drawn (digits : List Nat)
  | dealt (digits : List Nat)
  | answered (answer : String) (digits : List Nat)
  | targetReached
  | targetMissed (value : Float)
  | answerRefused (answer : String) (fault : Fault)

def stepMessage : Step Float → String
  | .consumed digit remaining => "Consumed " ++ digit.repr ++ ", remaining " ++ listText remaining
  | .entered position => "Descending into bracket group at " ++ position.repr
  | .applied left op right result =>
    "Reduced " ++ Decimal.text left ++ " " ++ op.symbol.toString ++ " " ++ Decimal.text right ++
      " = " ++ Decimal.text result

namespace Event

/-- What a player may see without asking for details is only that an answer was checked. -/
def level : Event → Level
  | .handRefused .. | .digitListBlank | .digitListSpoiled .. => .warn
  | .dealt .. | .answered .. => .info
  | _ => .debug

def message : Event → String
  | .handRefused digits bad =>
    "Rejecting corpus " ++ listText digits ++ ": digit " ++ bad.repr ++ " out of range"
  | .handCreated digits => "Created corpus " ++ listText digits
  | .evaluationBegan text remaining =>
    "Evaluating '" ++ text ++ "' against corpus " ++ listText remaining
  | .tokenized text count => "Tokenized '" ++ text ++ "' into " ++ count.repr ++ " tokens"
  | .stepped step => stepMessage step
  | .evaluated value => "Expression evaluated to: " ++ Decimal.text value
  | .refused fault => "Expression rejected: " ++ fault.message
  | .digitListRead text => "Parsing digit list: '" ++ text ++ "'"
  | .digitListBlank => "Digit list is empty"
  | .digitListSpoiled char => "Digit list contains invalid character '" ++ char.toString ++ "'"
  | .digitListParsed digits => "Parsed digits " ++ listText digits
  | .seeded seed => "Seeding digit generator with " ++ seed.repr
  | .drawn digits => "Dealt digits " ++ listText digits
  | .dealt digits => "Dealt digits " ++ listText digits
  | .answered answer digits =>
    "Checking answer '" ++ answer ++ "' for digits " ++ listText digits
  | .targetReached => "Answer reaches target"
  | .targetMissed value =>
    "Answer evaluates to " ++ Decimal.text value ++ ", not " ++ Decimal.text target
  | .answerRefused answer fault => "Invalid answer '" ++ answer ++ "': " ++ fault.message

end Event

end Make24.Log
