import Make24.Deal
import Make24.Hand.Use
import Make24.Random.Source
import Make24.Verdict

namespace Make24
open Log

/-- Why digits and an expression over them come to no value. -/
inductive GameFault where
  | hand (cause : OutOfRange)
  | expression (cause : Fault)
  deriving DecidableEq, Repr

def GameFault.message : GameFault → String
  | .hand cause => "Corpus error: " ++ cause.message
  | .expression cause => "Parse error: " ++ cause.message

/-- The value of the text over a new hand of the digits. -/
def solveDealt (digits : List Nat) (text : String) : Logged (Except GameFault Float) := do
  match ← Hand.create digits with
  | .ok hand => return (← hand.solve text).result.mapError .expression
  | .error cause => return .error (.hand cause)

/-- Four digits, and the hand that every answer starts with. -/
structure Round where
  deal : Deal
  hand : Hand

namespace Round

def start (deal : Deal) : Logged (Except GameFault Round) := do
  match ← Hand.create deal.toList with
  | .ok hand => return .ok ⟨deal, hand⟩
  | .error cause => return .error (.hand cause)

/-- A round of the next four digits of the source, which goes on behind them. -/
def draw (source : Random.Source) : Logged (Except GameFault Round × Random.Source) := do
  let (deal, source) := source.deal
  log (.drawn deal.toList)
  return (← start deal, source)

def prompt (round : Round) : String :=
  "solve: " ++ " ".intercalate (round.deal.toList.map Nat.repr)

def judge (round : Round) (answer : String) : Logged Verdict := do
  let shown := Text.trim answer
  log (.answered shown round.deal.toList)
  let verdict := Verdict.ofResult (← round.hand.solve answer).result
  match verdict with
  | .correct => log .targetReached
  | .incorrect value => log (.targetMissed value)
  | .invalid fault => log (.answerRefused shown fault)
  return verdict

end Round

end Make24
