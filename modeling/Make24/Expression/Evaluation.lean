import Make24.Hand
import Make24.Expression.Fault
import Make24.Expression.Group
import Make24.Expression.Pending

namespace Make24

/-- How an evaluation over `α` ended, the hand it left, and its steps. What was consumed before a
fault stays consumed. -/
structure Outcome (α β : Type) where
  result : Except Fault β
  hand : Hand
  steps : List (Step α)

namespace Outcome

def done (value : β) (hand : Hand) : Outcome α β :=
  ⟨.ok value, hand, []⟩

def failed (fault : Fault) (hand : Hand) : Outcome α β :=
  ⟨.error fault, hand, []⟩

def after (steps : List (Step α)) (outcome : Outcome α β) : Outcome α β :=
  { outcome with steps := steps ++ outcome.steps }

def andThen (first : Outcome α β) (next : β → Hand → Outcome α γ) : Outcome α γ :=
  match first.result with
  | .ok value => (next value first.hand).after first.steps
  | .error fault => ⟨.error fault, first.hand, first.steps⟩

@[simp] theorem result_after (steps : List (Step α)) (outcome : Outcome α β) :
    (outcome.after steps).result = outcome.result := rfl

@[simp] theorem hand_after (steps : List (Step α)) (outcome : Outcome α β) :
    (outcome.after steps).hand = outcome.hand := rfl

@[simp] theorem steps_after (steps : List (Step α)) (outcome : Outcome α β) :
    (outcome.after steps).steps = steps ++ outcome.steps := rfl

theorem andThen_of_ok {first : Outcome α β} (h : first.result = .ok value)
    (next : β → Hand → Outcome α γ) :
    first.andThen next = (next value first.hand).after first.steps := by
  simp only [andThen, h]

theorem andThen_of_error {first : Outcome α β} (h : first.result = .error fault)
    (next : β → Hand → Outcome α γ) :
    first.andThen next = ⟨.error fault, first.hand, first.steps⟩ := by
  simp only [andThen, h]

end Outcome

/-- What the evaluation does about one token. -/
inductive Move where
  | refuse (fault : Fault)
  | spend (digit : Nat)
  | combine (op : Operator)
  | enter (inside after : List Lexeme)
  deriving DecidableEq, Repr

/-- The digit's right neighbour in the text is a digit too. -/
def isGlued (l : Lexeme) : List Lexeme → Bool
  | [] => false
  | next :: _ => next.token.isDigit && next.position == l.position + 1

/-- The move for the token `l` with `rest` behind it on its level. `afterValue` says that a value
stands before it. No move depends on what a value is. -/
def nextMove (hand : Hand) (afterValue : Bool) (l : Lexeme) (rest : List Lexeme) : Move :=
  match l.token with
  | .digit d =>
    if !hand.contains d then .refuse (.digitNotAvailable d l.position)
    else if isGlued l rest then .refuse (.multiDigitNumber l.position)
    else if afterValue then .refuse (.missingOperator l.position)
    else .spend d
  | .opening =>
    if afterValue then .refuse (.missingOperator l.position)
    else
      match splitGroup? 0 rest with
      | some (inside, after) => .enter inside after
      | none => .refuse (.unmatchedParenthesis l.position)
  | .operator op =>
    if afterValue then .combine op else .refuse (.missingOperand l.position)
  | .closing | .invalid _ => .refuse (.invalidToken l.token.char l.position)

theorem length_of_enter (h : nextMove hand afterValue l rest = .enter inside after) :
    inside.length + after.length < rest.length := by
  unfold nextMove at h
  split at h
  · split at h
    · cases h
    · split at h
      · cases h
      · split at h <;> cases h
  · split at h
    · cases h
    · split at h
      · next hs =>
        cases h
        exact length_of_splitGroup? hs
      · cases h
  · split at h <;> cases h
  all_goals cases h

/-- Only the whole expression has to use up the hand. -/
inductive Extent where
  | whole
  | group
  deriving DecidableEq, Repr

/-- The value of a bracket level whose tokens are all scanned. An operand that is missing at the
end is missed by the last token. -/
def settle (ar : Arithmetic α) (extent : Extent) (tokens : List Lexeme) (pending : Pending α)
    (hand : Hand) : Outcome α α :=
  match tokens.getLast? with
  | none => .failed .emptyExpression hand
  | some last =>
    if extent = .whole ∧ hand.isEmpty = false then
      .failed (.unusedDigits hand.digits) hand
    else
      match pending.conclude ar with
      | (some value, steps) => (Outcome.done value hand).after steps
      | (none, steps) => (Outcome.failed (.missingOperand last.position) hand).after steps

/-- Scans the tokens of a bracket level from left to right. A group is evaluated as a level of its
own, with the same hand, and gives one value. -/
def scan (ar : Arithmetic α) (hand : Hand) (pending : Pending α) (tokens : List Lexeme) :
    Outcome α (Pending α) :=
  match tokens with
  | [] => .done pending hand
  | l :: rest =>
    match _move : nextMove hand pending.endsInValue l rest with
    | .refuse fault => .failed fault hand
    | .spend d =>
      let left := hand.erase d
      (scan ar left (pending.addValue (ar.ofDigit d)) rest).after [.consumed d left.digits]
    | .combine op =>
      let added := pending.addOperator ar op
      (scan ar hand added.1 rest).after added.2
    | .enter inside after =>
      let group := (scan ar hand .empty inside).andThen (settle ar .group inside)
      (group.andThen fun value left => scan ar left (pending.addValue value) after).after
        [.entered l.position]
termination_by tokens.length
decreasing_by
  · exact Nat.lt_succ_self _
  · exact Nat.lt_succ_self _
  all_goals
    have := length_of_enter _move
    simp only [List.length_cons]
    omega

theorem scan_nil (ar : Arithmetic α) (hand : Hand) (pending : Pending α) :
    scan ar hand pending [] = .done pending hand := by
  rw [scan]

theorem scan_cons (ar : Arithmetic α) (hand : Hand) (pending : Pending α) (l : Lexeme)
    (rest : List Lexeme) :
    scan ar hand pending (l :: rest) =
      match nextMove hand pending.endsInValue l rest with
      | .refuse fault => .failed fault hand
      | .spend d =>
        (scan ar (hand.erase d) (pending.addValue (ar.ofDigit d)) rest).after
          [.consumed d (hand.erase d).digits]
      | .combine op =>
        (scan ar hand (pending.addOperator ar op).1 rest).after (pending.addOperator ar op).2
      | .enter inside after =>
        (((scan ar hand .empty inside).andThen (settle ar .group inside)).andThen
          fun value left => scan ar left (pending.addValue value) after).after
          [.entered l.position] := by
  rw [scan]
  split <;> rename_i h <;> simp only [h]

/-- Evaluates the tokens of one bracket level. -/
def evaluateLevel (ar : Arithmetic α) (hand : Hand) (extent : Extent) (tokens : List Lexeme) :
    Outcome α α :=
  (scan ar hand .empty tokens).andThen (settle ar extent tokens)

/-- Evaluates the text over the hand, each of whose digits must be used exactly once. -/
def evaluate (ar : Arithmetic α) (hand : Hand) (text : String) : Outcome α α :=
  evaluateLevel ar hand .whole (lexemes text)

end Make24
