import Make24.Digit

namespace Make24

/-- The digits an expression may still use, in the order they were dealt. A digit dealt twice may
be used twice. -/
structure Hand where
  digits : List Nat
  deriving DecidableEq, Repr, Inhabited

/-- A dealt number that is no digit from 1 to 9. -/
structure OutOfRange where
  digit : Nat
  deriving DecidableEq, Repr

def OutOfRange.message (e : OutOfRange) : String :=
  "Digit must be between 1 and 9, got " ++ e.digit.repr

namespace Hand

/-- A hand of playable digits. Of several bad numbers the first is blamed. -/
def ofDigits (digits : List Nat) : Except OutOfRange Hand :=
  match digits.find? (fun d => !isPlayable d) with
  | some d => .error ⟨d⟩
  | none => .ok ⟨digits⟩

def contains (hand : Hand) (digit : Nat) : Bool :=
  hand.digits.contains digit

def isEmpty (hand : Hand) : Bool :=
  hand.digits.isEmpty

/-- The hand without the leftmost occurrence of the digit. -/
def erase (hand : Hand) (digit : Nat) : Hand :=
  ⟨hand.digits.erase digit⟩

def remove? (hand : Hand) (digit : Nat) : Option Hand :=
  if hand.contains digit then some (hand.erase digit) else none

theorem ofDigits_eq_ok_iff {digits : List Nat} {hand : Hand} :
    ofDigits digits = .ok hand ↔ hand.digits = digits ∧ ∀ d ∈ digits, isPlayable d = true := by
  unfold ofDigits
  split
  · next d hd =>
    have hm := List.mem_of_find?_eq_some hd
    have hp := List.find?_some hd
    constructor
    · intro h
      cases h
    · intro h
      simp [h.2 d hm] at hp
  · next hn =>
    simp only [List.find?_eq_none, Bool.not_eq_true, Bool.not_eq_false'] at hn
    constructor
    · intro h
      cases h
      exact ⟨rfl, hn⟩
    · intro h
      exact congrArg Except.ok (by cases hand; simp [← h.1])

end Hand

end Make24
