import Make24.Proofs.Acceptance
import Make24.Proofs.Remainder

namespace Make24

def Lexeme.moved (place : Nat → Nat) (l : Lexeme) : Lexeme :=
  { l with position := place l.position }

/-- The same fault at another position. -/
def Fault.moved (place : Nat → Nat) : Fault → Fault
  | .emptyExpression => .emptyExpression
  | .digitNotAvailable digit position => .digitNotAvailable digit (place position)
  | .multiDigitNumber position => .multiDigitNumber (place position)
  | .missingOperator position => .missingOperator (place position)
  | .missingOperand position => .missingOperand (place position)
  | .unmatchedParenthesis position => .unmatchedParenthesis (place position)
  | .unusedDigits remaining => .unusedDigits remaining
  | .invalidToken char position => .invalidToken char (place position)

/-- The token and the next one are digits with nothing between them in the text. -/
def touches (l : Lexeme) (rest : List Lexeme) : Bool :=
  l.token.isDigit && isGlued l rest

/-- Which tokens touch the next one, in order. -/
def touching : List Lexeme → List Bool
  | [] => []
  | l :: rest => touches l rest :: touching rest

section moved
variable {place : Nat → Nat}

@[simp] theorem digits_map_moved (ls : List Lexeme) :
    digits (ls.map (·.moved place)) = digits ls := by
  simp only [digits, List.filterMap_map, Function.comp_def, Lexeme.moved]

@[simp] theorem endsOperand_map_moved (ls : List Lexeme) :
    endsOperand (ls.map (·.moved place)) = endsOperand ls := by
  simp only [endsOperand, List.getLast?_map, Option.any_map, Lexeme.moved]

@[simp] theorem facesClosing_map_moved (ls : List Lexeme) :
    facesClosing (ls.map (·.moved place)) = facesClosing ls := by
  simp only [facesClosing, List.head?_map, Option.any_map, Lexeme.moved]

theorem opens_map_moved (ls : List Lexeme) : opens (ls.map (·.moved place)) = opens ls := by
  simp only [opens, List.countP_map, Function.comp_def, Lexeme.moved]

theorem closes_map_moved (ls : List Lexeme) : closes (ls.map (·.moved place)) = closes ls := by
  simp only [closes, List.countP_map, Function.comp_def, Lexeme.moved]

@[simp] theorem isOpen_map_moved (ls : List Lexeme) :
    isOpen (ls.map (·.moved place)) = isOpen ls := by
  simp only [isOpen, List.map_tails, List.any_map, Function.comp_def, opens_map_moved,
    closes_map_moved]

@[simp] theorem isClosed_map_moved (ls : List Lexeme) :
    isClosed (ls.map (·.moved place)) = isClosed ls := by
  simp only [isClosed, List.map_inits, List.any_map, Function.comp_def, opens_map_moved,
    closes_map_moved]

theorem head?_any_eq_isGlued (l : Lexeme) (rest : List Lexeme) :
    rest.head?.any (fun next => next.token.isDigit && next.position == l.position + 1) =
      isGlued l rest := by
  cases rest <;> rfl

/-- A token has the same fault where it is moved to, as long as digits touch as before. -/
theorem tokenFault_moved (hand : Hand) (before : List Lexeme) {l : Lexeme} {rest : List Lexeme}
    (h : touches (l.moved place) (rest.map (·.moved place)) = touches l rest) :
    tokenFault hand (before.map (·.moved place)) (l.moved place) (rest.map (·.moved place)) =
      (tokenFault hand before l rest).map (·.moved place) := by
  have hmoved : (l.moved place).token = l.token := rfl
  have hplace : (l.moved place).position = place l.position := rfl
  simp only [touches, hmoved] at h
  simp only [tokenFault, head?_any_eq_isGlued, hmoved, digits_map_moved, endsOperand_map_moved,
    facesClosing_map_moved, isOpen_map_moved, isClosed_map_moved]
  cases ht : l.token with
  | digit d =>
    simp only [ht, Token.isDigit, Bool.true_and] at h
    simp only [h, hplace, apply_ite (Option.map _), Option.map_some, Option.map_none, Fault.moved]
  | invalid c => rfl
  | _ => simp only [hplace, apply_ite (Option.map _), Option.map_some, Option.map_none, Fault.moved]

theorem firstTokenFault_moved (hand : Hand) (before : List Lexeme) {tokens : List Lexeme}
    (h : touching (tokens.map (·.moved place)) = touching tokens) :
    firstTokenFault hand (before.map (·.moved place)) (tokens.map (·.moved place)) [] =
      (firstTokenFault hand before tokens []).map (·.moved place) := by
  induction tokens generalizing before with
  | nil => rfl
  | cons l rest ih =>
    obtain ⟨hl, hrest⟩ := List.cons.inj h
    have hbehind := ih (before ++ [l]) hrest
    rw [List.map_append, List.map_singleton] at hbehind
    rw [List.map_cons, firstTokenFault, firstTokenFault, List.append_nil, List.append_nil,
      tokenFault_moved hand before hl, hbehind, Option.map_or]

theorem faultless_moved (hand : Hand) (before : List Lexeme) {tokens : List Lexeme}
    (h : touching (tokens.map (·.moved place)) = touching tokens) :
    faultless hand (before.map (·.moved place)) (tokens.map (·.moved place)) [] =
      (faultless hand before tokens []).map (·.moved place) := by
  induction tokens generalizing before with
  | nil => rfl
  | cons l rest ih =>
    obtain ⟨hl, hrest⟩ := List.cons.inj h
    have hbehind := ih (before ++ [l]) hrest
    rw [List.map_append, List.map_singleton] at hbehind
    rw [List.map_cons, faultless, faultless, List.append_nil, List.append_nil,
      tokenFault_moved hand before hl]
    cases tokenFault hand before l rest with
    | some fault => rfl
    | none => simp only [Option.map_none, hbehind, List.map_cons]

theorem levelFault_moved (extent : Extent) (hand : Hand) (tokens : List Lexeme) :
    levelFault extent hand (tokens.map (·.moved place)) =
      (levelFault extent hand tokens).map (·.moved place) := by
  have hdangling : danglingFault (tokens.map (·.moved place)) =
      (danglingFault tokens).map (·.moved place) := by
    unfold danglingFault
    rw [List.getLast?_map]
    cases tokens.getLast? with
    | none => rfl
    | some last => cases ht : last.token <;> simp [ht, Lexeme.moved, Fault.moved]
  unfold levelFault
  simp only [List.map_eq_nil_iff, hdangling]
  repeat' split
  all_goals rfl

end moved

/-- Tokens of the same characters are the same tokens, moved. -/
theorem exists_moved {ls ms : List Lexeme}
    (hp : ls.Pairwise fun l m => l.position < m.position)
    (h : ls.map Lexeme.token = ms.map Lexeme.token) :
    ∃ place, ms = ls.map (·.moved place) := by
  induction ls generalizing ms with
  | nil => exact ⟨id, by simpa using h.symm⟩
  | cons l ls ih =>
    obtain ⟨m, ms, rfl, hm, hms⟩ := List.map_eq_cons_iff.mp h.symm
    obtain ⟨hl, hls⟩ := List.pairwise_cons.mp hp
    obtain ⟨place, rfl⟩ := ih hls hms.symm
    -- No later token has the first one's position.
    refine ⟨Function.update place l.position m.position, ?_⟩
    rw [List.map_cons, List.cons.injEq]
    refine ⟨?_, List.map_congr_left fun l' hl' => ?_⟩
    · simp [Lexeme.moved, ← hm]
    · have hne : l'.position ≠ l.position := (hl l' hl').ne'
      simp [Lexeme.moved, hne]

theorem Fault.moved_of_none {fault : Fault} (h : fault.position? = none) (place : Nat → Nat) :
    fault.moved place = fault := by
  cases fault with
  | emptyExpression => rfl
  | unusedDigits remaining => rfl
  | _ => cases h

theorem Fault.moved_of_some {fault : Fault} (h : fault.position? = some position)
    (place : Nat → Nat) : fault.moved place = fault.moved fun _ => place position := by
  cases fault with
  | emptyExpression => cases h
  | unusedDigits remaining => cases h
  | _ =>
    obtain rfl := Option.some.inj h
    rfl

/-- A fault that has a position has that of a token. -/
theorem exists_of_position? {ar : Arithmetic α} {hand : Hand}
    (h : (evaluate ar hand text).result = .error fault) (hp : fault.position? = some position) :
    ∃ l ∈ lexemes text, l.position = position := by
  obtain ⟨before, hscanned, -⟩ := exists_scanned ar hand text
  rw [h] at hscanned
  cases hscanned with
  | unused => cases hp
  | nothing empty => cases hp
  | emptyGroup faces first => cases hp
  | blamed place split => exact ⟨_, by simp [split], Option.some.inj (place.symm.trans hp)⟩

section evaluate
variable {text other : String} {place : Nat → Nat}

/-- Texts that differ in blanks only have the same tokens, moved. -/
theorem exists_lexemes_moved (h : dense text = dense other) :
    ∃ place, lexemes other = (lexemes text).map (·.moved place) := by
  have hp : (lexemes text).Pairwise fun l m => l.position < m.position :=
    pairwise_lexemesFrom 0 text.toList
  apply exists_moved hp
  rw [reads_lexemes text, reads_lexemes other, h]

theorem fault?_evaluate_moved (ar : Arithmetic α) (hand : Hand)
    (hmoved : lexemes other = (lexemes text).map (·.moved place))
    (htouch : touching (lexemes other) = touching (lexemes text)) :
    (evaluate ar hand other).fault? = (evaluate ar hand text).fault?.map (·.moved place) := by
  rw [hmoved] at htouch
  have hpass := firstTokenFault_moved hand [] htouch
  rw [List.map_nil] at hpass
  rw [fault?_evaluate, fault?_evaluate, firstFault, firstFault, hmoved, hpass, digits_map_moved,
    levelFault_moved, Option.map_or]

theorem hand_evaluate_moved (ar : Arithmetic α) (hand : Hand)
    (hmoved : lexemes other = (lexemes text).map (·.moved place))
    (htouch : touching (lexemes other) = touching (lexemes text)) :
    (evaluate ar hand other).hand = (evaluate ar hand text).hand := by
  rw [hmoved] at htouch
  have hpass := faultless_moved hand [] htouch
  rw [List.map_nil] at hpass
  rw [hand_evaluate, hand_evaluate, hmoved, hpass, digits_map_moved]

end evaluate

/-- Blanks may stand anywhere: texts that differ in blanks only are accepted alike, with the same
value. If moreover the same digits touch in them, the same digits are taken, and a fault is the same
and at the same token. Digits that touch are no fault of two digits that do not. -/
theorem evaluate_respaced (ar : Arithmetic α) (hand : Hand) (h : dense text = dense other) :
    (∀ value, (evaluate ar hand text).result = .ok value ↔
      (evaluate ar hand other).result = .ok value) ∧
    (touching (lexemes text) = touching (lexemes other) →
      (evaluate ar hand text).hand = (evaluate ar hand other).hand ∧
      ∀ fault, (evaluate ar hand text).result = .error fault →
        fault.position? = none ∧ (evaluate ar hand other).result = .error fault ∨
        ∃ (i : Nat) (l m : Lexeme),
          (lexemes text)[i]? = some l ∧ (lexemes other)[i]? = some m ∧
          fault.position? = some l.position ∧
          (evaluate ar hand other).result = .error (fault.moved fun _ => m.position)) := by
  refine ⟨fun value => by rw [evaluate_eq_ok_iff, evaluate_eq_ok_iff, h], fun htouch => ?_⟩
  obtain ⟨place, hmoved⟩ := exists_lexemes_moved h
  refine ⟨(hand_evaluate_moved ar hand hmoved htouch.symm).symm, fun fault hf => ?_⟩
  have hother := fault?_evaluate_moved ar hand hmoved htouch.symm
  rw [Outcome.fault?_of_error hf, Option.map_some, Outcome.fault?_eq_some_iff] at hother
  cases hp : fault.position? with
  | none =>
    rw [Fault.moved_of_none hp] at hother
    exact .inl ⟨rfl, hother⟩
  | some position =>
    obtain ⟨l, hl, rfl⟩ := exists_of_position? hf hp
    obtain ⟨i, hi⟩ := List.mem_iff_getElem?.mp hl
    rw [Fault.moved_of_some hp] at hother
    refine .inr ⟨i, l, l.moved place, hi, ?_, rfl, hother⟩
    rw [hmoved, List.getElem?_map, hi, Option.map_some]

/-- The blanks that are added include a wide one. -/
theorem evaluate_respaced_wide :
    dense "( 1+2)3" = dense "(1 +2)\u3000 3" ∧
      touching (lexemes "( 1+2)3") = touching (lexemes "(1 +2)\u3000 3") ∧
      (evaluate .float ⟨[3, 2, 1]⟩ "( 1+2)3").result = .error (.missingOperator 6) ∧
      (evaluate .float ⟨[3, 2, 1]⟩ "( 1+2)3").hand =
        (evaluate .float ⟨[3, 2, 1]⟩ "(1 +2)\u3000 3").hand ∧
      ∃ m ∈ lexemes "(1 +2)\u3000 3",
        (evaluate .float ⟨[3, 2, 1]⟩ "(1 +2)\u3000 3").result =
          .error (.missingOperator m.position) := by
  have hdense : dense "( 1+2)3" = dense "(1 +2)\u3000 3" := by decide
  have htouch : touching (lexemes "( 1+2)3") = touching (lexemes "(1 +2)\u3000 3") := by decide
  have hfault : (evaluate .float ⟨[3, 2, 1]⟩ "( 1+2)3").fault? = some (.missingOperator 6) := by
    rw [fault?_evaluate]
    decide
  rw [Outcome.fault?_eq_some_iff] at hfault
  obtain ⟨hhand, hall⟩ := (evaluate_respaced .float ⟨[3, 2, 1]⟩ hdense).2 htouch
  refine ⟨hdense, htouch, hfault, hhand, ?_⟩
  rcases hall _ hfault with ⟨hnone, -⟩ | ⟨i, l, m, -, hm, -, hother⟩
  · cases hnone
  · exact ⟨m, List.mem_of_getElem? hm, hother⟩

-- Apart, the two digits lack an operator, together they are one number.
example : touching (lexemes "1 2") ≠ touching (lexemes "12") := by decide

end Make24
