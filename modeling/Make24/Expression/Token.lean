import Make24.Digit
import Make24.Text.Blank
import Make24.Expression.Operator

namespace Make24

inductive Token where
  | digit (value : Nat)
  | operator (op : Operator)
  | opening
  | closing
  | invalid (char : Char)
  deriving DecidableEq, Repr

namespace Token

def ofChar (c : Char) : Token :=
  match digitOfChar? c, Operator.ofSymbol? c with
  | some d, _ => .digit d
  | none, some op => .operator op
  | none, none => if c = '(' then .opening else if c = ')' then .closing else .invalid c

/-- The character a token was read from. -/
def char : Token → Char
  | .digit d => charOfDigit d
  | .operator op => op.symbol
  | .opening => '('
  | .closing => ')'
  | .invalid c => c

theorem char_ofChar (c : Char) : (ofChar c).char = c := by
  unfold ofChar
  split
  · next hd => exact charOfDigit_of_digitOfChar? hd
  · next ho => exact Operator.symbol_of_ofSymbol? ho
  · split
    · next h => exact h.symm
    · split
      · next h => exact h.symm
      · rfl

def isDigit : Token → Bool
  | .digit _ => true
  | _ => false

end Token

/-- A token and how many characters of the text come before it. -/
structure Lexeme where
  token : Token
  position : Nat
  deriving DecidableEq, Repr

/-- One token for every character that is not blank. The first character has the position
`start`, and blank ones count. -/
def lexemesFrom (start : Nat) (cs : List Char) : List Lexeme :=
  (cs.zipIdx start).filterMap fun (c, position) =>
    if Text.isBlank c then none else some ⟨.ofChar c, position⟩

def lexemes (text : String) : List Lexeme :=
  lexemesFrom 0 text.toList

end Make24
