namespace Make24

def isPlayable (digit : Nat) : Bool :=
  1 ≤ digit && digit ≤ 9

/-- Only the characters from `1` to `9` stand for a digit. -/
def digitOfChar? (c : Char) : Option Nat :=
  if '1' ≤ c ∧ c ≤ '9' then some (c.toNat - '0'.toNat) else none

def charOfDigit (digit : Nat) : Char :=
  Char.ofNat ('0'.toNat + digit)

/-- Digits in brackets, as messages show them: `[4, 4]`. -/
def listText (digits : List Nat) : String :=
  "[" ++ ", ".intercalate (digits.map Nat.repr) ++ "]"

theorem isPlayable_of_digitOfChar? {c : Char} {d : Nat} (h : digitOfChar? c = some d) :
    isPlayable d = true := by
  unfold digitOfChar? at h
  split at h
  · next hc =>
    cases h
    obtain ⟨hl, hu⟩ := hc
    have hl : 49 ≤ c.toNat := hl
    have hu : c.toNat ≤ 57 := hu
    have hz : '0'.toNat = 48 := rfl
    simp only [isPlayable, hz, Bool.and_eq_true, decide_eq_true_eq]
    omega
  · cases h

theorem charOfDigit_of_digitOfChar? {c : Char} {d : Nat} (h : digitOfChar? c = some d) :
    charOfDigit d = c := by
  unfold digitOfChar? at h
  split at h
  · next hc =>
    cases h
    have hl : 49 ≤ c.toNat := hc.1
    have hz : '0'.toNat = 48 := rfl
    have hn : '0'.toNat + (c.toNat - '0'.toNat) = c.toNat := by omega
    rw [charOfDigit, hn, Char.ofNat_toNat]
  · cases h

end Make24
