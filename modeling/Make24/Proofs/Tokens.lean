import Make24.Proofs.Grammar

namespace Make24

/-- The tokens are those of the characters. Positions may be any. -/
def Reads (ls : List Lexeme) (cs : List Char) : Prop :=
  ls.map Lexeme.token = cs.map Token.ofChar

/-- The digits among some tokens. -/
def digits (ls : List Lexeme) : List Nat :=
  ls.filterMap fun l =>
    match l.token with
    | .digit d => some d
    | _ => none

@[simp] theorem digits_nil : digits [] = [] := rfl

@[simp] theorem digits_append (ls ms : List Lexeme) :
    digits (ls ++ ms) = digits ls ++ digits ms :=
  List.filterMap_append

theorem digits_cons_digit (h : l.token = .digit d) (ls : List Lexeme) :
    digits (l :: ls) = d :: digits ls := by
  simp [digits, h]

theorem digits_cons_of_ne (h : ∀ d, l.token ≠ .digit d) (ls : List Lexeme) :
    digits (l :: ls) = digits ls := by
  apply List.filterMap_cons_none
  split
  · next d hd => exact absurd hd (h d)
  · rfl

theorem digits_append_of_ne (h : ∀ d, l.token ≠ .digit d) (ls : List Lexeme) :
    digits (ls ++ [l]) = digits ls := by
  rw [digits_append, digits_cons_of_ne h, digits_nil, List.append_nil]

namespace Token

theorem ofChar_charOfDigit (h : isPlayable d = true) : ofChar (charOfDigit d) = .digit d := by
  rw [ofChar, digitOfChar?_charOfDigit h]

theorem ofChar_symbol (op : Operator) : ofChar op.symbol = .operator op := by
  simp only [ofChar, digitOfChar?_symbol, Operator.ofSymbol?_symbol]

theorem ofChar_open : ofChar '(' = .opening := by decide

theorem ofChar_close : ofChar ')' = .closing := by decide

theorem ofChar_eq_digit_iff {c : Char} {d : Nat} :
    ofChar c = .digit d ↔ digitOfChar? c = some d := by
  constructor
  · intro h
    unfold ofChar at h
    split at h
    · next e hd =>
      cases h
      exact hd
    · cases h
    · split at h
      · cases h
      · split at h <;> cases h
  · intro h
    rw [ofChar, h]

theorem char_of_ofChar (h : ofChar c = t) : t.char = c := by
  rw [← h, char_ofChar]

end Token

theorem lexemesFrom_append (start : Nat) (cs ds : List Char) :
    lexemesFrom start (cs ++ ds) =
      lexemesFrom start cs ++ lexemesFrom (start + cs.length) ds := by
  rw [lexemesFrom, List.zipIdx_append, List.filterMap_append, lexemesFrom, lexemesFrom]

/-- Tokens stand where their characters do. -/
theorem position_of_mem_lexemesFrom (h : l ∈ lexemesFrom start cs) :
    start ≤ l.position ∧ l.position < start + cs.length := by
  obtain ⟨⟨c, position⟩, hm, hl⟩ := List.mem_filterMap.mp h
  have hbounds := List.mem_zipIdx hm
  simp only [Option.ite_none_left_eq_some, Option.some.injEq] at hl
  rw [← hl.2]
  exact ⟨hbounds.1, hbounds.2.1⟩

/-- Of two tokens the later one has the higher position. -/
theorem pairwise_lexemesFrom (start : Nat) (cs : List Char) :
    (lexemesFrom start cs).Pairwise fun l m => l.position < m.position := by
  induction cs generalizing start with
  | nil => exact .nil
  | cons c cs ih =>
    rw [← List.singleton_append, lexemesFrom_append, List.pairwise_append]
    refine ⟨?_, ih _, ?_⟩
    · rw [lexemesFrom, List.zipIdx_singleton]
      cases hc : Text.isBlank c <;> simp [hc]
    · intro l hl m hm
      have h₁ := position_of_mem_lexemesFrom hl
      have h₂ := position_of_mem_lexemesFrom hm
      omega

theorem reads_lexemesFrom (start : Nat) (cs : List Char) :
    Reads (lexemesFrom start cs) (cs.filter (fun c => !Text.isBlank c)) := by
  unfold Reads lexemesFrom
  induction cs generalizing start with
  | nil => rfl
  | cons c cs ih =>
    rw [List.zipIdx_cons, List.filterMap_cons, List.filter_cons]
    cases hc : Text.isBlank c with
    | true => simpa [hc] using ih (start + 1)
    | false => simpa [hc] using ih (start + 1)

theorem reads_lexemes (text : String) : Reads (lexemes text) (dense text) :=
  reads_lexemesFrom 0 text.toList

namespace Reads

theorem digits_eq (h : Reads ls cs) : digits ls = written cs := by
  induction ls generalizing cs with
  | nil =>
    have hc : cs = [] := by simpa [Reads] using h.symm
    rw [hc]
    rfl
  | cons l ls ih =>
    obtain ⟨c, cs, rfl, hc, hs⟩ := List.map_eq_cons_iff.mp h.symm
    rw [written, List.filterMap_cons, ← written, ← ih hs.symm]
    cases hd : digitOfChar? c with
    | some d => exact digits_cons_digit (hc ▸ Token.ofChar_eq_digit_iff.mpr hd) ls
    | none =>
      apply digits_cons_of_ne
      intro d hl
      rw [← hc, Token.ofChar_eq_digit_iff, hd] at hl
      cases hl

theorem ne_nil (h : Reads ls cs) (hne : cs ≠ []) : ls ≠ [] := by
  rintro rfl
  exact hne (by simpa [Reads] using h.symm)

theorem append (h : Reads ls (cs ++ ds)) :
    ∃ ls₁ ls₂, ls = ls₁ ++ ls₂ ∧ Reads ls₁ cs ∧ Reads ls₂ ds := by
  rw [Reads, List.map_append] at h
  exact List.map_eq_append_iff.mp h

theorem cons (h : Reads ls (c :: cs)) :
    ∃ l rest, ls = l :: rest ∧ l.token = Token.ofChar c ∧ Reads rest cs :=
  List.map_eq_cons_iff.mp h

theorem singleton (h : Reads ls [c]) : ∃ l, ls = [l] ∧ l.token = Token.ofChar c := by
  obtain ⟨l, rest, rfl, hl, hr⟩ := h.cons
  have hn : rest = [] := by simpa [Reads] using hr
  exact ⟨l, by rw [hn], hl⟩

theorem between (h : Reads ls (cs ++ op.symbol :: ds)) :
    ∃ ls₁ l ls₂, ls = ls₁ ++ l :: ls₂ ∧ Reads ls₁ cs ∧ l.token = .operator op ∧ Reads ls₂ ds := by
  obtain ⟨ls₁, ls₂, rfl, h₁, h₂⟩ := h.append
  obtain ⟨l, ls₂, rfl, hl, h₂⟩ := h₂.cons
  exact ⟨ls₁, l, ls₂, rfl, h₁, hl.trans (Token.ofChar_symbol op), h₂⟩

theorem brackets (h : Reads ls ('(' :: (cs ++ [')']))) :
    ∃ l inside close, ls = l :: (inside ++ [close]) ∧ l.token = .opening ∧ Reads inside cs ∧
      close.token = .closing := by
  obtain ⟨l, rest, rfl, hl, hr⟩ := h.cons
  obtain ⟨inside, more, rfl, hi, hm⟩ := hr.append
  obtain ⟨close, rfl, hc⟩ := hm.singleton
  exact ⟨l, inside, close, rfl, hl.trans Token.ofChar_open, hi, hc.trans Token.ofChar_close⟩

theorem of_cons (h : Reads (l :: ls) cs) :
    ∃ c cs', cs = c :: cs' ∧ Token.ofChar c = l.token ∧ Reads ls cs' := by
  obtain ⟨c, cs', rfl, hc, hs⟩ := List.map_eq_cons_iff.mp h.symm
  exact ⟨c, cs', rfl, hc, hs.symm⟩

theorem of_append (h : Reads (ls ++ ms) cs) :
    ∃ cs₁ cs₂, cs = cs₁ ++ cs₂ ∧ Reads ls cs₁ ∧ Reads ms cs₂ := by
  rw [Reads, List.map_append] at h
  obtain ⟨cs₁, cs₂, rfl, h₁, h₂⟩ := List.map_eq_append_iff.mp h.symm
  exact ⟨cs₁, cs₂, rfl, h₁.symm, h₂.symm⟩

end Reads

end Make24
