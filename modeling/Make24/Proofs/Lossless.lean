import Make24.Proofs.Tokens

namespace Make24

namespace Token

/-- A token that some character is read as. Digits are playable, and no character that means
something is invalid. -/
def IsProper : Token → Prop
  | .digit d => 1 ≤ d ∧ d ≤ 9
  | .operator _ | .opening | .closing => True
  | .invalid c => ¬('1' ≤ c ∧ c ≤ '9') ∧ c ∉ ['+', '-', '*', '/', '(', ')']

theorem isProper_ofChar (c : Char) : (ofChar c).IsProper := by
  unfold ofChar
  split
  · next d _ hd => simpa [IsProper, isPlayable] using isPlayable_of_digitOfChar? hd
  · trivial
  · next hd ho =>
    split
    · trivial
    · next hopen =>
      split
      · trivial
      · next hclose =>
        refine ⟨fun hrange => by simp [digitOfChar?, hrange] at hd, ?_⟩
        simp only [List.mem_cons, List.not_mem_nil, or_false, not_or]
        refine ⟨?_, ?_, ?_, ?_, hopen, hclose⟩
        all_goals
          rintro rfl
          cases ho

/-- A proper token is the one that its character is read as. -/
theorem ofChar_char {t : Token} (h : t.IsProper) : ofChar t.char = t := by
  cases t with
  | digit d => exact ofChar_charOfDigit (by simpa [IsProper, isPlayable] using h)
  | operator op => exact ofChar_symbol op
  | opening => exact ofChar_open
  | closing => exact ofChar_close
  | invalid c =>
    obtain ⟨hrange, hsigns⟩ := h
    simp only [List.mem_cons, List.not_mem_nil, or_false, not_or] at hsigns
    obtain ⟨hadd, hsub, hmul, hdiv, hopen, hclose⟩ := hsigns
    have hdigit : digitOfChar? c = none := if_neg hrange
    have hop : Operator.ofSymbol? c = none := by
      unfold Operator.ofSymbol?
      split <;> simp_all
    simp only [char, ofChar, hdigit, hop, hopen, hclose, if_false]

end Token

/-- Characters and places are kept. -/
theorem map_lexemesFrom (start : Nat) (cs : List Char) :
    (lexemesFrom start cs).map (fun l => (l.token.char, l.position)) =
      (cs.zipIdx start).filter (fun p => !Text.isBlank p.1) := by
  rw [lexemesFrom, List.map_filterMap, ← List.filterMap_eq_filter]
  congr 1
  funext p
  obtain ⟨c, position⟩ := p
  cases hblank : Text.isBlank c <;> simp [hblank, Option.guard, Token.char_ofChar]

theorem mem_lexemes_iff {text : String} {l : Lexeme} :
    l ∈ lexemes text ↔ ∃ c, text.toList[l.position]? = some c ∧ Text.isBlank c = false ∧
      l.token = .ofChar c := by
  rw [lexemes, lexemesFrom, List.mem_filterMap]
  constructor
  · rintro ⟨⟨c, position⟩, hm, hl⟩
    rw [List.mk_mem_zipIdx_iff_getElem?] at hm
    simp only [Option.ite_none_left_eq_some, Option.some.injEq, Bool.not_eq_true] at hl
    obtain ⟨hblank, rfl⟩ := hl
    exact ⟨c, hm, hblank, rfl⟩
  · rintro ⟨c, hm, hblank, ht⟩
    refine ⟨(c, l.position), List.mk_mem_zipIdx_iff_getElem?.mpr hm, ?_⟩
    simp [hblank, ← ht]

/-- Tokens stand in a text in their order, each as its character at its position, and there is
nothing else but blanks. -/
structure Renders (tokens : List Lexeme) (text : String) : Prop where
  ordered : tokens.Pairwise fun l m => l.position < m.position
  proper : ∀ l ∈ tokens, l.token.IsProper ∧ Text.isBlank l.token.char = false
  placed : ∀ l ∈ tokens, text.toList[l.position]? = some l.token.char
  blank : ∀ i c, text.toList[i]? = some c → (∀ l ∈ tokens, l.position ≠ i) → Text.isBlank c = true

theorem renders_lexemes (text : String) : Renders (lexemes text) text := by
  refine ⟨pairwise_lexemesFrom 0 text.toList, ?_, ?_, ?_⟩
  · intro l hl
    obtain ⟨c, -, hblank, ht⟩ := mem_lexemes_iff.mp hl
    rw [ht, Token.char_ofChar]
    exact ⟨Token.isProper_ofChar c, hblank⟩
  · intro l hl
    obtain ⟨c, hc, -, ht⟩ := mem_lexemes_iff.mp hl
    rw [ht, Token.char_ofChar, hc]
  · intro i c hc hfree
    cases hblank : Text.isBlank c with
    | true => rfl
    | false =>
      exact absurd rfl (hfree ⟨.ofChar c, i⟩ (mem_lexemes_iff.mpr ⟨c, hc, hblank, rfl⟩))

theorem Renders.mem_iff (h : Renders tokens text) (l : Lexeme) :
    l ∈ tokens ↔ l ∈ lexemes text := by
  rw [mem_lexemes_iff]
  constructor
  · intro hl
    obtain ⟨hproper, hblank⟩ := h.proper l hl
    exact ⟨_, h.placed l hl, hblank, (Token.ofChar_char hproper).symm⟩
  · rintro ⟨c, hc, hblank, ht⟩
    -- The character is not blank, so some token stands at its place, and it is this one.
    by_cases htaken : ∃ m ∈ tokens, m.position = l.position
    · obtain ⟨m, hm, hplace⟩ := htaken
      have hchar := h.placed m hm
      rw [hplace, hc, Option.some.injEq] at hchar
      have htoken : m.token = l.token := by
        rw [ht, hchar, Token.ofChar_char (h.proper m hm).1]
      cases m
      cases l
      cases hplace
      cases htoken
      exact hm
    · rw [h.blank _ c hc fun m hm hplace => htaken ⟨m, hm, hplace⟩] at hblank
      cases hblank

/-- A text has the tokens that it renders, and no others. -/
theorem lexemes_eq_iff : lexemes text = tokens ↔ Renders tokens text := by
  constructor
  · rintro rfl
    exact renders_lexemes text
  · intro h
    have hp : (lexemes text).Pairwise fun l m => l.position < m.position :=
      pairwise_lexemesFrom 0 text.toList
    have hne {ls : List Lexeme} (hls : ls.Pairwise fun l m => l.position < m.position) :
        ls.Nodup := hls.imp fun hlt he => Nat.ne_of_lt hlt (congrArg Lexeme.position he)
    have hperm : (lexemes text).Perm tokens :=
      (List.perm_ext_iff_of_nodup (hne hp) (hne h.ordered)).mpr fun l => (h.mem_iff l).symm
    exact List.Perm.eq_of_pairwise (fun _ _ _ _ hlt hgt => absurd hgt (Nat.lt_asymm hlt)) hp
      h.ordered hperm

/-- Reading a text as tokens loses nothing and invents nothing. There is one token for each
character that is not blank, in order, with that character and its place. Every other text with the
same characters at the same places and blanks around them has the same tokens, and no further
text. -/
theorem lexemes_lossless (text : String) :
    (lexemes text).map (fun l => (l.token.char, l.position)) =
        text.toList.zipIdx.filter (fun p => !Text.isBlank p.1) ∧
      (lexemes text).Pairwise (fun l m => l.position < m.position) ∧
      (∀ l ∈ lexemes text, l.token.IsProper) ∧
      (∀ l ∈ lexemes text, ∀ d, l.token = .digit d → 1 ≤ d ∧ d ≤ 9) ∧
      ∀ other, lexemes other = lexemes text ↔
        (∀ l ∈ lexemes text, other.toList[l.position]? = some l.token.char) ∧
          ∀ i c, other.toList[i]? = some c → (∀ l ∈ lexemes text, l.position ≠ i) →
            Text.isBlank c = true := by
  have hr := renders_lexemes text
  refine ⟨?_, hr.ordered, fun l hl => (hr.proper l hl).1, ?_, fun other => ?_⟩
  · exact map_lexemesFrom 0 text.toList
  · intro l hl d hd
    have hproper := (hr.proper l hl).1
    rwa [hd] at hproper
  · rw [lexemes_eq_iff]
    exact ⟨fun h => ⟨h.placed, h.blank⟩, fun h => ⟨hr.ordered, hr.proper, h.1, h.2⟩⟩

end Make24
