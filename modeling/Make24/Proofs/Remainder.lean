import Make24.Proofs.FirstFault

namespace Make24

/-- The tokens in front of the first that has a fault, where others stand before and after them. -/
def faultless (hand : Hand) (before : List Lexeme) : List Lexeme → List Lexeme → List Lexeme
  | [], _ => []
  | l :: rest, after =>
    match tokenFault hand before l (rest ++ after) with
    | some _ => []
    | none => l :: faultless hand (before ++ [l]) rest after

section faultless
variable {hand : Hand} {before after : List Lexeme}

theorem faultless_cons_of_some (h : tokenFault hand before l (rest ++ after) = some fault) :
    faultless hand before (l :: rest) after = [] := by
  rw [faultless, h]

theorem faultless_cons_of_none (h : tokenFault hand before l (rest ++ after) = none) :
    faultless hand before (l :: rest) after = l :: faultless hand (before ++ [l]) rest after := by
  rw [faultless, h]

theorem faultless_of_none (h : firstTokenFault hand before tokens after = none) :
    faultless hand before tokens after = tokens := by
  induction tokens generalizing before with
  | nil => rfl
  | cons l rest ih =>
    rw [firstTokenFault, Option.or_eq_none_iff] at h
    rw [faultless_cons_of_none h.1, ih h.2]

/-- The first fault is that of the token behind those without one. -/
theorem exists_of_firstTokenFault (h : firstTokenFault hand before tokens after = some fault) :
    ∃ l rest, tokens = faultless hand before tokens after ++ l :: rest ∧
      firstTokenFault hand before (faultless hand before tokens after) (l :: rest ++ after) = none ∧
      tokenFault hand (before ++ faultless hand before tokens after) l (rest ++ after) =
        some fault := by
  induction tokens generalizing before with
  | nil => cases h
  | cons l rest ih =>
    rw [firstTokenFault] at h
    cases hl : tokenFault hand before l (rest ++ after) with
    | some fault' =>
      rw [hl, Option.some_or, Option.some.injEq] at h
      rw [faultless_cons_of_some hl, List.append_nil]
      exact ⟨l, rest, rfl, rfl, by rw [hl, h]⟩
    | none =>
      rw [hl, Option.none_or] at h
      obtain ⟨m, more, hsplit, hnone, hm⟩ := ih h
      rw [faultless_cons_of_none hl]
      generalize faultless hand (before ++ [l]) rest after = seen at hsplit hnone hm ⊢
      subst hsplit
      refine ⟨m, more, rfl, ?_, by simpa using hm⟩
      rw [List.append_assoc] at hl
      rw [firstTokenFault, hl, hnone, Option.none_or]

theorem faultless_append_of_some (h : firstTokenFault hand before ls (ms ++ after) = some fault) :
    faultless hand before (ls ++ ms) after = faultless hand before ls (ms ++ after) := by
  induction ls generalizing before with
  | nil => cases h
  | cons l ls ih =>
    rw [firstTokenFault] at h
    cases hl : tokenFault hand before l (ls ++ (ms ++ after)) with
    | some fault' =>
      rw [faultless_cons_of_some hl, List.cons_append,
        faultless_cons_of_some (by rw [List.append_assoc]; exact hl)]
    | none =>
      rw [hl, Option.none_or] at h
      rw [faultless_cons_of_none hl, List.cons_append,
        faultless_cons_of_none (by rw [List.append_assoc]; exact hl), ih h]

theorem faultless_append_of_none (h : firstTokenFault hand before ls (ms ++ after) = none) :
    faultless hand before (ls ++ ms) after = ls ++ faultless hand (before ++ ls) ms after := by
  induction ls generalizing before with
  | nil => simp
  | cons l ls ih =>
    rw [firstTokenFault, Option.or_eq_none_iff] at h
    rw [List.cons_append, faultless_cons_of_none (by rw [List.append_assoc]; exact h.1), ih h.2]
    simp

/-- A token without a fault spends no digit more often than the hand holds it. -/
theorem count_append_le (hl : tokenFault hand before l rest = none)
    (h : ∀ d, (digits before).count d ≤ hand.digits.count d) (e : Nat) :
    (digits (before ++ [l])).count e ≤ hand.digits.count e := by
  cases ht : l.token with
  | digit d =>
    have hlt : (digits before).count d < hand.digits.count d := by
      simp only [tokenFault, ht] at hl
      split at hl
      · cases hl
      · next hlt => exact Nat.lt_of_not_le hlt
    have he := h e
    rw [digits_append, digits_cons_digit ht, digits_nil, List.count_append, List.count_singleton]
    split
    · next hde =>
      obtain rfl := beq_iff_eq.mp hde
      omega
    · omega
  | _ =>
    rw [digits_append_of_ne (by simp [ht])]
    exact h e

/-- The hand holds every digit in front of the first fault, each as often as it is written. -/
theorem count_faultless_le (h : ∀ d, (digits before).count d ≤ hand.digits.count d) (d : Nat) :
    (digits (before ++ faultless hand before tokens after)).count d ≤ hand.digits.count d := by
  induction tokens generalizing before with
  | nil => simpa [faultless] using h d
  | cons l rest ih =>
    cases hl : tokenFault hand before l (rest ++ after) with
    | some fault => simpa [faultless_cons_of_some hl] using h d
    | none =>
      rw [faultless_cons_of_none hl, List.append_cons]
      exact ih (count_append_le hl h)

end faultless

section group
variable {ar : Arithmetic α} {start hand : Hand} {pending : Pending α}
  {before inside behind after : List Lexeme}
  (h : Abreast start extent before (l :: (inside ++ close :: behind)) after hand pending)
  (hmove : nextMove hand pending.endsInValue l (inside ++ close :: behind) = .enter inside behind)
  (hc : close.token = .closing)
include h hmove hc

/-- In a group with a fault the pass comes as far as in its tokens alone. -/
theorem faultless_group_of_some
    (hfault : (evaluateLevel ar hand .group inside).fault? = some fault) :
    digits (before ++ faultless start before (l :: (inside ++ close :: behind)) after) =
      digits (before ++ [l] ++ faultless start (before ++ [l]) inside
        (close :: (behind ++ after))) := by
  have hl := (nextMove_eq_enter_iff.mp hmove).1
  have hopening := h.fault_of_enter hmove
  rw [fault?_group (firstTokenFault_eq ar start _ _ _ _ _ (h.enter hmove hc))] at hfault
  by_cases hi : inside = []
  · rw [if_pos hi] at hopening
    rw [faultless_cons_of_some hopening, hi, faultless, List.append_nil, List.append_nil,
      digits_append_of_ne (by simp [hl])]
  · rw [if_neg hi] at hopening hfault
    rw [faultless_cons_of_none hopening, faultless_append_of_some hfault, List.append_assoc,
      List.singleton_append, List.cons_append]

/-- The pass goes over a group with a value as a whole. -/
theorem faultless_group_of_ok (hlevel : (evaluateLevel ar hand .group inside).result = .ok value) :
    faultless start before (l :: (inside ++ close :: behind)) after =
      l :: (inside ++ close ::
        faultless start (before ++ [l] ++ inside ++ [close]) behind after) := by
  obtain ⟨-, -, hi, -⟩ := result_evaluateLevel_eq_ok_iff.mp hlevel
  have hopening := h.fault_of_enter hmove
  have hgroup := fault?_group (firstTokenFault_eq ar start _ _ _ _ _ (h.enter hmove hc))
  rw [if_neg hi] at hopening hgroup
  rw [Outcome.fault?_of_ok hlevel] at hgroup
  rw [faultless_cons_of_none hopening, faultless_append_of_none hgroup.symm,
    faultless_cons_of_none (h.fault_of_closing hmove hc)]

end group

/-- A scan takes from the hand the digits in front of the first fault. -/
theorem hand_scan (ar : Arithmetic α) (start : Hand) (before after : List Lexeme)
    (hand : Hand) (pending : Pending α) (tokens : List Lexeme)
    (h : Abreast start extent before tokens after hand pending) :
    (scan ar hand pending tokens).hand =
      start.spend (digits (before ++ faultless start before tokens after)) := by
  induction hand, pending, tokens using scan_induction ar generalizing extent before after with
  | nil hand pending =>
    rw [scan_nil, faultless, List.append_nil, ← h.spent]
    rfl
  | refuse hand pending l rest fault hmove =>
    rw [scan_of_refuse ar hmove, faultless_cons_of_some (h.fault_of_refuse hmove), List.append_nil,
      ← h.spent]
    rfl
  | spend hand pending l rest d hmove ih =>
    rw [scan_of_spend ar hmove, Outcome.hand_after, ih _ _ (h.spend hmove _),
      faultless_cons_of_none (h.fault_of_spend hmove), List.append_assoc, List.singleton_append]
  | combine hand pending l rest op hmove ih =>
    have hl := (nextMove_eq_combine_iff.mp hmove).1
    have hfault := h.fault_of_combine hmove
    rw [scan_of_combine ar hmove, Outcome.hand_after, ih _ _ (h.combine hmove ar)]
    split at hfault
    · next hend =>
      -- The pass blames an operator that the scan lets through, but it has no digit.
      rw [faultless_cons_of_some hfault, hend.2, faultless, List.append_nil, List.append_nil,
        digits_append_of_ne (by simp [hl])]
    · rw [faultless_cons_of_none hfault, List.append_assoc, List.singleton_append]
  | enter hand pending l rest inside behind hmove ih ihbehind =>
    obtain ⟨close, hc, rfl, -⟩ := eq_of_enter hmove
    rw [scan_of_enter ar hmove, Outcome.hand_after]
    cases hlevel : (evaluateLevel ar hand .group inside).result with
    | error fault =>
      rw [Outcome.andThen_of_error hlevel, hand_evaluateLevel, ih _ _ (h.enter hmove hc),
        faultless_group_of_some h hmove hc (Outcome.fault?_of_error hlevel)]
    | ok value =>
      rw [Outcome.andThen_of_ok hlevel, Outcome.hand_after,
        ihbehind value _ _ _ (h.leave hmove hc hlevel), faultless_group_of_ok h hmove hc hlevel]
      simp only [List.append_assoc, List.cons_append, List.nil_append]

/-- Where a fault is, if it is that of one token. -/
def Fault.position? : Fault → Option Nat
  | .digitNotAvailable _ position | .multiDigitNumber position | .missingOperator position
  | .missingOperand position | .unmatchedParenthesis position | .invalidToken _ position =>
    some position
  | .emptyExpression | .unusedDigits _ => none

/-- Brackets with nothing between them stand behind the tokens `before`. -/
def FacesEmptyGroup (before tokens : List Lexeme) : Prop :=
  ∃ l close rest, l.token = .opening ∧ close.token = .closing ∧
    tokens = before ++ l :: close :: rest

/-- The tokens that are scanned before an evaluation ends with a result. A fault is that of the
token at its position. An empty expression is the first pair of brackets with nothing between them,
or a text without tokens. -/
inductive Scanned (tokens : List Lexeme) : Except Fault α → List Lexeme → Prop where
  | accepted : Scanned tokens (.ok value) tokens
  | unused : Scanned tokens (.error (.unusedDigits remaining)) tokens
  | nothing (empty : tokens = []) : Scanned tokens (.error .emptyExpression) []
  | emptyGroup (faces : FacesEmptyGroup before tokens)
      (first : ∀ before', FacesEmptyGroup before' tokens → before.length ≤ before'.length) :
      Scanned tokens (.error .emptyExpression) before
  | blamed (place : fault.position? = some l.position) (split : tokens = before ++ l :: rest) :
      Scanned tokens (.error fault) before

theorem eq_takeWhile_of_split {tokens : List Lexeme}
    (hp : tokens.Pairwise fun l m => l.position < m.position) (hs : tokens = before ++ l :: rest) :
    before = tokens.takeWhile fun m => decide (m.position < l.position) := by
  subst hs
  obtain ⟨-, -, hlt⟩ := List.pairwise_append.mp hp
  rw [List.takeWhile_append_of_pos, List.takeWhile_cons_of_neg (by simp), List.append_nil]
  intro m hm
  exact decide_eq_true (hlt m hm l List.mem_cons_self)

theorem FacesEmptyGroup.eq_of_length (h : FacesEmptyGroup before tokens)
    (h' : FacesEmptyGroup before' tokens) (hl : before.length = before'.length) :
    before = before' := by
  obtain ⟨l, close, rest, -, -, hs⟩ := h
  obtain ⟨l', close', rest', -, -, hs'⟩ := h'
  exact (List.append_inj (hs.symm.trans hs') hl).1

/-- A result tells which tokens were scanned. -/
theorem Scanned.unique {result : Except Fault α} {tokens : List Lexeme}
    (hp : tokens.Pairwise fun l m => l.position < m.position)
    (h : Scanned tokens result before) (h' : Scanned tokens result before') : before = before' := by
  cases h with
  | accepted => cases h'; rfl
  | unused =>
    cases h' with
    | unused => rfl
    | blamed place split => cases place
  | nothing empty =>
    cases h' with
    | nothing empty' => rfl
    | emptyGroup faces first =>
      obtain ⟨l, close, rest, -, -, hs⟩ := faces
      simp [empty] at hs
    | blamed place split => cases place
  | emptyGroup faces first =>
    cases h' with
    | nothing empty =>
      obtain ⟨l, close, rest, -, -, hs⟩ := faces
      simp [empty] at hs
    | emptyGroup faces' first' =>
      exact faces.eq_of_length faces' (Nat.le_antisymm (first _ faces') (first' _ faces))
    | blamed place split => cases place
  | blamed place split =>
    cases h' with
    | unused => cases place
    | nothing empty => cases place
    | emptyGroup faces first => cases place
    | blamed place' split' =>
      have hsame := Option.some.inj (place.symm.trans place')
      rw [eq_takeWhile_of_split hp split, eq_takeWhile_of_split hp split', hsame]

theorem tokenFault_ne_none_of_empty {hand : Hand} (hl : l.token = .opening)
    (hc : facesClosing rest = true) : tokenFault hand before l rest ≠ none := by
  simp only [tokenFault, hl, hc]
  split
  · simp
  · split <;> simp

/-- A token's fault is at the token, or it is the emptiness of brackets that the token opens. -/
theorem position?_of_tokenFault {hand : Hand} (h : tokenFault hand before l rest = some fault) :
    fault.position? = some l.position ∨
      fault = .emptyExpression ∧ l.token = .opening ∧ facesClosing rest = true := by
  unfold tokenFault at h
  cases ht : l.token with
  | digit d =>
    simp only [ht] at h
    repeat' split at h
    all_goals cases h
    all_goals exact .inl rfl
  | opening =>
    simp only [ht] at h
    split at h
    · cases h; exact .inl rfl
    · split at h
      · cases h; exact .inl rfl
      · split at h
        · next hc => cases h; exact .inr ⟨rfl, rfl, hc⟩
        · cases h
  | operator op =>
    simp only [ht] at h
    repeat' split at h
    all_goals cases h
    all_goals exact .inl rfl
  | closing =>
    simp only [ht] at h
    split at h <;> cases h
    exact .inl rfl
  | invalid c =>
    simp only [ht] at h
    cases h
    exact .inl rfl

theorem tokenFault_of_firstTokenFault {hand : Hand}
    (h : firstTokenFault hand before (ls ++ l :: ms) after = none) :
    tokenFault hand (before ++ ls) l (ms ++ after) = none := by
  rw [firstTokenFault_append, Option.or_eq_none_iff, firstTokenFault, Option.or_eq_none_iff] at h
  exact h.2.1

theorem exists_of_facesClosing (h : facesClosing rest = true) :
    ∃ close more, rest = close :: more ∧ close.token = .closing := by
  cases rest with
  | nil => cases h
  | cons close more => exact ⟨close, more, rfl, by simpa [facesClosing] using h⟩

/-- The first token with a fault is the one that its fault tells. -/
theorem scanned_of_firstTokenFault {hand : Hand}
    (h : firstTokenFault hand [] tokens [] = some fault) :
    Scanned tokens (.error fault : Except Fault α) (faultless hand [] tokens []) := by
  obtain ⟨l, rest, hsplit, hnone, hl⟩ := exists_of_firstTokenFault h
  generalize faultless hand [] tokens [] = seen at hsplit hnone hl ⊢
  rcases position?_of_tokenFault hl with hp | ⟨rfl, ho, hc⟩
  · exact .blamed hp hsplit
  · rw [List.append_nil] at hc hnone
    obtain ⟨close, more, rfl, hclose⟩ := exists_of_facesClosing hc
    refine .emptyGroup ⟨l, close, more, ho, hclose, hsplit⟩ ?_
    rintro before' ⟨l', close', rest', ho', hc', hs'⟩
    -- An earlier pair of empty brackets would have been a fault.
    apply Nat.le_of_not_lt
    intro hlt
    obtain ⟨mid, hmid, htail⟩ : ∃ mid, seen = before' ++ l' :: mid ∧
        close' :: rest' = mid ++ l :: close :: more := by
      rcases List.append_eq_append_iff.mp (hsplit.symm.trans hs') with
        ⟨mid, hb, -⟩ | ⟨mid, hb, ht⟩
      · have hlen := congrArg List.length hb
        rw [List.length_append] at hlen
        omega
      · cases mid with
        | nil =>
          have hlen := congrArg List.length hb
          rw [List.append_nil] at hlen
          omega
        | cons m mid =>
          obtain ⟨rfl, htail⟩ := List.cons.inj ht
          exact ⟨mid, hb, htail⟩
    rw [hmid] at hnone
    apply tokenFault_ne_none_of_empty ho' _ (tokenFault_of_firstTokenFault hnone)
    rw [← htail]
    simp [facesClosing, hc']

/-- An evaluation takes from the hand the digits in front of the first fault. -/
theorem hand_evaluate (ar : Arithmetic α) (hand : Hand) (text : String) :
    (evaluate ar hand text).hand =
      hand.spend (digits (faultless hand [] (lexemes text) [])) := by
  rw [evaluate, hand_evaluateLevel]
  exact hand_scan ar hand [] [] hand .empty (lexemes text) (.whole hand _)

-- The second bracket has the first fault, so nothing behind it is taken.
example : digits (faultless ⟨[2, 3, 4, 4]⟩ [] (lexemes "(2 + 3)(4*") []) = [2, 3] := by decide

theorem eq_of_danglingFault (h : danglingFault tokens = some fault) :
    ∃ front last op, tokens = front ++ [last] ∧ last.token = .operator op ∧
      fault = .missingOperand last.position := by
  obtain ⟨last, hlast, hf⟩ := Option.bind_eq_some_iff.mp h
  obtain ⟨front, rfl⟩ := List.getLast?_eq_some_iff.mp hlast
  cases ht : last.token with
  | operator op =>
    simp only [ht, Option.some.injEq] at hf
    exact ⟨front, last, op, rfl, ht, hf.symm⟩
  | _ => simp [ht] at hf

/-- The digits scanned before an evaluation ends are those in front of the first fault. -/
theorem exists_scanned (ar : Arithmetic α) (hand : Hand) (text : String) :
    ∃ before, Scanned (lexemes text) (evaluate ar hand text).result before ∧
      digits before = digits (faultless hand [] (lexemes text) []) := by
  have hfault := fault?_evaluate ar hand text
  rw [firstFault] at hfault
  cases hpass : firstTokenFault hand [] (lexemes text) [] with
  | some fault =>
    rw [hpass, Option.some_or, Outcome.fault?_eq_some_iff] at hfault
    rw [hfault]
    exact ⟨_, scanned_of_firstTokenFault hpass, rfl⟩
  | none =>
    rw [hpass, Option.none_or] at hfault
    rw [faultless_of_none hpass]
    cases hres : (evaluate ar hand text).result with
    | ok value => exact ⟨_, .accepted, rfl⟩
    | error fault =>
      rw [Outcome.fault?_of_error hres, levelFault] at hfault
      split at hfault
      · next hnil =>
        obtain rfl := Option.some.inj hfault
        exact ⟨[], .nothing hnil, by rw [hnil]⟩
      · split at hfault
        · obtain rfl := Option.some.inj hfault
          exact ⟨_, .unused, rfl⟩
        · obtain ⟨front, last, op, hsplit, hop, rfl⟩ := eq_of_danglingFault hfault.symm
          exact ⟨front, .blamed rfl hsplit, by rw [hsplit, digits_append_of_ne (by simp [hop])]⟩

theorem firstTokenFault_ne_unusedDigits {hand : Hand} (tokens : List Lexeme)
    (remaining : List Nat) :
    firstTokenFault hand [] tokens [] ≠ some (.unusedDigits remaining) := by
  intro h
  obtain ⟨l, rest, -, -, hl⟩ := exists_of_firstTokenFault h
  rcases position?_of_tokenFault hl with hp | ⟨he, -⟩
  · cases hp
  · cases he

/-- Digits that are left unused are left in the hand. -/
theorem remaining_of_unusedDigits {ar : Arithmetic α} {hand : Hand}
    (h : (evaluate ar hand text).result = .error (.unusedDigits remaining)) :
    (evaluate ar hand text).hand.digits = remaining := by
  have hfault := fault?_evaluate ar hand text
  rw [Outcome.fault?_of_error h, firstFault] at hfault
  cases hpass : firstTokenFault hand [] (lexemes text) [] with
  | some fault =>
    rw [hpass, Option.some_or] at hfault
    exact absurd (hpass.trans hfault.symm) (firstTokenFault_ne_unusedDigits _ _)
  | none =>
    rw [hpass, Option.none_or, levelFault] at hfault
    rw [hand_evaluate, faultless_of_none hpass]
    split at hfault
    · cases hfault
    · split at hfault
      · cases hfault
        rfl
      · obtain ⟨front, last, op, -, -, hf⟩ := eq_of_danglingFault hfault.symm
        cases hf

/-- An evaluation takes from the hand one digit for each digit token scanned, always the leftmost
that is left, and leaves the others in their order. So an accepted text leaves none, unused digits
are those left, and nothing is taken if the first token has a fault. An operator that comes last
has all digits of the text in front of it. -/
theorem evaluate_takes_scanned (ar : Arithmetic α) (hand : Hand) (text : String) :
    let outcome := evaluate ar hand text
    ∃ before, (∀ other, Scanned (lexemes text) outcome.result other ↔ other = before) ∧
      outcome.hand = hand.spend (digits before) ∧
      (digits before ++ outcome.hand.digits).Perm hand.digits ∧
      (∀ value, outcome.result = .ok value → outcome.hand.digits = []) ∧
      (∀ remaining, outcome.result = .error (.unusedDigits remaining) →
        outcome.hand.digits = remaining) ∧
      (∀ front last op, lexemes text = front ++ [last] → last.token = .operator op →
        outcome.result = .error (.missingOperand last.position) →
          outcome.hand = hand.spend (digits (lexemes text))) ∧
      (before = [] → outcome.hand = hand) := by
  intro outcome
  obtain ⟨before, hscanned, hdigits⟩ := exists_scanned ar hand text
  have hp : (lexemes text).Pairwise fun l m => l.position < m.position :=
    pairwise_lexemesFrom 0 text.toList
  have hhand : outcome.hand = hand.spend (digits before) := by
    rw [hdigits]
    exact hand_evaluate ar hand text
  have hleaves : hand.Leaves (digits before) outcome.hand := by
    refine ⟨hhand, fun d => ?_⟩
    rw [hdigits, ← List.nil_append (faultless _ _ _ _)]
    exact count_faultless_le (by simp) d
  refine ⟨before, fun other => ⟨fun h => h.unique hp hscanned, fun h => h ▸ hscanned⟩, hhand,
    hleaves.perm, fun value h => remaining_of_accepted h,
    fun remaining h => remaining_of_unusedDigits h, ?_, ?_⟩
  · intro front last op hsplit hop hres
    have hfront : Scanned (lexemes text) outcome.result front := by
      rw [hres]
      exact .blamed rfl hsplit
    rw [hhand, hscanned.unique hp hfront, hsplit, digits_append_of_ne (by simp [hop])]
  · rintro rfl
    rw [hhand, digits_nil, Hand.spend_nil]

end Make24
