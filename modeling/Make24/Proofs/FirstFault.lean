import Make24.Proofs.Surroundings

namespace Make24

def Outcome.fault? (outcome : Outcome α β) : Option Fault :=
  match outcome.result with
  | .ok _ => none
  | .error fault => some fault

/-- What a pass over the tokens of a text, bracket or no bracket, finds wrong with the token `l`
between those before it and the rest. -/
def tokenFault (hand : Hand) (before : List Lexeme) (l : Lexeme) (rest : List Lexeme) :
    Option Fault :=
  match l.token with
  | .digit d =>
    if hand.digits.count d ≤ (digits before).count d then some (.digitNotAvailable d l.position)
    else if rest.head?.any (fun next => next.token.isDigit && next.position == l.position + 1) then
      some (.multiDigitNumber l.position)
    else if endsOperand before then some (.missingOperator l.position)
    else none
  | .opening =>
    if endsOperand before then some (.missingOperator l.position)
    else if !isClosed rest then some (.unmatchedParenthesis l.position)
    else if facesClosing rest then some .emptyExpression
    else none
  | .operator _ =>
    if !endsOperand before then some (.missingOperand l.position)
    else if facesClosing rest && isOpen before then some (.missingOperand l.position)
    else none
  | .closing => if isOpen before then none else some (.invalidToken ')' l.position)
  | .invalid c => some (.invalidToken c l.position)

/-- The fault of the first of the tokens that has one, where others stand before and after them. -/
def firstTokenFault (hand : Hand) (before : List Lexeme) :
    List Lexeme → List Lexeme → Option Fault
  | [], _ => none
  | l :: rest, after =>
    (tokenFault hand before l (rest ++ after)).or
      (firstTokenFault hand (before ++ [l]) rest after)

/-- An operator that comes last misses an operand. -/
def danglingFault (tokens : List Lexeme) : Option Fault :=
  tokens.getLast?.bind fun last =>
    match last.token with
    | .operator _ => some (.missingOperand last.position)
    | _ => none

/-- What is wrong with a level none of whose tokens is wrong. -/
def levelFault (extent : Extent) (hand : Hand) (tokens : List Lexeme) : Option Fault :=
  if tokens = [] then some .emptyExpression
  else if extent = .whole ∧ hand.digits ≠ [] then some (.unusedDigits hand.digits)
  else danglingFault tokens

/-- The first fault of a text, found in one pass from left to right. -/
def firstFault (hand : Hand) (tokens : List Lexeme) : Option Fault :=
  (firstTokenFault hand [] tokens []).or (levelFault .whole (hand.spend (digits tokens)) tokens)

theorem firstTokenFault_append (hand : Hand) (before ls ms after : List Lexeme) :
    firstTokenFault hand before (ls ++ ms) after =
      (firstTokenFault hand before ls (ms ++ after)).or
        (firstTokenFault hand (before ++ ls) ms after) := by
  induction ls generalizing before with
  | nil => simp [firstTokenFault]
  | cons l ls ih =>
    rw [List.cons_append, firstTokenFault, firstTokenFault, ih, Option.or_assoc]
    simp only [List.append_assoc, List.singleton_append]

section tokenFault
variable {hand : Hand} {before after : List Lexeme}

theorem tokenFault_of_refuse (hs : Surrounds extent before (l :: rest) after depth)
    (h : nextMove (hand.spend (digits before)) (endsOperand before) l rest = .refuse fault) :
    tokenFault hand before l (rest ++ after) = some fault := by
  unfold nextMove at h
  unfold tokenFault
  cases ht : l.token with
  | digit d =>
    simp only [ht, Hand.contains_spend, hs.isGlued_eq, Bool.not_eq_true', decide_eq_false_iff_not,
      Nat.not_lt] at h ⊢
    split at h
    · next hd => cases h; simp only [hd, ↓reduceIte]
    · next hd =>
      split at h
      · next hg => cases h; simp only [hd, hg, ↓reduceIte]
      · next hg =>
        split at h
        · next ho => cases h; simp only [hd, hg, ho, ↓reduceIte, Bool.false_eq_true]
        · cases h
  | opening =>
    simp only [ht] at h
    split at h
    · next ho => cases h; simp only [ho, ↓reduceIte]
    · next ho =>
      split at h
      · cases h
      · next hn =>
        cases h
        cases extent with
        | group =>
          have hsome := hs.isSome_splitGroup? ht
          rw [hn] at hsome
          cases hsome
        | whole =>
          have hafter := (hs.whole rfl).2
          simp [ho, hafter, isClosed_eq, hn]
  | operator op =>
    simp only [ht] at h
    split at h
    · cases h
    · next ho => cases h; simp [ho]
  | closing =>
    simp only [ht, Token.char, Move.refuse.injEq] at h
    cases extent with
    | group =>
      have hbalance := (hs.group rfl).2.2
      rw [depthAfter_closing_zero ht] at hbalance
      cases hbalance
    | whole => simp [hs.isOpen_eq_group, h]
  | invalid c =>
    simp only [ht, Token.char, Move.refuse.injEq] at h
    simp [h]

theorem tokenFault_of_spend (hs : Surrounds extent before (l :: rest) after depth)
    (h : nextMove (hand.spend (digits before)) (endsOperand before) l rest = .spend d) :
    tokenFault hand before l (rest ++ after) = none := by
  obtain ⟨hl, hc, hg, ho⟩ := nextMove_eq_spend_iff.mp h
  rw [Hand.contains_spend, decide_eq_true_eq, ← Nat.not_le] at hc
  simp only [tokenFault, hl, hs.isGlued_eq, hg, ho, hc, ↓reduceIte, Bool.false_eq_true]

theorem tokenFault_of_combine (hs : Surrounds extent before (l :: rest) after depth)
    (h : nextMove (hand.spend (digits before)) (endsOperand before) l rest = .combine op) :
    tokenFault hand before l (rest ++ after) =
      if extent = .group ∧ rest = [] then some (.missingOperand l.position) else none := by
  obtain ⟨hl, ho⟩ := nextMove_eq_combine_iff.mp h
  have hopen := hs.facesClosing_and_isOpen ⟨by simp [hl], by simp [hl]⟩
  simp [tokenFault, hl, ho, hopen]

/-- A group that is not empty has no fault at its opening bracket. -/
theorem tokenFault_of_enter
    (h : nextMove (hand.spend (digits before)) (endsOperand before) l rest = .enter inside behind) :
    tokenFault hand before l (rest ++ after) =
      if inside = [] then some .emptyExpression else none := by
  obtain ⟨hl, ho, -⟩ := nextMove_eq_enter_iff.mp h
  obtain ⟨close, hc, rfl, hi⟩ := eq_of_enter h
  rw [List.append_assoc, List.cons_append]
  have hclosed : isClosed (inside ++ close :: (behind ++ after)) = true := by
    rw [isClosed_eq, splitGroup?_eq_some_iff.mpr ⟨close, hc, rfl, hi⟩]
    rfl
  have hfaces : facesClosing (inside ++ close :: (behind ++ after)) = decide (inside = []) := by
    by_cases hn : inside = []
    · subst hn
      simp [facesClosing, hc]
    · rw [facesClosing_append hn, facesClosing_of_depthAfter hi]
      simp [hn]
  simp only [tokenFault, hl, ho, hclosed, hfaces, Bool.not_true, Bool.false_eq_true, ↓reduceIte,
    decide_eq_true_eq]

theorem tokenFault_of_closing (hc : close.token = .closing) (ho : isOpen before = true)
    (rest : List Lexeme) : tokenFault hand before close rest = none := by
  simp [tokenFault, hc, ho]

end tokenFault

namespace Outcome

@[simp] theorem fault?_after (steps : List (Step α)) (outcome : Outcome α β) :
    (outcome.after steps).fault? = outcome.fault? := rfl

@[simp] theorem fault?_done (value : β) (hand : Hand) :
    (done value hand : Outcome α β).fault? = none := rfl

@[simp] theorem fault?_failed (fault : Fault) (hand : Hand) :
    (failed fault hand : Outcome α β).fault? = some fault := rfl

theorem fault?_eq_some_iff {outcome : Outcome α β} :
    outcome.fault? = some fault ↔ outcome.result = .error fault := by
  unfold fault?
  cases outcome.result <;> simp

theorem fault?_of_ok {outcome : Outcome α β} (h : outcome.result = .ok value) :
    outcome.fault? = none := by
  simp only [fault?, h]

theorem fault?_of_error {outcome : Outcome α β} (h : outcome.result = .error fault) :
    outcome.fault? = some fault :=
  fault?_eq_some_iff.mpr h

theorem fault?_andThen_of_ok {first : Outcome α β} (h : first.result = .ok value)
    (next : β → Hand → Outcome α γ) :
    (first.andThen next).fault? = (next value first.hand).fault? := by
  rw [andThen_of_ok h, fault?_after]

theorem fault?_andThen_of_error {first : Outcome α β} (h : first.result = .error fault)
    (next : β → Hand → Outcome α γ) : (first.andThen next).fault? = some fault := by
  rw [andThen_of_error h]
  rfl

end Outcome

theorem danglingFault_append (ls : List Lexeme) (hne : ms ≠ []) :
    danglingFault (ls ++ ms) = danglingFault ms := by
  rw [danglingFault, List.getLast?_append_of_ne_nil ls hne, danglingFault]

theorem danglingFault_cons_of_ne {l : Lexeme} (h : ∀ op, l.token ≠ .operator op)
    (rest : List Lexeme) :
    danglingFault (l :: rest) = danglingFault rest := by
  cases rest with
  | nil =>
    unfold danglingFault
    cases ht : l.token <;> simp_all
  | cons m rest => exact danglingFault_append [l] (by simp)

/-- A level has no value exactly if it has a dangling operator. -/
theorem conclude_or_danglingFault {pending : Pending α} (ar : Arithmetic α)
    (ha : pending.Alternates (endsOperand tokens)) (hlast : tokens.getLast? = some last)
    (hop : endsOperand tokens = false → ∃ op, last.token = .operator op) :
    (∃ value, (pending.conclude ar).1 = some value ∧ danglingFault tokens = none) ∨
      (pending.conclude ar).1 = none ∧
        danglingFault tokens = some (.missingOperand last.position) := by
  have hiff := conclude_eq_none_iff ar ha hlast hop
  rw [danglingFault, hlast]
  cases hv : (pending.conclude ar).1 with
  | none =>
    obtain ⟨op, ht⟩ := hiff.mp hv
    exact .inr ⟨rfl, by simp [ht]⟩
  | some value =>
    refine .inl ⟨value, rfl, ?_⟩
    rw [hv] at hiff
    cases ht : last.token with
    | operator op => cases hiff.mpr ⟨op, ht⟩
    | _ => simp [ht]

theorem fault?_settle {pending : Pending α} (ar : Arithmetic α) (extent : Extent) (hand : Hand)
    (ha : pending.Alternates (endsOperand tokens))
    (hop : ∀ last, tokens.getLast? = some last → endsOperand tokens = false →
      ∃ op, last.token = .operator op) :
    (settle ar extent tokens pending hand).fault? = levelFault extent hand tokens := by
  unfold settle levelFault
  cases hlast : tokens.getLast? with
  | none => simp [List.getLast?_eq_none_iff.mp hlast]
  | some last =>
    have hne : tokens ≠ [] := by
      rintro rfl
      cases hlast
    have hempty : (extent = .whole ∧ hand.isEmpty = false) ↔
        (extent = .whole ∧ hand.digits ≠ []) := by
      simp [Hand.isEmpty]
    simp only [hempty, if_neg hne]
    split
    · rfl
    · rcases conclude_or_danglingFault ar ha hlast (hop last hlast) with
        ⟨value, hv, hd⟩ | ⟨hv, hd⟩
      · rw [hd]
        split
        · rfl
        · next steps hc => rw [hc] at hv; cases hv
      · rw [hd]
        split
        · next v steps hc => rw [hc] at hv; cases hv
        · rfl

/-- The fault of a level is that of its scan, or else that of its end. -/
theorem fault?_evaluateLevel (ar : Arithmetic α) (hand : Hand) (extent : Extent)
    (tokens : List Lexeme) :
    (evaluateLevel ar hand extent tokens).fault? =
      (scan ar hand .empty tokens).fault?.or
        (levelFault extent (hand.spend (digits tokens)) tokens) := by
  unfold evaluateLevel
  cases hs : (scan ar hand .empty tokens).result with
  | error fault => simp [Outcome.fault?_andThen_of_error hs, Outcome.fault?_of_error hs]
  | ok pending =>
    have ha := alternates_of_scan ar [] hand .empty tokens Pending.alternates_empty hs
    have hop (last : Lexeme) (hlast : tokens.getLast? = some last) :=
      operator_of_scan ar hand .empty tokens hs hlast
    rw [Outcome.fault?_andThen_of_ok hs, Outcome.fault?_of_ok hs, Option.none_or,
      (spend_of_scan ar hand .empty tokens hs).1]
    exact fault?_settle ar extent _ ha hop

/-- A scan stands where the pass over the tokens does: it has taken the digits of those before, and
what waits fits them. -/
structure Abreast (start : Hand) (extent : Extent) (before tokens after : List Lexeme) (hand : Hand)
    (pending : Pending α) : Prop where
  surrounds : ∃ depth, Surrounds extent before tokens after depth
  alternates : pending.Alternates (endsOperand before)
  spent : hand = start.spend (digits before)

namespace Abreast

theorem whole (hand : Hand) (tokens : List Lexeme) :
    Abreast hand .whole [] tokens [] hand (.empty : Pending α) :=
  ⟨⟨0, surrounds_whole tokens⟩, Pending.alternates_empty, rfl⟩

section move
variable {start hand : Hand} {before after : List Lexeme} {pending : Pending α}
  (h : Abreast start extent before (l :: rest) after hand pending)
include h

theorem nextMove_eq :
    nextMove hand pending.endsInValue l rest =
      nextMove (start.spend (digits before)) (endsOperand before) l rest := by
  rw [h.alternates.endsInValue_eq, h.spent]

theorem fault_of_refuse (hmove : nextMove hand pending.endsInValue l rest = .refuse fault) :
    tokenFault start before l (rest ++ after) = some fault := by
  obtain ⟨depth, hs⟩ := h.surrounds
  exact tokenFault_of_refuse hs (h.nextMove_eq ▸ hmove)

theorem fault_of_spend (hmove : nextMove hand pending.endsInValue l rest = .spend d) :
    tokenFault start before l (rest ++ after) = none := by
  obtain ⟨depth, hs⟩ := h.surrounds
  exact tokenFault_of_spend hs (h.nextMove_eq ▸ hmove)

theorem fault_of_combine (hmove : nextMove hand pending.endsInValue l rest = .combine op) :
    tokenFault start before l (rest ++ after) =
      if extent = .group ∧ rest = [] then some (.missingOperand l.position) else none := by
  obtain ⟨depth, hs⟩ := h.surrounds
  exact tokenFault_of_combine hs (h.nextMove_eq ▸ hmove)

theorem fault_of_enter (hmove : nextMove hand pending.endsInValue l rest = .enter inside behind) :
    tokenFault start before l (rest ++ after) =
      if inside = [] then some .emptyExpression else none :=
  tokenFault_of_enter (h.nextMove_eq ▸ hmove)

theorem spend (hmove : nextMove hand pending.endsInValue l rest = .spend d) (value : α) :
    Abreast start extent (before ++ [l]) rest after (hand.erase d) (pending.addValue value) := by
  obtain ⟨depth, hs⟩ := h.surrounds
  have hl := (nextMove_eq_spend_iff.mp hmove).1
  refine ⟨⟨depth, hs.inner ⟨by simp [hl], by simp [hl]⟩⟩,
    alternates_of_spend h.alternates hmove _, ?_⟩
  rw [digits_append, Hand.spend_append, ← h.spent, digits_cons_digit hl]
  rfl

theorem combine (hmove : nextMove hand pending.endsInValue l rest = .combine op)
    (ar : Arithmetic α) :
    Abreast start extent (before ++ [l]) rest after hand (pending.addOperator ar op).1 := by
  obtain ⟨depth, hs⟩ := h.surrounds
  have hl := (nextMove_eq_combine_iff.mp hmove).1
  refine ⟨⟨depth, hs.inner ⟨by simp [hl], by simp [hl]⟩⟩,
    alternates_of_combine h.alternates hmove ar, ?_⟩
  rw [digits_append_of_ne (by simp [hl]), h.spent]

end move

section group
variable {ar : Arithmetic α} {start hand : Hand} {before inside behind after : List Lexeme}
  {pending : Pending α}
  (h : Abreast start extent before (l :: (inside ++ close :: behind)) after hand pending)
  (hmove : nextMove hand pending.endsInValue l (inside ++ close :: behind) = .enter inside behind)
  (hc : close.token = .closing)
include h hmove hc

/-- A group is scanned as a level of its own, but the pass goes on with the tokens around it. -/
theorem enter : Abreast start .group (before ++ [l]) inside (close :: (behind ++ after)) hand
    (.empty : Pending α) := by
  obtain ⟨depth, hs⟩ := h.surrounds
  have hl := (nextMove_eq_enter_iff.mp hmove).1
  obtain ⟨-, -, -, hi⟩ := eq_of_enter hmove
  refine ⟨⟨depth + 1, hs.inside hl hc hi _⟩, ?_, ?_⟩
  · rw [endsOperand_append_opening hl]
    exact Pending.alternates_empty
  · rw [digits_append_of_ne (by simp [hl]), h.spent]

theorem fault_of_closing :
    tokenFault start (before ++ [l] ++ inside) close (behind ++ after) = none := by
  obtain ⟨depth, hs⟩ := (h.enter hmove hc).surrounds
  exact tokenFault_of_closing hc hs.isOpen_append _

/-- With the value of a group, both stand behind the bracket that closes it. -/
theorem leave (hlevel : (evaluateLevel ar hand .group inside).result = .ok value) :
    Abreast start extent (before ++ [l] ++ inside ++ [close]) behind after
      (evaluateLevel ar hand .group inside).hand (pending.addValue value) := by
  obtain ⟨depth, hs⟩ := h.surrounds
  have hl := (nextMove_eq_enter_iff.mp hmove).1
  obtain ⟨-, -, -, hi⟩ := eq_of_enter hmove
  obtain ⟨p, hp, -⟩ := result_evaluateLevel_eq_ok_iff.mp hlevel
  refine ⟨⟨depth, by simpa using hs.behind hl hc hi⟩,
    alternates_of_enter h.alternates hmove hc _ value, ?_⟩
  rw [hand_evaluateLevel, (spend_of_scan ar hand .empty inside hp).1, (h.enter hmove hc).spent,
    ← Hand.spend_append, ← digits_append, digits_append_of_ne (by simp [hc])]

end group

end Abreast

/-- A group has the first fault of its tokens, unless it has none. -/
theorem fault?_group {ar : Arithmetic α} {start hand : Hand}
    (h : firstTokenFault start before inside after =
      (scan ar hand .empty inside).fault?.or (danglingFault inside)) :
    (evaluateLevel ar hand .group inside).fault? =
      if inside = [] then some .emptyExpression
      else firstTokenFault start before inside after := by
  rw [fault?_evaluateLevel, h, levelFault]
  by_cases hi : inside = []
  · simp [hi, scan_nil]
  · simp [hi]

/-- The pass goes over a group as over one token. -/
theorem firstTokenFault_group {ar : Arithmetic α} {start hand : Hand} {pending : Pending α}
    (h : Abreast start extent before (l :: (inside ++ close :: behind)) after hand pending)
    (hmove : nextMove hand pending.endsInValue l (inside ++ close :: behind) =
      .enter inside behind) (hc : close.token = .closing)
    (hgroup : (evaluateLevel ar hand .group inside).fault? =
      if inside = [] then some .emptyExpression
      else firstTokenFault start (before ++ [l]) inside (close :: (behind ++ after))) :
    firstTokenFault start before (l :: (inside ++ close :: behind)) after =
      (evaluateLevel ar hand .group inside).fault?.or
        (firstTokenFault start (before ++ [l] ++ inside ++ [close]) behind after) := by
  rw [firstTokenFault, firstTokenFault_append, firstTokenFault, h.fault_of_closing hmove hc,
    Option.none_or, ← Option.or_assoc, h.fault_of_enter hmove, hgroup, List.cons_append]
  by_cases hi : inside = []
  · simp [hi]
  · simp [hi]

/-- The pass finds the fault that the scan of a level stops at. In a group it also finds the
operator that comes last, since the closing bracket comes next. -/
theorem firstTokenFault_eq (ar : Arithmetic α) (start : Hand) (before after : List Lexeme)
    (hand : Hand) (pending : Pending α) (tokens : List Lexeme)
    (h : Abreast start extent before tokens after hand pending) :
    firstTokenFault start before tokens after =
      (scan ar hand pending tokens).fault?.or
        (if extent = .group then danglingFault tokens else none) := by
  induction hand, pending, tokens using scan_induction ar generalizing extent before after with
  | nil hand pending =>
    rw [scan_nil]
    simp [firstTokenFault, danglingFault]
  | refuse hand pending l rest fault hmove =>
    rw [scan_of_refuse ar hmove, firstTokenFault, h.fault_of_refuse hmove]
    rfl
  | spend hand pending l rest d hmove ih =>
    have hl := (nextMove_eq_spend_iff.mp hmove).1
    rw [scan_of_spend ar hmove, Outcome.fault?_after, firstTokenFault, h.fault_of_spend hmove,
      Option.none_or, ih _ _ (h.spend hmove _), danglingFault_cons_of_ne (by simp [hl])]
  | combine hand pending l rest op hmove ih =>
    have hl := (nextMove_eq_combine_iff.mp hmove).1
    rw [scan_of_combine ar hmove, Outcome.fault?_after, firstTokenFault, h.fault_of_combine hmove,
      ih _ _ (h.combine hmove ar)]
    cases rest with
    -- Only here does the pass blame a token that the scan lets through.
    | nil => by_cases he : extent = .group <;> simp [he, scan_nil, danglingFault, hl]
    | cons m rest =>
      have hskip : danglingFault (l :: m :: rest) = danglingFault (m :: rest) :=
        danglingFault_append [l] (List.cons_ne_nil m rest)
      simp [hskip]
  | enter hand pending l rest inside behind hmove ih ihbehind =>
    obtain ⟨close, hc, rfl, -⟩ := eq_of_enter hmove
    have hgroup := fault?_group (ih _ _ (h.enter hmove hc))
    have hskip : danglingFault (l :: (inside ++ close :: behind)) = danglingFault behind := by
      rw [← List.cons_append, danglingFault_append _ (List.cons_ne_nil close behind),
        danglingFault_cons_of_ne (by simp [hc])]
    rw [firstTokenFault_group h hmove hc hgroup, scan_of_enter ar hmove, Outcome.fault?_after,
      hskip]
    cases hlevel : (evaluateLevel ar hand .group inside).result with
    | error fault =>
      rw [Outcome.fault?_andThen_of_error hlevel, Outcome.fault?_of_error hlevel]
      rfl
    | ok value =>
      rw [Outcome.fault?_andThen_of_ok hlevel, Outcome.fault?_of_ok hlevel, Option.none_or]
      exact ihbehind value _ _ _ (h.leave hmove hc hlevel)

/-- The fault of an evaluation is the one that the pass over the tokens finds first. -/
theorem fault?_evaluate (ar : Arithmetic α) (hand : Hand) (text : String) :
    (evaluate ar hand text).fault? = firstFault hand (lexemes text) := by
  have hpass := firstTokenFault_eq ar hand [] [] hand .empty (lexemes text) (.whole hand _)
  rw [if_neg (by simp), Option.or_none] at hpass
  rw [evaluate, fault?_evaluateLevel, firstFault, hpass]

/-- An evaluation fails with the fault that the pass over the tokens finds first, and succeeds if
the pass finds none. -/
theorem evaluate_fault_iff (ar : Arithmetic α) (hand : Hand) (text : String) (fault : Fault) :
    (evaluate ar hand text).result = .error fault ↔
      firstFault hand (lexemes text) = some fault := by
  rw [← Outcome.fault?_eq_some_iff, fault?_evaluate]

/-- The second group lacks an operator before it, which comes before its missing end. -/
example : firstFault ⟨[2, 3, 4, 4]⟩ (lexemes "(2 + 3)(4*") = some (.missingOperator 7) := by
  decide

end Make24
