import Make24.Proofs.Levels

namespace Make24

/-- An operand ends in front of what follows. -/
def endsOperand (before : List Lexeme) : Bool :=
  before.getLast?.any fun last => last.token.isDigit || last.token == .closing

/-- A closing bracket comes next. -/
def facesClosing (rest : List Lexeme) : Bool :=
  rest.head?.any fun next => next.token == .closing

/-- A bracket opened before is not closed yet. -/
def isOpen (before : List Lexeme) : Bool :=
  before.tails.any fun part => closes part < opens part

/-- A bracket opened just now is closed later. -/
def isClosed (rest : List Lexeme) : Bool :=
  rest.inits.any fun part => opens part < closes part

theorem endsOperand_append_digit (hl : l.token = .digit d) (before : List Lexeme) :
    endsOperand (before ++ [l]) = true := by
  simp [endsOperand, hl, Token.isDigit]

theorem endsOperand_append_operator (hl : l.token = .operator op) (before : List Lexeme) :
    endsOperand (before ++ [l]) = false := by
  simp [endsOperand, hl, Token.isDigit]

theorem endsOperand_append_opening (hl : l.token = .opening) (before : List Lexeme) :
    endsOperand (before ++ [l]) = false := by
  simp [endsOperand, hl, Token.isDigit]

theorem endsOperand_append_closing (hl : l.token = .closing) (before : List Lexeme) :
    endsOperand (before ++ [l]) = true := by
  simp [endsOperand, hl, Token.isDigit]

theorem isOpen_eq (h : depthAfter 0 before = some depth) : isOpen before = decide (0 < depth) := by
  rw [isOpen, Bool.eq_iff_iff, List.any_eq_true, decide_eq_true_eq, pos_depthAfter_iff h]
  simp only [List.mem_tails, decide_eq_true_eq]

theorem isClosed_eq (rest : List Lexeme) : isClosed rest = (splitGroup? 0 rest).isSome := by
  rw [isClosed, Bool.eq_iff_iff, splitGroup?_isSome_iff, depthAfter_eq_none_iff, List.any_eq_true]
  simp only [List.mem_inits, decide_eq_true_eq, Nat.zero_add]

/-- Where the tokens of a level stand in their text. The whole text has nothing around it but tokens
whose brackets are closed. A group stands in brackets, and closes those that it opens. -/
structure Surrounds (extent : Extent) (before tokens after : List Lexeme) (depth : Nat) : Prop where
  opened : depthAfter 0 before = some depth
  whole : extent = .whole → depth = 0 ∧ after = []
  group : extent = .group → 0 < depth ∧ after.head?.any (fun l => l.token == .closing) = true ∧
    depthAfter 0 tokens = some 0

theorem facesClosing_of_depthAfter (h : depthAfter 0 tokens = some depth) :
    facesClosing tokens = false := by
  cases tokens with
  | nil => rfl
  | cons l rest =>
    by_cases hc : l.token = .closing
    · rw [depthAfter_closing_zero hc] at h
      cases h
    · simp [facesClosing, hc]

theorem facesClosing_append (hne : rest ≠ []) (after : List Lexeme) :
    facesClosing (rest ++ after) = facesClosing rest := by
  rw [facesClosing, List.head?_append_of_ne_nil rest hne, facesClosing]

theorem surrounds_whole (tokens : List Lexeme) : Surrounds .whole [] tokens [] 0 :=
  ⟨rfl, fun _ => ⟨rfl, rfl⟩, fun h => by cases h⟩

namespace Surrounds

theorem isOpen_eq_group (hs : Surrounds extent before tokens after depth) :
    isOpen before = decide (extent = .group) := by
  rw [isOpen_eq hs.opened]
  cases extent with
  | whole => simp [(hs.whole rfl).1]
  | group => simp [(hs.group rfl).1]

theorem inner (hs : Surrounds extent before (l :: rest) after depth) (hl : l.IsInner) :
    Surrounds extent (before ++ [l]) rest after depth := by
  refine ⟨?_, hs.whole, ?_⟩
  · rw [depthAfter_append, hs.opened, Option.bind_some, depthAfter_inner hl, depthAfter]
  · intro he
    obtain ⟨hpos, hafter, hbalance⟩ := hs.group he
    rw [depthAfter_inner hl] at hbalance
    exact ⟨hpos, hafter, hbalance⟩

theorem inside (hs : Surrounds extent before tokens after depth) (hl : l.token = .opening)
    (hc : close.token = .closing) (hi : depthAfter 0 ins = some 0) (more : List Lexeme) :
    Surrounds .group (before ++ [l]) ins (close :: more) (depth + 1) := by
  refine ⟨?_, by simp, fun _ => ⟨Nat.succ_pos depth, by simp [hc], hi⟩⟩
  rw [depthAfter_append, hs.opened, Option.bind_some, depthAfter_opening hl, depthAfter]

theorem behind (hs : Surrounds extent before (l :: (ins ++ close :: rest)) after depth)
    (hl : l.token = .opening) (hc : close.token = .closing) (hi : depthAfter 0 ins = some 0) :
    Surrounds extent (before ++ (l :: (ins ++ [close]))) rest after depth := by
  refine ⟨?_, hs.whole, ?_⟩
  · rw [depthAfter_append, hs.opened, Option.bind_some, depthAfter_group hl hc hi, depthAfter]
  · intro he
    obtain ⟨hpos, hafter, hbalance⟩ := hs.group he
    rw [depthAfter_group hl hc hi] at hbalance
    exact ⟨hpos, hafter, hbalance⟩

/-- Behind a token that is no bracket, an open bracket is closed only where a group ends. -/
theorem facesClosing_and_isOpen (hs : Surrounds extent before (l :: rest) after depth)
    (hl : l.IsInner) :
    (facesClosing (rest ++ after) && isOpen before) = decide (extent = .group ∧ rest = []) := by
  rw [hs.isOpen_eq_group]
  cases extent with
  | whole => simp
  | group =>
    obtain ⟨-, hafter, hbalance⟩ := hs.group rfl
    by_cases hr : rest = []
    · subst hr
      simpa [facesClosing] using hafter
    · rw [depthAfter_inner hl] at hbalance
      simp [facesClosing_append hr, facesClosing_of_depthAfter hbalance, hr]

/-- No digit of another level stands next to one of this level. -/
theorem isGlued_eq (hs : Surrounds extent before (l :: rest) after depth) :
    (rest ++ after).head?.any (fun next => next.token.isDigit && next.position == l.position + 1) =
      isGlued l rest := by
  cases rest with
  | cons next rest => rfl
  | nil =>
    rw [List.nil_append, isGlued]
    cases extent with
    | whole => rw [(hs.whole rfl).2]; rfl
    | group =>
      obtain ⟨-, hafter, -⟩ := hs.group rfl
      cases after with
      | nil => rfl
      | cons next after =>
        have hc : next.token = .closing := by simpa using hafter
        simp [hc, Token.isDigit]

/-- The bracket around a group is open up to its end. -/
theorem isOpen_append (hs : Surrounds .group before tokens after depth) :
    isOpen (before ++ tokens) = true := by
  obtain ⟨hpos, -, hbalance⟩ := hs.group rfl
  have hup : depthAfter depth tokens = some depth := by
    simpa using depthAfter_add hbalance depth
  have hall : depthAfter 0 (before ++ tokens) = some depth := by
    rw [depthAfter_append, hs.opened, Option.bind_some, hup]
  rw [isOpen_eq hall, decide_eq_true hpos]

/-- A bracket opened in a group is closed in it. -/
theorem isSome_splitGroup? (hs : Surrounds .group before (l :: rest) after depth)
    (hl : l.token = .opening) : (splitGroup? 0 rest).isSome = true := by
  obtain ⟨-, -, hbalance⟩ := hs.group rfl
  rw [depthAfter_opening hl] at hbalance
  rw [splitGroup?_isSome_iff]
  cases hd : depthAfter 0 rest with
  | none => rfl
  | some depth =>
    rw [depthAfter_add hd 1] at hbalance
    cases hbalance

end Surrounds

section move
variable {hand : Hand} {pending : Pending α} {before : List Lexeme}

theorem alternates_of_spend (ha : pending.Alternates (endsOperand before))
    (h : nextMove hand pending.endsInValue l rest = .spend d) (value : α) :
    (pending.addValue value).Alternates (endsOperand (before ++ [l])) := by
  obtain ⟨hl, -, -, hv⟩ := nextMove_eq_spend_iff.mp h
  rw [ha.endsInValue_eq] at hv
  rw [hv] at ha
  rw [endsOperand_append_digit hl]
  exact ha.addValue value

theorem alternates_of_combine (ha : pending.Alternates (endsOperand before))
    (h : nextMove hand pending.endsInValue l rest = .combine op) (ar : Arithmetic α) :
    (pending.addOperator ar op).1.Alternates (endsOperand (before ++ [l])) := by
  obtain ⟨hl, hv⟩ := nextMove_eq_combine_iff.mp h
  rw [ha.endsInValue_eq] at hv
  rw [hv] at ha
  rw [endsOperand_append_operator hl]
  exact ha.addOperator ar op

theorem alternates_of_enter (ha : pending.Alternates (endsOperand before))
    (h : nextMove hand pending.endsInValue l rest = .enter inside after)
    (hc : close.token = .closing) (front : List Lexeme) (value : α) :
    (pending.addValue value).Alternates (endsOperand (front ++ [close])) := by
  obtain ⟨-, hv, -⟩ := nextMove_eq_enter_iff.mp h
  rw [ha.endsInValue_eq] at hv
  rw [hv] at ha
  rw [endsOperand_append_closing hc]
  exact ha.addValue value

end move

/-- A scan that comes to an end knows whether an operand came last. -/
theorem alternates_of_scan (ar : Arithmetic α) (before : List Lexeme) (hand : Hand)
    (pending : Pending α) (tokens : List Lexeme) {q : Pending α}
    (ha : pending.Alternates (endsOperand before))
    (h : (scan ar hand pending tokens).result = .ok q) :
    q.Alternates (endsOperand (before ++ tokens)) := by
  induction hand, pending, tokens using scan_induction ar generalizing q before with
  | nil hand pending =>
    rw [scan_nil] at h
    cases h
    rwa [List.append_nil]
  | refuse hand pending l rest fault hmove =>
    rw [scan_of_refuse ar hmove] at h
    cases h
  | spend hand pending l rest d hmove ih =>
    rw [scan_of_spend ar hmove] at h
    have hq := ih (before ++ [l]) (alternates_of_spend ha hmove _) h
    rwa [List.append_assoc] at hq
  | combine hand pending l rest op hmove ih =>
    rw [scan_of_combine ar hmove] at h
    have hq := ih (before ++ [l]) (alternates_of_combine ha hmove ar) h
    rwa [List.append_assoc] at hq
  | enter hand pending l rest inside after hmove _ ihafter =>
    obtain ⟨value, hv, hq⟩ := (result_scan_of_enter hmove).mp h
    obtain ⟨close, hc, rfl, -⟩ := eq_of_enter hmove
    have hq := ihafter value _ (before ++ (l :: inside) ++ [close])
      (alternates_of_enter ha hmove hc _ value) hq
    simpa only [List.append_assoc, List.cons_append, List.nil_append] using hq

/-- A scan that comes to an end has an operator last, unless an operand came last. -/
theorem operator_of_scan (ar : Arithmetic α) (hand : Hand) (pending : Pending α)
    (tokens : List Lexeme) {q : Pending α} (h : (scan ar hand pending tokens).result = .ok q)
    (hlast : tokens.getLast? = some last) (hend : endsOperand tokens = false) :
    ∃ op, last.token = .operator op := by
  induction hand, pending, tokens using scan_induction ar generalizing q with
  | nil hand pending => cases hlast
  | refuse hand pending l rest fault hmove =>
    rw [scan_of_refuse ar hmove] at h
    cases h
  | spend hand pending l rest d hmove ih =>
    rw [scan_of_spend ar hmove] at h
    cases rest with
    | nil =>
      obtain ⟨hl, -, -, -⟩ := nextMove_eq_spend_iff.mp hmove
      simp [endsOperand, hl, Token.isDigit] at hend
    | cons m rest =>
      rw [List.getLast?_cons_cons] at hlast
      rw [endsOperand, List.getLast?_cons_cons] at hend
      exact ih h hlast hend
  | combine hand pending l rest op hmove ih =>
    rw [scan_of_combine ar hmove] at h
    cases rest with
    | nil =>
      cases hlast
      exact ⟨op, (nextMove_eq_combine_iff.mp hmove).1⟩
    | cons m rest =>
      rw [List.getLast?_cons_cons] at hlast
      rw [endsOperand, List.getLast?_cons_cons] at hend
      exact ih h hlast hend
  | enter hand pending l rest inside after hmove _ ihafter =>
    obtain ⟨value, -, hq⟩ := (result_scan_of_enter hmove).mp h
    obtain ⟨close, hc, rfl, -⟩ := eq_of_enter hmove
    cases after with
    | nil => simp [endsOperand, List.getLast?_cons, List.getLast?_append, hc] at hend
    | cons m after =>
      have hsame : (l :: (inside ++ close :: m :: after)).getLast? = (m :: after).getLast? := by
        rw [← List.cons_append, List.getLast?_append_cons, List.getLast?_cons_cons]
      rw [hsame] at hlast
      rw [endsOperand, hsame] at hend
      exact ihafter value _ hq hlast hend

/-- A level has no value exactly if an operator came last. -/
theorem conclude_eq_none_iff {pending : Pending α} (ar : Arithmetic α)
    (ha : pending.Alternates (endsOperand tokens)) (hlast : tokens.getLast? = some last)
    (hop : endsOperand tokens = false → ∃ op, last.token = .operator op) :
    (pending.conclude ar).1 = none ↔ ∃ op, last.token = .operator op := by
  constructor
  · intro hnone
    apply hop
    apply Bool.eq_false_iff.mpr
    intro hend
    rw [hend] at ha
    obtain ⟨value, hv⟩ := ha.exists_conclude ar
    rw [hv] at hnone
    cases hnone
  · rintro ⟨op, ht⟩
    have hend : endsOperand tokens = false := by simp [endsOperand, hlast, ht, Token.isDigit]
    apply Option.eq_none_iff_forall_ne_some.mpr
    intro value hv
    have hvalue := ha.of_conclude hv
    rw [hend] at hvalue
    cases hvalue

end Make24
