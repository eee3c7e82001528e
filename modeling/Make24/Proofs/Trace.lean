import Make24.Proofs.Acceptance
import Make24.Proofs.Records

namespace Make24

/-- The steps that take digits out of the hand. -/
def consumed (steps : List (Step α)) : List (Step α) :=
  steps.filter fun
    | .consumed .. => true
    | _ => false

/-- The steps into a bracket group. -/
def entered (steps : List (Step α)) : List (Step α) :=
  steps.filter fun
    | .entered _ => true
    | _ => false

/-- The steps that take the digits out of the hand one by one, each with what is left behind it. -/
def Hand.consumptions (hand : Hand) : List Nat → List (Step α)
  | [] => []
  | d :: ds => .consumed d (hand.erase d).digits :: (hand.erase d).consumptions ds

/-- One step into the group behind each opening bracket. -/
def entries (tokens : List Lexeme) : List (Step α) :=
  (tokens.filter (·.token == .opening)).map (.entered ·.position)

/-- The operators among some tokens. -/
def operators (tokens : List Lexeme) : List Operator :=
  tokens.filterMap fun l =>
    match l.token with
    | .operator op => some op
    | _ => none

def Step.operator? : Step α → Option Operator
  | .applied _ op _ _ => some op
  | _ => none

theorem Hand.consumptions_append (hand : Hand) (ds es : List Nat) :
    (hand.consumptions (ds ++ es) : List (Step α)) =
      hand.consumptions ds ++ (hand.spend ds).consumptions es := by
  induction ds generalizing hand with
  | nil => rfl
  | cons d ds ih => rw [List.cons_append, consumptions, ih]; rfl

section applies
variable {ar : Arithmetic α} {steps : List (Step α)}

theorem filter_of_applies {keep : Step α → Bool}
    (hkeep : ∀ left op right result, keep (.applied left op right result) = false)
    (h : ∀ step ∈ steps, step.Applies ar) : steps.filter keep = [] := by
  apply List.filter_eq_nil_iff.mpr
  intro step hs
  obtain ⟨left, op, right, rfl⟩ := h step hs
  rw [hkeep]
  exact Bool.false_ne_true

theorem consumed_of_applies (h : ∀ step ∈ steps, step.Applies ar) : consumed steps = [] :=
  filter_of_applies (fun _ _ _ _ => rfl) h

theorem entered_of_applies (h : ∀ step ∈ steps, step.Applies ar) : entered steps = [] :=
  filter_of_applies (fun _ _ _ _ => rfl) h

end applies

/-- The steps tell, in the order of the tokens, which digits are taken out of the hand, and what is
left behind each, and where groups are entered. -/
structure Traces (hand : Hand) (tokens : List Lexeme) (steps : List (Step α)) : Prop where
  consumed : consumed steps = hand.consumptions (digits tokens)
  entered : entered steps = entries tokens

namespace Traces

theorem digit (hand : Hand) (hl : l.token = .digit d) :
    Traces hand [l] [(.consumed d (hand.erase d).digits : Step α)] :=
  ⟨by rw [digits_cons_digit hl]; rfl, by simp [entries, hl, Make24.entered]⟩

theorem opening (hand : Hand) (hl : l.token = .opening) :
    Traces hand [l] [(.entered l.position : Step α)] :=
  ⟨by rw [digits_cons_of_ne (by simp [hl])]; rfl, by simp [entries, hl, Make24.entered]⟩

theorem append {hand left : Hand} {first more : List (Step α)} (h : Traces hand ls first)
    (hleft : left = hand.spend (digits ls)) (h' : Traces left ms more) :
    Traces hand (ls ++ ms) (first ++ more) := by
  subst hleft
  refine ⟨?_, ?_⟩
  · rw [digits_append, Hand.consumptions_append, ← h.consumed, ← h'.consumed]
    exact List.filter_append ..
  · rw [entries, List.filter_append, List.map_append, ← entries, ← entries, ← h.entered,
      ← h'.entered]
    exact List.filter_append ..

/-- A token that is no digit and opens no bracket may leave it to operators that waited to make
steps. -/
theorem passing {ar : Arithmetic α} {steps : List (Step α)} (hand : Hand)
    (hd : ∀ d, l.token ≠ .digit d) (ho : l.token ≠ .opening)
    (h : ∀ step ∈ steps, step.Applies ar) : Traces hand [l] steps :=
  ⟨by rw [consumed_of_applies h, digits_cons_of_ne hd]; rfl,
    by rw [entered_of_applies h]; simp [entries, ho]⟩

end Traces

/-- A scan that comes to an end traces its tokens, and so does each group in it. -/
theorem traces_scan (ar : Arithmetic α) (hand : Hand) (pending : Pending α) (tokens : List Lexeme)
    {q : Pending α} (h : (scan ar hand pending tokens).result = .ok q) :
    Traces hand tokens (scan ar hand pending tokens).steps := by
  induction hand, pending, tokens using scan_induction ar generalizing q with
  | nil hand pending =>
    rw [scan_nil]
    exact ⟨rfl, rfl⟩
  | refuse hand pending l rest fault hmove =>
    rw [scan_of_refuse ar hmove] at h
    cases h
  | spend hand pending l rest d hmove ih =>
    rw [scan_of_spend ar hmove] at h ⊢
    have hl := (nextMove_eq_spend_iff.mp hmove).1
    exact (Traces.digit hand hl).append (by rw [digits_cons_digit hl]; rfl) (ih h)
  | combine hand pending l rest op hmove ih =>
    rw [scan_of_combine ar hmove] at h ⊢
    have hl := (nextMove_eq_combine_iff.mp hmove).1
    have hpass : Traces hand [l] (pending.addOperator ar op).2 :=
      .passing hand (by simp [hl]) (by simp [hl]) fun _ => Pending.applies_of_mem_applyWhile
    exact hpass.append (by rw [digits_cons_of_ne (by simp [hl])]; rfl) (ih h)
  | enter hand pending l rest inside behind hmove ih ihbehind =>
    obtain ⟨value, hv, hq⟩ := (result_scan_of_enter hmove).mp h
    obtain ⟨close, hc, rfl, -⟩ := eq_of_enter hmove
    obtain ⟨p, hp, -⟩ := result_evaluateLevel_eq_ok_iff.mp hv
    have hl := (nextMove_eq_enter_iff.mp hmove).1
    -- What waits in the group is applied where the group is closed.
    have hclose : Traces (scan ar hand .empty inside).hand [close]
        (settle ar .group inside p (scan ar hand .empty inside).hand).steps :=
      .passing _ (by simp [hc]) (by simp [hc]) fun _ => applies_of_mem_settle
    have hgroup : Traces hand (inside ++ [close]) (evaluateLevel ar hand .group inside).steps := by
      rw [evaluateLevel, Outcome.andThen_of_ok hp]
      exact (ih hp).append (spend_of_scan ar hand .empty inside hp).1 hclose
    have hleft : (evaluateLevel ar hand .group inside).hand =
        hand.spend (digits (inside ++ [close])) := by
      rw [hand_evaluateLevel, digits_append_of_ne (by simp [hc]),
        (spend_of_scan ar hand .empty inside hp).1]
    have hrest := hgroup.append hleft (ihbehind value _ hq)
    rw [List.append_assoc, List.singleton_append] at hrest
    rw [scan_of_enter ar hmove, Outcome.andThen_of_ok hv]
    exact (Traces.opening hand hl).append (by rw [digits_cons_of_ne (by simp [hl])]; rfl) hrest

/-- What an accepted text does on its way can be read off its tokens. -/
theorem traces_evaluate {ar : Arithmetic α} {hand : Hand} {value : α}
    (h : (evaluate ar hand text).result = .ok value) :
    Traces hand (lexemes text) (evaluate ar hand text).steps := by
  obtain ⟨p, hp, -⟩ := result_evaluateLevel_eq_ok_iff.mp h
  have hend : Traces (scan ar hand .empty (lexemes text)).hand []
      (settle ar .whole (lexemes text) p (scan ar hand .empty (lexemes text)).hand).steps :=
    ⟨consumed_of_applies fun _ => applies_of_mem_settle,
      entered_of_applies fun _ => applies_of_mem_settle⟩
  have hall := (traces_scan ar hand .empty _ hp).append (spend_of_scan ar hand .empty _ hp).1 hend
  rw [List.append_nil] at hall
  rw [evaluate, evaluateLevel, Outcome.andThen_of_ok hp]
  exact hall

theorem operators_append (ls ms : List Lexeme) :
    operators (ls ++ ms) = operators ls ++ operators ms :=
  List.filterMap_append

/-- A tree has a node for each operator that its text writes. -/
theorem Spells.perm_operators (h : Spells level t cs) (hr : Reads ls cs) (ar : Arithmetic α) :
    ((t.applications ar).filterMap Step.operator?).Perm (operators ls) := by
  induction h generalizing ls with
  | leaf playable =>
    obtain ⟨l, rfl, hl⟩ := hr.singleton
    rw [Token.ofChar_charOfDigit playable] at hl
    simp [Tree.applications, operators, hl]
  | node op tight left right ihl ihr =>
    obtain ⟨ls₁, o, ls₂, rfl, h₁, ho, h₂⟩ := hr.between
    have hmid : operators (o :: ls₂) = op :: operators ls₂ := by simp [operators, ho]
    rw [operators_append, hmid, Tree.applications, List.filterMap_append, List.filterMap_append]
    have hsides := ((ihl h₁).append (ihr h₂)).append_right [op]
    exact hsides.trans ((List.perm_append_singleton op _).trans List.perm_middle.symm)
  | group inside ih =>
    obtain ⟨l, ins, close, rfl, hl, hi, hc⟩ := hr.brackets
    have hins : operators (l :: (ins ++ [close])) = operators ins := by
      simp [operators, hl, hc]
    rw [hins]
    exact ih hi

/-- An accepted text leaves records of its reading, of every step, and last of its value. -/
theorem messages_solve_of_accepted {hand : Hand} {value : Float}
    (h : (evaluate .float hand text).result = .ok value) :
    (hand.solve text).events.map Log.Event.message =
      ["Evaluating '" ++ text ++ "' against corpus " ++ listText hand.digits,
          "Tokenized '" ++ text ++ "' into " ++ (lexemes text).length.repr ++ " tokens"] ++
        (evaluate .float hand text).steps.map Log.stepMessage ++
        ["Expression evaluated to: " ++ Decimal.text value] := by
  rw [events_solve, h, List.map_append, List.map_append, List.map_map]
  rfl

/-- The debug log of an accepted text is a trace of its tree. It tells of each digit in turn with
what is left of the hand, of each opening bracket with its position, and of the node of each
operator, once both of its sides are told of, with the values of its sides and its own. It ends with
the value of the whole. -/
theorem events_solve_of_accepted {hand : Hand} {value : Float}
    (h : (hand.solve text).value.result = .ok value) :
    ∃ steps : List (Step Float),
      (hand.solve text).events =
        [.evaluationBegan text hand.digits, .tokenized text (lexemes text).length] ++
          steps.map .stepped ++ [.evaluated value] ∧
      (∀ event ∈ (hand.solve text).events, event.level = .debug) ∧
      (hand.solve text).events.map Log.Event.message =
        ["Evaluating '" ++ text ++ "' against corpus " ++ listText hand.digits,
            "Tokenized '" ++ text ++ "' into " ++ (lexemes text).length.repr ++ " tokens"] ++
          steps.map Log.stepMessage ++ ["Expression evaluated to: " ++ Decimal.text value] ∧
      (∀ digit remaining, Log.stepMessage (.consumed digit remaining) =
        "Consumed " ++ digit.repr ++ ", remaining " ++ listText remaining) ∧
      (∀ position, Log.stepMessage (.entered position) =
        "Descending into bracket group at " ++ position.repr) ∧
      (∀ left op right result, Log.stepMessage (.applied left op right result) =
        "Reduced " ++ Decimal.text left ++ " " ++ op.symbol.toString ++ " " ++
          Decimal.text right ++ " = " ++ Decimal.text result) ∧
      consumed steps = hand.consumptions (digits (lexemes text)) ∧
      entered steps = entries (lexemes text) ∧
      (∃ t, Spells 0 t (dense text)) ∧
      ∀ t, Spells 0 t (dense text) →
        applied steps = t.applications .float ∧
        ((applied steps).filterMap Step.operator?).Perm (operators (lexemes text)) ∧
        value = t.value .float := by
  rw [value_solve] at h
  obtain ⟨hconsumed, hentered⟩ := traces_evaluate h
  obtain ⟨t, ht, -⟩ := evaluate_eq_ok_iff.mp h
  refine ⟨(evaluate .float hand text).steps, ?_, fun _ => level_of_mem_solve,
    messages_solve_of_accepted h, fun _ _ => rfl, fun _ => rfl, fun _ _ _ _ => rfl, hconsumed,
    hentered, ⟨t, ht⟩, ?_⟩
  · rw [events_solve, h]
    rfl
  · intro t ht
    obtain ⟨hp, hvalue⟩ := ht.of_accepted h
    obtain ⟨steps, horder, he⟩ := ht.evaluate_eq hp .float
    have happlied : applied (evaluate .float hand text).steps = t.applications .float := by
      rw [he]
      simpa [Outcome.done] using horder
    refine ⟨happlied, ?_, hvalue⟩
    rw [happlied]
    exact ht.perm_operators (reads_lexemes text) .float

/-- What the log tells of the fraction whose exact value is 24. -/
theorem events_solve_of_accepted_fraction :
    ((⟨[3, 3, 8, 8]⟩ : Hand).solve "8 / ((3) - 8/3)").value.result =
        .ok (fractionTree.value .float) ∧
      ∃ steps : List (Step Float),
        ((⟨[3, 3, 8, 8]⟩ : Hand).solve "8 / ((3) - 8/3)").events.map Log.Event.message =
          ["Evaluating '8 / ((3) - 8/3)' against corpus [3, 3, 8, 8]",
              "Tokenized '8 / ((3) - 8/3)' into 11 tokens"] ++
            steps.map Log.stepMessage ++ ["Expression evaluated to: 23.99999999999999"] ∧
        (consumed steps).map Log.stepMessage =
          ["Consumed 8, remaining [3, 3, 8]", "Consumed 3, remaining [3, 8]",
            "Consumed 8, remaining [3]", "Consumed 3, remaining []"] ∧
        (entered steps).map Log.stepMessage =
          ["Descending into bracket group at 4", "Descending into bracket group at 5"] ∧
        (applied steps).map Log.stepMessage =
          ["Reduced 8 / 3 = 2.6666666666666665",
            "Reduced 3 - 2.6666666666666665 = 0.3333333333333335",
            "Reduced 8 / 0.3333333333333335 = 23.99999999999999"] := by
  have hleaves : fractionTree.leaves.Perm (⟨[3, 3, 8, 8]⟩ : Hand).digits := by decide
  have hdigits : digits (lexemes "8 / ((3) - 8/3)") = [8, 3, 8, 3] := by decide
  have hopening : (lexemes "8 / ((3) - 8/3)").filter (·.token == .opening) =
      [⟨.opening, 4⟩, ⟨.opening, 5⟩] := by decide
  have hvalue : Decimal.text (fractionTree.value .float) = "23.99999999999999" := by
    decide +kernel
  have hok : ((⟨[3, 3, 8, 8]⟩ : Hand).solve "8 / ((3) - 8/3)").value.result =
      .ok (fractionTree.value .float) := by
    rw [value_solve]
    exact evaluate_eq_ok_iff.mpr ⟨fractionTree, spells_fractionTree, hleaves, rfl⟩
  obtain ⟨steps, -, -, hmessages, -, -, -, hconsumed, hentered, -, htree⟩ :=
    events_solve_of_accepted hok
  rw [hdigits] at hconsumed
  rw [entries, hopening] at hentered
  rw [hvalue] at hmessages
  refine ⟨hok, steps, hmessages, ?_, ?_, ?_⟩
  · rw [hconsumed]
    decide +kernel
  · rw [hentered]
    decide +kernel
  · rw [(htree _ spells_fractionTree).1]
    decide +kernel

end Make24
