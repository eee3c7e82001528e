import Make24.Proofs.Tokens
import Make24.Proofs.Values

namespace Make24

namespace Text

/-- Blank characters behind a text are trimmed. -/
theorem trim_append_blanks (h : ∀ c ∈ blanks.toList, isBlank c = true) (text : String) :
    trim (text ++ blanks) = trim text := by
  have hreverse : ∀ c ∈ blanks.toList.reverse, isBlank c = true :=
    fun c hc => h c (List.mem_reverse.mp hc)
  have hnil : blanks.toList.dropWhile isBlank = [] := by
    rw [← List.append_nil blanks.toList, List.dropWhile_append_of_pos h, List.dropWhile_nil]
  rw [trim, trim, String.toList_append, trimmed, trimmed, List.dropWhile_append]
  split
  · next hempty => rw [hnil, List.isEmpty_iff.mp hempty]
  · rw [List.reverse_append, List.dropWhile_append_of_pos hreverse]

end Text

/-- Blank characters behind a text make no tokens. -/
theorem lexemes_append_blanks (h : ∀ c ∈ blanks.toList, Text.isBlank c = true) (text : String) :
    lexemes (text ++ blanks) = lexemes text := by
  have hnil (start : Nat) : lexemesFrom start blanks.toList = [] := by
    apply List.filterMap_eq_nil_iff.mpr
    rintro ⟨c, position⟩ hc
    exact if_pos (h c (List.fst_mem_of_mem_zipIdx hc))
  rw [lexemes, lexemes, String.toList_append, lexemesFrom_append, hnil, List.append_nil]

namespace Log

@[simp] theorem visible_append (threshold : Level) (first second : List Event) :
    visible threshold (first ++ second) = visible threshold first ++ visible threshold second :=
  List.filter_append ..

/-- Two thresholds show the same events in either order. -/
theorem visible_comm (first second : Level) (events : List Event) :
    visible first (visible second events) = visible second (visible first events) := by
  simp only [visible, List.filter_filter, Bool.and_comm]

theorem visible_info_of_debug (h : ∀ event ∈ events, event.level = .debug) :
    visible .info events = [] := by
  apply List.filter_eq_nil_iff.mpr
  intro event hm
  rw [h event hm]
  decide

/-- The record of how an evaluation ended. -/
def Event.ofResult : Except Fault Float → Event
  | .ok value => .evaluated value
  | .error fault => .refused fault

/-- The record of what an answer, trimmed, came to. -/
def Event.ofVerdict (shown : String) : Verdict → Event
  | .correct => .targetReached
  | .incorrect value => .targetMissed value
  | .invalid fault => .answerRefused shown fault

end Log
open Log

theorem events_solve (hand : Hand) (text : String) :
    (hand.solve text).events =
      [.evaluationBegan text hand.digits, .tokenized text (lexemes text).length] ++
        (evaluate .float hand text).steps.map .stepped ++
        [.ofResult (evaluate .float hand text).result] := by
  unfold Hand.solve readTokens evaluate
  simp only [Logged.events_bind, Logged.value_bind, Logged.value_pure]
  split
  all_goals
    next hr =>
      rw [hr]
      rfl

theorem events_judge (round : Round) (answer : String) :
    (round.judge answer).events =
      [.answered (Text.trim answer) round.deal.toList] ++ (round.hand.solve answer).events ++
        [.ofVerdict (Text.trim answer) (round.judge answer).value] := by
  rw [value_judge, ← value_solve]
  unfold Round.judge
  simp only [Logged.events_bind]
  split
  all_goals
    next hv =>
      rw [hv]
      rfl

theorem level_of_mem_solve {hand : Hand} (h : event ∈ (hand.solve text).events) :
    event.level = .debug := by
  simp only [events_solve, List.mem_append, List.mem_cons, List.mem_map, List.not_mem_nil,
    or_false] at h
  rcases h with ((rfl | rfl) | ⟨step, -, rfl⟩) | rfl
  · rfl
  · rfl
  · rfl
  · cases (evaluate .float hand text).result <;> rfl

/-- Of a judgement only the answer is shown, and of the answer only what is left when it is
trimmed. -/
theorem visible_judge (round : Round) (answer : String) :
    visible .info (round.judge answer).events =
      [.answered (Text.trim answer) round.deal.toList] := by
  have hsolve : visible .info (round.hand.solve answer).events = [] :=
    visible_info_of_debug fun _ => level_of_mem_solve
  have hverdict :
      visible .info [.ofVerdict (Text.trim answer) (round.judge answer).value] = [] := by
    cases (round.judge answer).value <;> rfl
  rw [events_judge, visible_append, visible_append, hsolve, hverdict]
  rfl

/-- Blank characters behind an answer change neither the verdict nor what is shown of it. -/
theorem judge_append_blanks (round : Round) (h : ∀ c ∈ blanks.toList, Text.isBlank c = true)
    (answer : String) :
    (round.judge (answer ++ blanks)).value = (round.judge answer).value ∧
      visible .info (round.judge (answer ++ blanks)).events =
        visible .info (round.judge answer).events := by
  refine ⟨?_, ?_⟩
  · rw [value_judge, value_judge, evaluate, evaluate, lexemes_append_blanks h]
  · rw [visible_judge, visible_judge, Text.trim_append_blanks h]

end Make24
