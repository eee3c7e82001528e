import Make24.Proofs.Records
import Make24.Proofs.Remainder
import Make24.Proofs.Session

namespace Make24
open Log

namespace Log

/-- A stricter threshold shows nothing more of what another has shown. -/
theorem visible_visible (h : first.rank ≤ second.rank) (events : List Event) :
    visible first (visible second events) = visible first events := by
  rw [visible, visible, List.filter_filter]
  apply List.filter_congr
  intro event _
  simp only [Level.admits, Bool.and_eq_left_iff_imp, decide_eq_true_eq]
  exact fun he => Nat.le_trans he h

/-- A record without the answer that it may repeat. -/
def Event.withoutEcho : Event → Event
  | .answered _ digits => .answered "" digits
  | event => event

/-- What is seen without debug records, but for the echo of an answer. -/
def unechoed (events : List Event) : List Event :=
  (visible .info events).map Event.withoutEcho

end Log

theorem Round.events_start {deal : Deal} {round : Round} (h : (start deal).value = .ok round) :
    (start deal).events = [.handCreated deal.toList] := by
  have hhand : Hand.ofDigits deal.toList = .ok ⟨deal.toList⟩ :=
    Hand.ofDigits_eq_ok_iff.mpr ⟨rfl, (eq_of_start h).1⟩
  simp only [start, Hand.create, hhand]
  rfl

theorem Round.events_draw (source : Random.Source) :
    (draw source).events = .drawn source.deal.1.toList :: (start source.deal.1).events := by
  rw [← List.append_nil (start source.deal.1).events]
  rfl

/-- Starting a round leaves debug records only. -/
theorem Round.level_of_mem_start {deal : Deal} {round : Round}
    (h : (start deal).value = .ok round) :
    ∀ event ∈ (start deal).events, event.level = .debug := by
  rw [events_start h]
  simp [Event.level]

theorem Round.level_of_mem_draw {source : Random.Source} {round : Round}
    (h : (draw source).value.1 = .ok round) :
    ∀ event ∈ (draw source).events, event.level = .debug := by
  rw [value_draw] at h
  rw [events_draw]
  intro event he
  rcases List.mem_cons.mp he with rfl | hstart
  · rfl
  · exact level_of_mem_start h event hstart

theorem unechoed_judge (round : Round) (answer : String) :
    unechoed (round.judge answer).events = [.answered "" round.deal.toList] := by
  rw [unechoed, visible_judge]
  rfl

namespace CommandLine

/-- Dealing a round leaves debug records only. -/
theorem Supply.level_of_mem_round {supply : Supply} {dealt : Logged (Except GameFault Round)}
    {started : Round} (h : supply.round fresh = .ok dealt) (hv : dealt.value = .ok started) :
    ∀ event ∈ dealt.events, event.level = .debug := by
  cases supply with
  | listed text =>
    rw [round] at h
    cases hparse : (Deal.parse text).value with
    | error fault =>
      rw [hparse] at h
      cases h
    | ok deal =>
      rw [hparse] at h
      obtain rfl : Round.start deal = dealt := Except.ok.inj h
      exact Round.level_of_mem_start hv
  | seeded seed =>
    obtain rfl := Except.ok.inj h
    rw [Logged.value_bind, Logged.value_bind, Logged.value_pure] at hv
    rw [Logged.events_bind, Logged.events_bind, Logged.events_pure, List.append_nil]
    intro event he
    rcases List.mem_append.mp he with hseeded | hdrawn
    · obtain rfl := List.mem_singleton.mp hseeded
      rfl
    · exact Round.level_of_mem_draw hv event hdrawn
  | random =>
    obtain rfl := Except.ok.inj h
    rw [Logged.value_bind, Logged.value_pure] at hv
    rw [Logged.events_bind, Logged.events_pure, List.append_nil]
    exact Round.level_of_mem_draw hv

/-- The run deals a round, which leaves some records, logs up to a level, and has an answer to
judge: an argument, or else the first line of its input. -/
inductive Plays (arguments : List String) (fresh : Random.Key) (input : List UInt8)
    (dealing : List Event) (round : Round) (level : Level) (answer : String) : Prop where
  | intro (asked : Request.ofArguments arguments = .play supply expression level)
      (dealt : supply.round fresh = .ok ⟨.ok round, dealing⟩)
      (read : (⟨round, expression, level⟩ : Table).answer? input = some answer)

/-- All that a played round records, whatever its log shows of it. -/
def records (dealing : List Event) (round : Round) (answer : String) : List Event :=
  dealing ++ [.dealt round.deal.toList] ++ (round.judge answer).events

namespace Plays
variable {round : Round}

theorem run_eq (h : Plays arguments fresh input dealing round level answer) :
    run arguments fresh input =
      ⟨⟨round.prompt ++ "\n" ++ ((round.judge answer).value.message ++ "\n"),
          visible level (records dealing round answer)⟩,
        .judged (round.judge answer).value⟩ := by
  obtain ⟨asked, dealt, read⟩ := h
  rw [run_of_asking (opening_of_round asked dealt), Table.close_of_some read, records,
    visible_append level (dealing ++ _)]
  rfl

theorem value_judge_of_ending (h : Plays arguments fresh input dealing round level answer)
    (hending : (run arguments fresh input).ending = .judged verdict) :
    (round.judge answer).value = verdict := by
  rw [h.run_eq] at hending
  exact Ending.judged.inj hending

/-- Of a played round only the digits are shown, and then the answer. -/
theorem visible_records (h : Plays arguments fresh input dealing round level answer) :
    visible .info (records dealing round answer) =
      [.dealt round.deal.toList, .answered (Text.trim answer) round.deal.toList] := by
  obtain ⟨-, dealt, -⟩ := h
  have hdealing : visible .info dealing = [] :=
    visible_info_of_debug (Supply.level_of_mem_round dealt rfl)
  rw [records, visible_append, visible_append, hdealing, visible_judge]
  rfl

theorem unechoed_run (h : Plays arguments fresh input dealing round level answer) :
    unechoed (run arguments fresh input).output.events =
      visible level [.dealt round.deal.toList, .answered "" round.deal.toList] := by
  rw [h.run_eq, unechoed, visible_comm, h.visible_records]
  cases level <;> rfl

end Plays

/-- Every verdict is on an answer that the run plays. -/
theorem exists_plays (h : (run arguments fresh input).ending = .judged verdict) :
    ∃ dealing round level answer, Plays arguments fresh input dealing round level answer := by
  cases hasked : Request.ofArguments arguments with
  | version | help | misuse =>
    simp only [run, opening, hasked] at h
    cases h
  | play supply expression level =>
    rcases hdealt : supply.round fresh with fault | ⟨fault | round, dealing⟩
    · simp only [run, opening, hasked, deal, hdealt] at h
      cases h
    · simp only [run, opening, hasked, deal, hdealt] at h
      cases h
    · cases hread : (⟨round, expression, level⟩ : Table).answer? input with
      | some answer => exact ⟨dealing, round, level, answer, hasked, hdealt, hread⟩
      | none =>
        rw [run_of_asking (opening_of_round hasked hdealt), Table.close_of_none hread] at h
        cases h

/-- Two runs that a player cannot tell apart without debug records, but for the echo of the
answer. -/
structure Report.SeenAlike (first second : Report) : Prop where
  text : first.output.text = second.output.text
  exitCode : first.ending.exitCode = second.ending.exitCode
  log : unechoed first.output.events = unechoed second.output.events

/-- The fault that makes an answer invalid is kept back. Of every judgement the log shows the
trimmed answer and the digits and no more, unless it shows debug records, and two invalid answers
differ in nothing that is seen but that echo. -/
theorem invalid_answers_seen_alike :
    (∀ (round : Round) (answer : String),
      visible .warn (round.judge answer).events = [] ∧
        visible .info (round.judge answer).events =
          [.answered (Text.trim answer) round.deal.toList]) ∧
    (∀ (round : Round) (answer other : String) (fault cause : Fault),
      (round.judge answer).value = .invalid fault → (round.judge other).value = .invalid cause →
        (round.judge answer).value.message = (round.judge other).value.message ∧
          (round.judge answer).value.isCorrect = (round.judge other).value.isCorrect ∧
          unechoed (round.judge answer).events = unechoed (round.judge other).events) ∧
    (∀ arguments fresh input verdict, (run arguments fresh input).ending = .judged verdict →
      ∃ dealing round level answer, Plays arguments fresh input dealing round level answer ∧
        verdict = (round.judge answer).value ∧
        (run arguments fresh input).output.events =
          visible level (records dealing round answer) ∧
        visible .warn (records dealing round answer) = [] ∧
        visible .info (records dealing round answer) =
          [.dealt round.deal.toList, .answered (Text.trim answer) round.deal.toList]) ∧
    ∀ arguments fresh input dealing arguments' fresh' input' dealing' round level answer other,
      Plays arguments fresh input dealing round level answer →
      Plays arguments' fresh' input' dealing' round level other →
      ∀ fault cause, (run arguments fresh input).ending = .judged (.invalid fault) →
        (run arguments' fresh' input').ending = .judged (.invalid cause) →
          (run arguments fresh input).SeenAlike (run arguments' fresh' input') := by
  refine ⟨?_, ?_, ?_, ?_⟩
  · intro round answer
    refine ⟨?_, visible_judge round answer⟩
    rw [← visible_visible (by decide : Level.warn.rank ≤ Level.info.rank), visible_judge]
    rfl
  · intro round answer other fault cause hanswer hother
    rw [hanswer, hother, unechoed_judge, unechoed_judge]
    exact ⟨rfl, rfl, rfl⟩
  · intro arguments fresh input verdict hending
    obtain ⟨dealing, round, level, answer, hplays⟩ := exists_plays hending
    refine ⟨dealing, round, level, answer, hplays, (hplays.value_judge_of_ending hending).symm, ?_,
      ?_, hplays.visible_records⟩
    · rw [hplays.run_eq]
    · rw [← visible_visible (by decide : Level.warn.rank ≤ Level.info.rank), hplays.visible_records]
      rfl
  · intro arguments fresh input dealing arguments' fresh' input' dealing' round level answer other
      hplays hplays' fault cause hending hending'
    refine ⟨?_, ?_, ?_⟩
    · rw [hplays.run_eq, hplays'.run_eq, hplays.value_judge_of_ending hending,
        hplays'.value_judge_of_ending hending']
      rfl
    · rw [hending, hending']
      rfl
    · rw [hplays.unechoed_run, hplays'.unechoed_run]

/-- One answer leaves digits unused, and the other leaves out an operator inside of brackets. -/
theorem invalid_answers_seen_alike_nested :
    Plays ["-d", "8 8 7 4", "-l", "info", "8 + 8"] (.ofSeed 0) [] [.handCreated [8, 8, 7, 4]]
        ⟨#v[8, 8, 7, 4], ⟨[8, 8, 7, 4]⟩⟩ .info "8 + 8" ∧
      Plays ["-d", "8874", "-linfo"] (.ofSeed 1) (Text.encode "((8 4))\n")
        [.handCreated [8, 8, 7, 4]] ⟨#v[8, 8, 7, 4], ⟨[8, 8, 7, 4]⟩⟩ .info "((8 4))\n" ∧
      (run ["-d", "8 8 7 4", "-l", "info", "8 + 8"] (.ofSeed 0) []).ending =
        .judged (.invalid (.unusedDigits [7, 4])) ∧
      (run ["-d", "8874", "-linfo"] (.ofSeed 1) (Text.encode "((8 4))\n")).ending =
        .judged (.invalid (.missingOperator 4)) ∧
      (run ["-d", "8 8 7 4", "-l", "info", "8 + 8"] (.ofSeed 0) []).SeenAlike
        (run ["-d", "8874", "-linfo"] (.ofSeed 1) (Text.encode "((8 4))\n")) ∧
      (Round.judge ⟨#v[8, 8, 7, 4], ⟨[8, 8, 7, 4]⟩⟩ "8 + 8").value.message =
        (Round.judge ⟨#v[8, 8, 7, 4], ⟨[8, 8, 7, 4]⟩⟩ "((8 4))\n").value.message := by
  have hfault : (evaluate .float ⟨[8, 8, 7, 4]⟩ "8 + 8").fault? = some (.unusedDigits [7, 4]) := by
    rw [fault?_evaluate]
    decide
  have hfault' : (evaluate .float ⟨[8, 8, 7, 4]⟩ "((8 4))\n").fault? =
      some (.missingOperator 4) := by
    rw [fault?_evaluate]
    decide
  rw [Outcome.fault?_eq_some_iff] at hfault hfault'
  have hanswer : (Round.judge ⟨#v[8, 8, 7, 4], ⟨[8, 8, 7, 4]⟩⟩ "8 + 8").value =
      .invalid (.unusedDigits [7, 4]) := by
    rw [value_judge, hfault]
    rfl
  have hother : (Round.judge ⟨#v[8, 8, 7, 4], ⟨[8, 8, 7, 4]⟩⟩ "((8 4))\n").value =
      .invalid (.missingOperator 4) := by
    rw [value_judge, hfault']
    rfl
  have hasked : Request.ofArguments ["-d", "8 8 7 4", "-l", "info", "8 + 8"] =
      .play (.listed "8 8 7 4") (some "8 + 8") .info := by decide
  have hasked' : Request.ofArguments ["-d", "8874", "-linfo"] =
      .play (.listed "8874") none .info := by decide
  have hplays : Plays ["-d", "8 8 7 4", "-l", "info", "8 + 8"] (.ofSeed 0) []
      [.handCreated [8, 8, 7, 4]] ⟨#v[8, 8, 7, 4], ⟨[8, 8, 7, 4]⟩⟩ .info "8 + 8" :=
    .intro hasked rfl rfl
  have hread : Text.decode? (Text.firstLine (Text.encode "((8 4))\n")) = some "((8 4))\n" :=
    Text.decode?_eq_some_iff.mpr (by decide)
  have hplays' : Plays ["-d", "8874", "-linfo"] (.ofSeed 1) (Text.encode "((8 4))\n")
      [.handCreated [8, 8, 7, 4]] ⟨#v[8, 8, 7, 4], ⟨[8, 8, 7, 4]⟩⟩ .info "((8 4))\n" :=
    .intro hasked' rfl hread
  have hending := congrArg Report.ending hplays.run_eq
  have hending' := congrArg Report.ending hplays'.run_eq
  rw [hanswer] at hending
  rw [hother] at hending'
  obtain ⟨-, hjudged, -, hruns⟩ := invalid_answers_seen_alike
  exact ⟨hplays, hplays', hending, hending',
    hruns _ _ _ _ _ _ _ _ _ _ _ _ hplays hplays' _ _ hending hending',
    (hjudged _ _ _ _ _ hanswer hother).1⟩

end CommandLine

end Make24
