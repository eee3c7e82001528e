import Make24.Proofs.Bytes
import Make24.Proofs.Dealing
import Make24.Proofs.Wording

namespace Make24.CommandLine
open Log

/-- The report with some output in front of it. -/
def Report.behind (report : Report) (output : Output) : Report :=
  ⟨⟨output.text ++ report.output.text, output.events ++ report.output.events⟩, report.ending⟩

theorem run_of_asking (h : opening arguments fresh = .asking output table) (input : List UInt8) :
    run arguments fresh input = (table.close input).behind output := by
  rw [run, h]
  rfl

theorem Supply.round_of_error {supply : Supply} (h : supply.digits fresh = .error fault) :
    supply.round fresh = .error fault := by
  cases supply with
  | listed text =>
    have hparse : (Deal.parse text).value = .error fault := h
    rw [round, hparse]
    rfl
  | seeded seed => cases h
  | random => cases h

/-- The round is the one that starts with the digits. -/
theorem Supply.round_of_ok {supply : Supply} {digits : Deal}
    (h : supply.digits fresh = .ok digits) :
    ∃ dealt, supply.round fresh = .ok dealt ∧ dealt.value = (Round.start digits).value := by
  cases supply with
  | listed text =>
    have hparse : (Deal.parse text).value = .ok digits := h
    rw [round, hparse]
    exact ⟨Round.start digits, rfl, rfl⟩
  | seeded seed =>
    have hdeal : (Random.Source.seeded seed).value.deal.1 = digits := Except.ok.inj h
    refine ⟨_, rfl, ?_⟩
    rw [Logged.value_bind, Logged.value_bind, Logged.value_pure, Round.value_draw, hdeal]
  | random =>
    have hdeal : (Random.Source.deal ⟨fresh, 0⟩).1 = digits := Except.ok.inj h
    refine ⟨_, rfl, ?_⟩
    rw [Logged.value_bind, Logged.value_pure, Round.value_draw, hdeal]

/-- Dealing never fails once there are digits. -/
theorem Supply.exists_round {supply : Supply} {digits : Deal}
    (h : supply.digits fresh = .ok digits) : ∃ round, (Round.start digits).value = .ok round :=
  ⟨_, value_start (isPlayable_of_digits h)⟩

/-- No digits, no prompt. -/
theorem run_of_error (h : Request.ofArguments arguments = .play supply expression level)
    (hd : supply.digits fresh = .error fault) (input : List UInt8) :
    run arguments fresh input =
      ⟨⟨"", []⟩, .failed ("Invalid digit list: " ++ fault.message)⟩ := by
  simp only [run, opening, h, deal, Supply.round_of_error hd]

theorem opening_of_round {round : Round}
    (h : Request.ofArguments arguments = .play supply expression level)
    (hround : supply.round fresh = .ok ⟨.ok round, events⟩) :
    opening arguments fresh =
      .asking ⟨round.prompt ++ "\n", visible level (events ++ [.dealt round.deal.toList])⟩
        ⟨round, expression, level⟩ := by
  simp only [opening, h, deal, hround]

/-- What is shown before the answer is read depends on no answer. -/
theorem exists_opening {digits : Deal} {round : Round} (hd : supply.digits fresh = .ok digits)
    (hstart : (Round.start digits).value = .ok round) (level : Level) :
    ∃ events, ∀ arguments expression,
      Request.ofArguments arguments = .play supply expression level →
        opening arguments fresh =
          .asking ⟨round.prompt ++ "\n", events⟩ ⟨round, expression, level⟩ := by
  obtain ⟨⟨value, events⟩, hround, hvalue⟩ := Supply.round_of_ok hd
  obtain rfl : value = .ok round := hvalue.trans hstart
  exact ⟨_, fun _ _ h => opening_of_round h hround⟩

namespace Table

theorem answer?_eq_some_iff (table : Table) (hline : Text.FirstLine input line) :
    table.answer? input = some answer ↔
      table.expression = some answer ∨
        table.expression = none ∧ Text.encode answer = line := by
  unfold answer?
  cases table.expression with
  | some expression => simp
  | none => simp [hline.firstLine_eq, Text.decode?_eq_some_iff]

theorem answer?_eq_none_iff (table : Table) (hline : Text.FirstLine input line) :
    table.answer? input = none ↔
      table.expression = none ∧ ∀ text, Text.encode text ≠ line := by
  unfold answer?
  cases table.expression with
  | some expression => simp
  | none => simp [hline.firstLine_eq, Text.decode?_eq_none_iff]

theorem close_of_some {table : Table} (h : table.answer? input = some answer) :
    table.close input =
      ⟨⟨(table.round.judge answer).value.message ++ "\n",
          visible table.level (table.round.judge answer).events⟩,
        .judged (table.round.judge answer).value⟩ := by
  simp only [close, h]

theorem close_of_none {table : Table} (h : table.answer? input = none) :
    table.close input =
      ⟨⟨"", []⟩,
        .failed "Failed to read expression from stdin: stream did not contain valid UTF-8"⟩ := by
  simp only [close, h]

/-- Only the first line of the input is read. -/
theorem close_firstLine (table : Table) (hline : Text.FirstLine input line) :
    table.close input = table.close line := by
  simp only [close, answer?, hline.firstLine_eq, hline.alone.firstLine_eq]

end Table

/-- A judged answer exits with 0 if it comes to 24, or close, and with 1 otherwise. -/
theorem exitCode_judged {digits : Deal} {round : Round}
    (hstart : (Round.start digits).value = .ok round) (answer : String) :
    (Ending.judged (round.judge answer).value).exitCode =
      match (solveDealt digits.toList answer).value with
      | .ok value => if (value - 24).abs < 1e-9 then 0 else 1
      | .error _ => 1 := by
  obtain ⟨hplayable, rfl⟩ := eq_of_start hstart
  rw [value_judge, value_solveDealt hplayable]
  cases (evaluate .float ⟨digits.toList⟩ answer).result with
  | error fault => rfl
  | ok value =>
    change (if (Verdict.ofResult (.ok value)).isCorrect then 0 else 1) =
      if (value - 24).abs < 1e-9 then 0 else 1
    cases hnear : reachesTarget value with
    | true =>
      have hclose : (value - 24).abs < 1e-9 := of_decide_eq_true hnear
      rw [Verdict.ofResult, hnear, if_pos hclose]
      rfl
    | false =>
      have hfar : ¬(value - 24).abs < 1e-9 := of_decide_eq_false hnear
      rw [Verdict.ofResult, hnear, if_neg hfar]
      rfl

/-- A run that is asked to play a round prints nothing if there are no digits. Otherwise it shows
the digits, and then what it says about the answer, unless the line it reads is no text. Of every
input it reads the first line only. -/
theorem run_of_play (h : Request.ofArguments arguments = .play supply expression level)
    (fresh : Random.Key) :
    (∀ fault, supply.digits fresh = .error fault → ∀ input,
      (run arguments fresh input).output.text = "" ∧
        (run arguments fresh input).ending.exitCode = 2) ∧
    ∀ digits : Deal, supply.digits fresh = .ok digits →
      ∃ round, (Round.start digits).value = .ok round ∧
        round.prompt = "solve: " ++ " ".intercalate (digits.toList.map Nat.repr) ∧
        '\n' ∉ round.prompt.toList ∧
        ∀ input, ∃ line, (∀ other, Text.FirstLine input other ↔ other = line) ∧
          run arguments fresh input = run arguments fresh line ∧
          (expression = none → (∀ text, Text.encode text ≠ line) →
            (run arguments fresh input).output.text = round.prompt ++ "\n" ∧
              (run arguments fresh input).ending.exitCode = 2) ∧
          ∀ answer, expression = some answer ∨ expression = none ∧ Text.encode answer = line →
            (run arguments fresh input).output.text =
                round.prompt ++ "\n" ++ ((round.judge answer).value.message ++ "\n") ∧
              '\n' ∉ (round.judge answer).value.message.toList ∧
              (run arguments fresh input).ending.exitCode =
                match (solveDealt digits.toList answer).value with
                | .ok value => if (value - 24).abs < 1e-9 then 0 else 1
                | .error _ => 1 := by
  refine ⟨?_, ?_⟩
  · intro fault hd input
    rw [run_of_error h hd]
    exact ⟨rfl, rfl⟩
  · intro digits hd
    obtain ⟨round, hstart⟩ := Supply.exists_round hd
    obtain ⟨events, hopening⟩ := exists_opening hd hstart level
    have hrun := run_of_asking (hopening arguments expression h)
    have hprompt : round.prompt = "solve: " ++ " ".intercalate (digits.toList.map Nat.repr) := by
      rw [Round.prompt, (eq_of_start hstart).2]
    refine ⟨round, hstart, hprompt, round.lineFeed_not_mem_prompt, ?_⟩
    intro input
    have hline : Text.FirstLine input (Text.firstLine input) := Text.firstLine_eq_iff.mp rfl
    refine ⟨Text.firstLine input, fun other => Text.firstLine_eq_iff.symm.trans eq_comm, ?_, ?_, ?_⟩
    · rw [hrun, hrun, Table.close_firstLine _ hline]
    · intro hnone hinvalid
      rw [hrun, Table.close_of_none ((Table.answer?_eq_none_iff _ hline).mpr ⟨hnone, hinvalid⟩)]
      exact ⟨String.append_empty, rfl⟩
    · intro answer hanswer
      rw [hrun, Table.close_of_some ((Table.answer?_eq_some_iff _ hline).mpr hanswer)]
      exact ⟨rfl, Verdict.lineFeed_not_mem_message _, exitCode_judged hstart answer⟩

theorem run_of_play_spoiled :
    Request.ofArguments ["-d", "8 8 7 4"] = .play (.listed "8 8 7 4") none .warn ∧
      (run ["-d", "8 8 7 4"] (.ofSeed 0) [0xFF, 10, 65]).output.text = "solve: 8 8 7 4\n" ∧
      (run ["-d", "8 8 7 4"] (.ofSeed 0) [0xFF, 10, 65]).ending.exitCode = 2 := by
  have h : Request.ofArguments ["-d", "8 8 7 4"] = .play (.listed "8 8 7 4") none .warn := by decide
  have hd : Supply.digits (.ofSeed 0) (.listed "8 8 7 4") = .ok #v[8, 8, 7, 4] := rfl
  have hline : Text.FirstLine [0xFF, 10, 65] [0xFF, 10] := .ended [0xFF] [65] (by decide)
  have hspoiled : ∀ text, Text.encode text ≠ [0xFF, 10] :=
    Text.decode?_eq_none_iff.mp (by decide +kernel)
  obtain ⟨-, hok⟩ := run_of_play h (.ofSeed 0)
  obtain ⟨round, -, hprompt, -, hrun⟩ := hok _ hd
  obtain ⟨line, hfirst, -, hprinted, -⟩ := hrun [0xFF, 10, 65]
  obtain rfl := (hfirst _).mp hline
  rw [hprompt] at hprinted
  exact ⟨h, hprinted rfl hspoiled⟩

end Make24.CommandLine
