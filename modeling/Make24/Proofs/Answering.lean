import Make24.Proofs.Arguments
import Make24.Proofs.Records
import Make24.Proofs.Session

namespace Make24.CommandLine
open Log

/-- Input whose first line is the text: the text alone, or the text before a line feed, which a
carriage return may precede and anything may follow. -/
inductive Carries (text : String) : List UInt8 → Prop where
  | alone : Carries text (Text.encode text)
  | lineFeed (more : List UInt8) : Carries text (Text.encode text ++ 10 :: more)
  | carriageReturn (more : List UInt8) : Carries text (Text.encode text ++ 13 :: 10 :: more)

/-- What the end of the line adds to the text is blank. -/
theorem Carries.exists_firstLine (h : Carries text input) (hline : '\n' ∉ text.toList) :
    ∃ blanks : String, (∀ c ∈ blanks.toList, Text.isBlank c = true) ∧
      Text.FirstLine input (Text.encode (text ++ blanks)) := by
  have hnone := Text.not_mem_encode hline
  cases h with
  | alone =>
    refine ⟨"", by simp, ?_⟩
    rw [String.append_empty]
    exact .whole _ hnone
  | lineFeed more =>
    refine ⟨"\n", List.all_eq_true.mp (by decide), ?_⟩
    rw [Text.encode_append]
    exact .ended _ more hnone
  | carriageReturn more =>
    have hreturn : 10 ∉ Text.encode text ++ [13] := by simpa using hnone
    have hended := Text.FirstLine.ended _ more hreturn
    have hencode : Text.encode "\r\n" = [13, 10] := rfl
    refine ⟨"\r\n", List.all_eq_true.mp (by decide), ?_⟩
    rw [Text.encode_append, hencode]
    simpa using hended

/-- An answer is judged alike whether it is an argument or the first line of the input, however
that line ends: all that can be seen without debug records is the same. -/
theorem run_of_carries {digits : Deal} (hbare : Request.ofArguments bare = .play supply none level)
    (hd : supply.digits fresh = .ok digits) (hline : '\n' ∉ text.toList) :
    Request.ofArguments (withExpression bare text) = .play supply (some text) level ∧
    ∃ round, (Round.start digits).value = .ok round ∧
      ∀ given, Request.ofArguments given = .play supply (some text) level →
        ∀ unread input, Carries text input →
          (run given fresh unread).output.text = (run bare fresh input).output.text ∧
          (run given fresh unread).ending = .judged (round.judge text).value ∧
          (run bare fresh input).ending = .judged (round.judge text).value ∧
          (run given fresh unread).ending.exitCode = (run bare fresh input).ending.exitCode ∧
          visible .info (run given fresh unread).output.events =
            visible .info (run bare fresh input).output.events := by
  obtain ⟨round, hstart⟩ := Supply.exists_round hd
  obtain ⟨events, hopening⟩ := exists_opening hd hstart level
  refine ⟨ofArguments_withExpression hbare text, round, hstart,
    fun given hgiven unread input hcarries => ?_⟩
  obtain ⟨blanks, hblanks, hfirst⟩ := hcarries.exists_firstLine hline
  obtain ⟨hverdict, hshown⟩ := judge_append_blanks round hblanks text
  rw [run_of_asking (hopening given _ hgiven), run_of_asking (hopening bare _ hbare),
    Table.close_of_some rfl,
    Table.close_of_some ((Table.answer?_eq_some_iff _ hfirst).mpr (.inr ⟨rfl, rfl⟩))]
  simp only [hverdict]
  refine ⟨rfl, rfl, rfl, rfl, ?_⟩
  simp only [Report.behind, visible_append]
  rw [visible_comm .info level, visible_comm .info level, hshown]

theorem run_of_carries_hyphen :
    (Request.ofArguments ["-d", "8 8 7 4"] = .play (.listed "8 8 7 4") none .warn ∧
      Supply.digits (.ofSeed 0) (.listed "8 8 7 4") = .ok #v[8, 8, 7, 4] ∧
      '\n' ∉ "-8".toList) ∧
    Request.ofArguments ["-d", "8 8 7 4", "--", "-8"] =
      .play (.listed "8 8 7 4") (some "-8") .warn ∧
    ∃ round, (Round.start #v[8, 8, 7, 4]).value = .ok round ∧
      (run ["-d", "8 8 7 4", "--", "-8"] (.ofSeed 0) []).ending =
        .judged (round.judge "-8").value ∧
      (run ["-d", "8 8 7 4"] (.ofSeed 0) [45, 56, 13, 10, 0xFF]).ending =
        .judged (round.judge "-8").value := by
  have hbare : Request.ofArguments ["-d", "8 8 7 4"] = .play (.listed "8 8 7 4") none .warn := by
    decide
  have hd : Supply.digits (.ofSeed 0) (.listed "8 8 7 4") = .ok #v[8, 8, 7, 4] := rfl
  have hline : '\n' ∉ "-8".toList := by decide
  obtain ⟨hgiven, round, hstart, hall⟩ := run_of_carries hbare hd hline
  obtain ⟨-, hspoken, hread, -, -⟩ := hall _ hgiven [] _ (.carriageReturn [0xFF])
  exact ⟨⟨hbare, hd, hline⟩, hgiven, round, hstart, hspoken, hread⟩

end Make24.CommandLine
