import Make24.CommandLine.Request

namespace Make24.CommandLine
open Log

namespace Argument

theorem long_ne_separator (name : List Char) : long name ≠ .separator := by
  unfold long
  simp only
  split <;> simp

theorem short_ne_separator (letter : Char) (more : List Char) : short letter more ≠ .separator := by
  unfold short
  simp only
  split <;> simp

theorem ofString_eq_separator_iff : ofString text = .separator ↔ text = "--" := by
  constructor
  · intro h
    unfold ofString at h
    split at h
    · next htext => exact String.toList_inj.mp htext
    · exact absurd h (long_ne_separator _)
    · exact absurd h (short_ne_separator _ _)
    · cases h
  · rintro rfl
    rfl

theorem ne_separator (h : ofString text = argument) (ha : argument ≠ .separator) : "--" ≠ text :=
  fun he => ha (h.symm.trans (ofString_eq_separator_iff.mpr he.symm))

theorem ofString_of_no_hyphen (h : text.toList.head? ≠ some '-') :
    ofString text = .positional text := by
  unfold ofString
  split
  · next htext => simp [htext] at h
  · next htext => simp [htext] at h
  · next htext => simp [htext] at h
  · rfl

end Argument

namespace Given
variable {given : Given} {supply : Supply} {expression : Option String} {level : Level}

/-- Reading goes on behind accepted arguments with what they have set. -/
theorem readPositional_append (h : given.readPositional arguments = .play supply expression level) :
    ∃ later : Given, later.request = .play supply expression level ∧
      ∀ more, given.readPositional (arguments ++ more) = later.readPositional more := by
  fun_induction readPositional given arguments with
  | case1 given => exact ⟨given, h, fun more => rfl⟩
  | case2 given text arguments later hanswer ih =>
    obtain ⟨last, hlast, hmore⟩ := ih h
    refine ⟨last, hlast, fun more => ?_⟩
    rw [List.cons_append, readPositional, hanswer]
    exact hmore more
  | case3 => cases h

/-- Behind the separator reading goes on with positional arguments only. -/
theorem read_append (h : given.read arguments = .play supply expression level) :
    ∃ later : Given, later.request = .play supply expression level ∧
      ∀ more, given.read (arguments ++ more) =
        if "--" ∈ arguments then later.readPositional more else later.read more := by
  fun_induction read given arguments with
  | case1 given => exact ⟨given, h, fun more => rfl⟩
  | case2 given argument arguments hargument =>
    -- the separator
    obtain ⟨later, hlater, hmore⟩ := readPositional_append h
    obtain rfl := Argument.ofString_eq_separator_iff.mp hargument
    refine ⟨later, hlater, fun more => ?_⟩
    rw [List.cons_append, read, hargument, if_pos List.mem_cons_self]
    exact hmore more
  | case3 given argument arguments text hargument next hanswer ih =>
    -- the expression
    obtain ⟨later, hlater, hmore⟩ := ih h
    have hne := Argument.ne_separator hargument (by simp)
    refine ⟨later, hlater, fun more => ?_⟩
    simp only [List.cons_append, read, hargument, hanswer, hmore, List.mem_cons, hne, false_or]
  | case5 given argument arguments setting value hargument next hset ih =>
    -- an option with its value
    obtain ⟨later, hlater, hmore⟩ := ih h
    have hne := Argument.ne_separator hargument (by simp)
    refine ⟨later, hlater, fun more => ?_⟩
    simp only [List.cons_append, read, hargument, hset, hmore, List.mem_cons, hne, false_or]
  | case9 given argument setting hargument value arguments hvalue next hset ih =>
    -- an option whose value, which is no separator, is the next argument
    obtain ⟨later, hlater, hmore⟩ := ih h
    have hne := Argument.ne_separator hargument (by simp)
    have hnv : "--" ≠ value := by
      rintro rfl
      exact hvalue rfl
    refine ⟨later, hlater, fun more => ?_⟩
    simp only [List.cons_append, read, hargument, hvalue, hset, hmore, List.mem_cons, hne, hnv,
      false_or, Bool.false_eq_true, if_false]
  | _ => cases h

/-- A round asked for without an expression may still be given one. -/
theorem answer?_of_request (h : given.request = .play supply none level) (text : String) :
    ∃ later, given.answer? text = some later ∧ later.request = .play supply (some text) level := by
  obtain ⟨digits, seed, threshold, expression⟩ := given
  cases digits <;> cases seed <;> simp only [request, Request.play.injEq, reduceCtorEq] at h
  all_goals
    obtain ⟨rfl, rfl, rfl⟩ := h
    exact ⟨_, rfl, rfl⟩

end Given

/-- The arguments with a text as the expression behind them. A text that starts with a hyphen has
to stand behind the separator. -/
def withExpression (arguments : List String) (text : String) : List String :=
  if text.toList.head? = some '-' ∧ "--" ∉ arguments then arguments ++ ["--", text]
  else arguments ++ [text]

theorem ofArguments_withExpression
    (h : Request.ofArguments arguments = .play supply none level) (text : String) :
    Request.ofArguments (withExpression arguments text) = .play supply (some text) level := by
  obtain ⟨later, hlater, hmore⟩ := Given.read_append h
  obtain ⟨last, hanswer, hlast⟩ := Given.answer?_of_request hlater text
  have hpositional : later.readPositional [text] = .play supply (some text) level := by
    simp only [Given.readPositional, hanswer, hlast]
  unfold withExpression Request.ofArguments
  by_cases hseparated : "--" ∈ arguments
  · rw [if_neg (fun hc => hc.2 hseparated), hmore, if_pos hseparated, hpositional]
  · by_cases hhyphen : text.toList.head? = some '-'
    · rw [if_pos ⟨hhyphen, hseparated⟩, hmore, if_neg hseparated]
      exact hpositional
    · rw [if_neg (fun hc => hhyphen hc.1), hmore, if_neg hseparated]
      simp only [Given.read, Argument.ofString_of_no_hyphen hhyphen, hanswer, hlast]

-- One separator is enough.
example : Request.ofArguments (withExpression ["-s", "7", "--"] "-8") =
    .play (.seeded 7) (some "-8") .warn := by decide

end Make24.CommandLine
