import Make24.Round

namespace Make24

theorem value_start {deal : Deal} (h : ∀ d ∈ deal.toList, isPlayable d = true) :
    (Round.start deal).value = .ok ⟨deal, ⟨deal.toList⟩⟩ := by
  have hhand : Hand.ofDigits deal.toList = .ok ⟨deal.toList⟩ := Hand.ofDigits_eq_ok_iff.mpr ⟨rfl, h⟩
  simp only [Round.start, Hand.create, hhand]
  rfl

/-- A round that starts has playable digits, and holds them in its hand. -/
theorem eq_of_start {deal : Deal} {round : Round} (h : (Round.start deal).value = .ok round) :
    (∀ d ∈ deal.toList, isPlayable d = true) ∧ round = ⟨deal, ⟨deal.toList⟩⟩ := by
  cases hhand : Hand.ofDigits deal.toList with
  | error cause =>
    simp only [Round.start, Hand.create, hhand] at h
    cases h
  | ok hand =>
    obtain ⟨-, hplayable⟩ := Hand.ofDigits_eq_ok_iff.mp hhand
    exact ⟨hplayable, (Except.ok.inj ((value_start hplayable).symm.trans h)).symm⟩

theorem Round.value_draw (source : Random.Source) :
    (draw source).value = ((start source.deal.1).value, source.deal.2) := rfl

theorem value_solve (hand : Hand) (text : String) :
    (hand.solve text).value = evaluate .float hand text := by
  unfold Hand.solve
  simp only [Log.Logged.value_bind]
  split <;> rfl

theorem value_judge (round : Round) (answer : String) :
    (round.judge answer).value = Verdict.ofResult (evaluate .float round.hand answer).result := by
  unfold Round.judge
  simp only [Log.Logged.value_bind, value_solve]
  split <;> rfl

theorem value_solveDealt {digits : List Nat} (h : ∀ d ∈ digits, isPlayable d = true)
    (text : String) :
    (solveDealt digits text).value =
      (evaluate .float ⟨digits⟩ text).result.mapError .expression := by
  have hhand : Hand.ofDigits digits = .ok ⟨digits⟩ := Hand.ofDigits_eq_ok_iff.mpr ⟨rfl, h⟩
  simp only [solveDealt, Hand.create, hhand, Log.Logged.value_bind, Log.Logged.value_pure,
    value_solve]

theorem Hand.value_remove (hand : Hand) (digit : Nat) :
    (hand.remove digit).value = hand.remove? digit := by
  unfold remove
  split
  all_goals
    next hr =>
      rw [hr]
      rfl

theorem Hand.value_create (digits : List Nat) : (create digits).value = ofDigits digits := by
  unfold create
  split
  all_goals
    next hh =>
      rw [hh]
      rfl

end Make24
