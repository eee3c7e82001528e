import Make24.Proofs.Brackets
import Make24.Proofs.Moves

namespace Make24

namespace Outcome

theorem after_after (outcome : Outcome α β) (first more : List (Step α)) :
    (outcome.after more).after first = outcome.after (first ++ more) := by
  simp [after]

theorem result_andThen_eq_ok_iff {first : Outcome α β} {next : β → Hand → Outcome α γ} {value : γ} :
    (first.andThen next).result = .ok value ↔
      ∃ mid, first.result = .ok mid ∧ (next mid first.hand).result = .ok value := by
  cases hf : first.result with
  | ok mid => simp [andThen_of_ok hf]
  | error fault => simp [andThen_of_error hf]

end Outcome

section settle
variable {ar : Arithmetic α} {extent : Extent} {tokens : List Lexeme} {pending : Pending α}
  {hand : Hand}

@[simp] theorem hand_settle : (settle ar extent tokens pending hand).hand = hand := by
  unfold settle
  split
  · rfl
  · split
    · rfl
    · split <;> rfl

theorem result_settle_eq_ok_iff :
    (settle ar extent tokens pending hand).result = .ok value ↔
      tokens ≠ [] ∧ (extent = .whole → hand.isEmpty = true) ∧
        (pending.conclude ar).1 = some value := by
  unfold settle
  split
  · next hl => simp [List.getLast?_eq_none_iff.mp hl, Outcome.failed]
  · next last hl =>
    have hne : tokens ≠ [] := by
      rintro rfl
      cases hl
    split
    · next hw => simp [Outcome.failed, hw.1, hw.2]
    · next hw =>
      have he : extent = .whole → hand.isEmpty = true := by
        intro h
        simpa [h] using hw
      split
      · next v steps hc => simpa [hc, hne, Outcome.done] using fun _ => he
      · next steps hc => simp [hc, Outcome.failed]

theorem applies_of_mem_settle (h : step ∈ (settle ar extent tokens pending hand).steps) :
    step.Applies ar := by
  have hc (hm : step ∈ (pending.conclude ar).2) := Pending.applies_of_mem_conclude hm
  unfold settle at h
  split at h
  · cases h
  · split at h
    · cases h
    · split at h
      all_goals
        next he =>
          rw [he] at hc
          exact hc (by simpa [Outcome.done, Outcome.failed] using h)

end settle

theorem hand_evaluateLevel (ar : Arithmetic α) (hand : Hand) (extent : Extent)
    (tokens : List Lexeme) :
    (evaluateLevel ar hand extent tokens).hand = (scan ar hand .empty tokens).hand := by
  cases hs : (scan ar hand .empty tokens).result with
  | ok pending => rw [evaluateLevel, Outcome.andThen_of_ok hs, Outcome.hand_after, hand_settle]
  | error fault => rw [evaluateLevel, Outcome.andThen_of_error hs]

theorem result_evaluateLevel_eq_ok_iff {hand : Hand} {value : α} :
    (evaluateLevel ar hand extent tokens).result = .ok value ↔
      ∃ pending, (scan ar hand .empty tokens).result = .ok pending ∧ tokens ≠ [] ∧
        (extent = .whole → (scan ar hand .empty tokens).hand.isEmpty = true) ∧
        (pending.conclude ar).1 = some value := by
  simp only [evaluateLevel, Outcome.result_andThen_eq_ok_iff, result_settle_eq_ok_iff]

theorem scan_of_refuse {hand : Hand} {pending : Pending α} (ar : Arithmetic α)
    (h : nextMove hand pending.endsInValue l rest = .refuse fault) :
    scan ar hand pending (l :: rest) = .failed fault hand := by
  rw [scan_cons, h]

theorem scan_of_spend {hand : Hand} {pending : Pending α} (ar : Arithmetic α)
    (h : nextMove hand pending.endsInValue l rest = .spend d) :
    scan ar hand pending (l :: rest) =
      (scan ar (hand.erase d) (pending.addValue (ar.ofDigit d)) rest).after
        [.consumed d (hand.erase d).digits] := by
  rw [scan_cons, h]

theorem scan_of_combine {hand : Hand} {pending : Pending α} (ar : Arithmetic α)
    (h : nextMove hand pending.endsInValue l rest = .combine op) :
    scan ar hand pending (l :: rest) =
      (scan ar hand (pending.addOperator ar op).1 rest).after (pending.addOperator ar op).2 := by
  rw [scan_cons, h]

theorem scan_of_enter {hand : Hand} {pending : Pending α} (ar : Arithmetic α)
    (h : nextMove hand pending.endsInValue l rest = .enter inside after) :
    scan ar hand pending (l :: rest) =
      ((evaluateLevel ar hand .group inside).andThen
        fun value left => scan ar left (pending.addValue value) after).after
        [.entered l.position] := by
  rw [scan_cons, h]
  rfl

/-- A group gives one value to the level around it. -/
theorem result_scan_of_enter {hand : Hand} {pending q : Pending α} {ar : Arithmetic α}
    (h : nextMove hand pending.endsInValue l rest = .enter inside after) :
    (scan ar hand pending (l :: rest)).result = .ok q ↔
      ∃ value, (evaluateLevel ar hand .group inside).result = .ok value ∧
        (scan ar (evaluateLevel ar hand .group inside).hand (pending.addValue value) after).result =
          .ok q := by
  rw [scan_of_enter ar h, Outcome.result_after, Outcome.result_andThen_eq_ok_iff]

/-- What stands behind a group's opening bracket. -/
theorem eq_of_enter {hand : Hand} (h : nextMove hand afterValue l rest = .enter inside after) :
    ∃ close : Lexeme, close.token = .closing ∧ rest = inside ++ close :: after ∧
      depthAfter 0 inside = some 0 :=
  splitGroup?_eq_some_iff.mp (nextMove_eq_enter_iff.mp h).2.2

/-- Induction along a scan: over what stands inside a group, and over what stands behind it,
whatever value and hand the group may give. -/
@[elab_as_elim]
theorem scan_induction (ar : Arithmetic α) {motive : Hand → Pending α → List Lexeme → Prop}
    (nil : ∀ hand pending, motive hand pending [])
    (refuse : ∀ hand pending l rest fault,
      nextMove hand pending.endsInValue l rest = .refuse fault → motive hand pending (l :: rest))
    (spend : ∀ hand pending l rest d, nextMove hand pending.endsInValue l rest = .spend d →
      motive (hand.erase d) (pending.addValue (ar.ofDigit d)) rest →
      motive hand pending (l :: rest))
    (combine : ∀ hand pending l rest op, nextMove hand pending.endsInValue l rest = .combine op →
      motive hand (pending.addOperator ar op).1 rest → motive hand pending (l :: rest))
    (enter : ∀ hand pending l rest inside after,
      nextMove hand pending.endsInValue l rest = .enter inside after →
      motive hand .empty inside → (∀ value left, motive left (pending.addValue value) after) →
      motive hand pending (l :: rest))
    (hand : Hand) (pending : Pending α) (tokens : List Lexeme) : motive hand pending tokens :=
  scan.induct ar motive nil refuse spend combine enter hand pending tokens

/-- A scan that comes to an end has used up the digits it saw, all of which the hand held. -/
theorem spend_of_scan (ar : Arithmetic α) (hand : Hand) (pending : Pending α)
    (tokens : List Lexeme) {q : Pending α} (h : (scan ar hand pending tokens).result = .ok q) :
    (scan ar hand pending tokens).hand = hand.spend (digits tokens) ∧
      ∀ d, (digits tokens).count d ≤ hand.digits.count d := by
  induction hand, pending, tokens using scan_induction ar generalizing q with
  | nil hand pending => exact ⟨by rw [scan_nil]; rfl, by simp⟩
  | refuse hand pending l rest fault hmove =>
    rw [scan_of_refuse ar hmove] at h
    cases h
  | spend hand pending l rest d hmove ih =>
    rw [scan_of_spend ar hmove] at h ⊢
    obtain ⟨hl, hc, -, -⟩ := nextMove_eq_spend_iff.mp hmove
    obtain ⟨hhand, hcount⟩ := ih h
    rw [digits_cons_digit hl]
    refine ⟨hhand, ?_⟩
    intro e
    have he := hcount e
    have hpos := (hand.contains_iff d).mp hc
    simp only [Hand.erase, List.count_erase, List.count_cons, beq_iff_eq] at he ⊢
    by_cases hde : d = e
    · subst hde
      simp only [if_pos] at he ⊢
      omega
    · simpa [hde] using he
  | combine hand pending l rest op hmove ih =>
    rw [scan_of_combine ar hmove] at h ⊢
    obtain ⟨hl, -⟩ := nextMove_eq_combine_iff.mp hmove
    rw [digits_cons_of_ne (by simp [hl])]
    exact ih h
  | enter hand pending l rest inside after hmove ih ihafter =>
    obtain ⟨value, hv, hq⟩ := (result_scan_of_enter hmove).mp h
    obtain ⟨close, hc, rfl, -⟩ := eq_of_enter hmove
    obtain ⟨p, hp, -⟩ := result_evaluateLevel_eq_ok_iff.mp hv
    obtain ⟨hhand, hcount⟩ := ih hp
    obtain ⟨hhand', hcount'⟩ := ihafter value _ hq
    have hdigits : digits (l :: (inside ++ close :: after)) = digits inside ++ digits after := by
      rw [digits_cons_of_ne (by simp [(nextMove_eq_enter_iff.mp hmove).1]), digits_append,
        digits_cons_of_ne (by simp [hc])]
    rw [hand_evaluateLevel, hhand] at hhand' hcount'
    rw [hdigits]
    refine ⟨?_, ?_⟩
    · rw [scan_of_enter ar hmove, Outcome.andThen_of_ok hv, Outcome.hand_after, Outcome.hand_after,
        hand_evaluateLevel, hhand, hhand', Hand.spend_append]
    · intro d
      have h₁ := hcount d
      have h₂ := hcount' d
      rw [Hand.count_spend] at h₂
      rw [List.count_append]
      omega

/-- An accepted text leaves no digit. -/
theorem remaining_of_accepted {ar : Arithmetic α} {hand : Hand}
    (h : (evaluate ar hand text).result = .ok value) :
    (evaluate ar hand text).hand.digits = [] := by
  obtain ⟨pending, -, -, hempty, -⟩ := result_evaluateLevel_eq_ok_iff.mp h
  rw [evaluate, hand_evaluateLevel]
  exact List.isEmpty_iff.mp (hempty rfl)

end Make24
