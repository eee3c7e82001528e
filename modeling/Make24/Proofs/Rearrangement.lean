import Make24.Proofs.Acceptance
import Make24.Proofs.Remainder
import Make24.Proofs.Values

namespace Make24

/-- The same fault, but for the order of digits that are left unused. -/
inductive Fault.Alike : Fault → Fault → Prop where
  | same (fault : Fault) : Alike fault fault
  | unused (perm : remaining.Perm remaining') :
      Alike (.unusedDigits remaining) (.unusedDigits remaining')

/-- Two evaluations that come to the same, but for the order of the digits they leave. -/
structure Outcome.Alike (first second : Outcome α β) : Prop where
  value : ∀ value, first.result = .ok value ↔ second.result = .ok value
  fault : ∀ fault, first.result = .error fault →
    ∃ fault', second.result = .error fault' ∧ fault.Alike fault'
  hand : first.hand.digits.Perm second.hand.digits

section perm
variable {hand other : Hand}

/-- A token is looked up by how often its digit is there, not by where. -/
theorem tokenFault_of_perm (h : hand.digits.Perm other.digits) (before : List Lexeme) (l : Lexeme)
    (rest : List Lexeme) : tokenFault hand before l rest = tokenFault other before l rest := by
  simp only [tokenFault, h.count_eq]

theorem firstTokenFault_of_perm (h : hand.digits.Perm other.digits)
    (before tokens after : List Lexeme) :
    firstTokenFault hand before tokens after = firstTokenFault other before tokens after := by
  induction tokens generalizing before with
  | nil => rfl
  | cons l rest ih => rw [firstTokenFault, firstTokenFault, tokenFault_of_perm h, ih]

theorem faultless_of_perm (h : hand.digits.Perm other.digits) (before tokens after : List Lexeme) :
    faultless hand before tokens after = faultless other before tokens after := by
  induction tokens generalizing before with
  | nil => rfl
  | cons l rest ih => rw [faultless, faultless, tokenFault_of_perm h, ih]

theorem Hand.perm_spend (h : hand.digits.Perm other.digits) (ds : List Nat) :
    (hand.spend ds).digits.Perm (other.spend ds).digits := by
  induction ds generalizing hand other with
  | nil => exact h
  | cons d ds ih => exact ih (h.erase d)

theorem levelFault_of_perm (h : hand.digits.Perm other.digits)
    (hf : levelFault extent hand tokens = some fault) :
    ∃ fault', levelFault extent other tokens = some fault' ∧ fault.Alike fault' := by
  have hempty : hand.digits = [] ↔ other.digits = [] := by
    rw [← List.length_eq_zero_iff, h.length_eq, List.length_eq_zero_iff]
  unfold levelFault at hf ⊢
  simp only [ne_eq, hempty] at hf ⊢
  by_cases hnil : tokens = []
  · rw [if_pos hnil] at hf ⊢
    exact ⟨fault, hf, .same fault⟩
  rw [if_neg hnil] at hf ⊢
  by_cases hleft : extent = .whole ∧ ¬other.digits = []
  · rw [if_pos hleft] at hf ⊢
    obtain rfl := Option.some.inj hf
    exact ⟨.unusedDigits other.digits, rfl, .unused h⟩
  · rw [if_neg hleft] at hf ⊢
    exact ⟨fault, hf, .same fault⟩

theorem fault?_evaluate_of_perm {ar : Arithmetic α} (h : hand.digits.Perm other.digits)
    (hf : (evaluate ar hand text).fault? = some fault) :
    ∃ fault', (evaluate ar other text).fault? = some fault' ∧ fault.Alike fault' := by
  rw [fault?_evaluate, firstFault, firstTokenFault_of_perm h] at hf
  rw [fault?_evaluate, firstFault]
  cases hpass : firstTokenFault other [] (lexemes text) [] with
  | some first =>
    rw [hpass] at hf
    exact ⟨fault, hf, .same fault⟩
  | none =>
    rw [hpass, Option.none_or] at hf
    exact levelFault_of_perm (Hand.perm_spend h _) hf

/-- A text is evaluated alike over the same digits in any order. -/
theorem alike_evaluate (ar : Arithmetic α) (h : hand.digits.Perm other.digits) (text : String) :
    (evaluate ar hand text).Alike (evaluate ar other text) := by
  refine ⟨fun value => ?_, fun fault hf => ?_, ?_⟩
  · simp only [evaluate_eq_ok_iff, h.congr_right]
  · obtain ⟨fault', hf', halike⟩ :=
      fault?_evaluate_of_perm h (Outcome.fault?_eq_some_iff.mpr hf)
    exact ⟨fault', Outcome.fault?_eq_some_iff.mp hf', halike⟩
  · rw [hand_evaluate, hand_evaluate, faultless_of_perm h]
    exact Hand.perm_spend h _

end perm

/-- What a player is told of an answer does not depend on the order of digits left unused. -/
theorem Outcome.Alike.message_eq {first second : Outcome Float Float} (h : first.Alike second) :
    (Verdict.ofResult first.result).message = (Verdict.ofResult second.result).message ∧
      (Verdict.ofResult first.result).isCorrect = (Verdict.ofResult second.result).isCorrect := by
  cases hr : first.result with
  | ok value =>
    rw [(h.value value).mp hr]
    exact ⟨rfl, rfl⟩
  | error fault =>
    obtain ⟨fault', hr', -⟩ := h.fault fault hr
    rw [hr']
    exact ⟨rfl, rfl⟩

/-- The order in which digits are dealt does not matter. A text comes to the same value or to the
same fault, in the same place, and the digits left are the same. So answers to two rounds of the
same digits are judged alike. -/
theorem evaluate_of_perm (ar : Arithmetic α) :
    (∀ {hand other : Hand}, hand.digits.Perm other.digits → ∀ text,
      (evaluate ar hand text).Alike (evaluate ar other text)) ∧
    ∀ {deal deal' : Deal} {round round' : Round},
      (Round.start deal).value = .ok round → (Round.start deal').value = .ok round' →
        deal.toList.Perm deal'.toList → ∀ answer,
          (round.judge answer).value.message = (round'.judge answer).value.message ∧
            (round.judge answer).value.isCorrect = (round'.judge answer).value.isCorrect := by
  refine ⟨fun h text => alike_evaluate ar h text, ?_⟩
  intro deal deal' round round' hstart hstart' hperm answer
  obtain ⟨-, rfl⟩ := eq_of_start hstart
  obtain ⟨-, rfl⟩ := eq_of_start hstart'
  rw [value_judge, value_judge]
  exact (alike_evaluate .float hperm answer).message_eq

/-- Of the digits left unused, one comes first in the one order and last in the other. -/
theorem evaluate_of_perm_unused :
    (#v[1, 2, 2, 3] : Deal).toList.Perm (#v[3, 2, 1, 2] : Deal).toList ∧
      (evaluate .float ⟨[1, 2, 2, 3]⟩ "2*2").result = .error (.unusedDigits [1, 3]) ∧
      (∃ fault, (evaluate .float ⟨[3, 2, 1, 2]⟩ "2*2").result = .error fault ∧
        (Fault.unusedDigits [1, 3]).Alike fault) ∧
      ∃ round round', (Round.start #v[1, 2, 2, 3]).value = .ok round ∧
        (Round.start #v[3, 2, 1, 2]).value = .ok round' ∧
        (round.judge "2*2").value.message = (round'.judge "2*2").value.message := by
  have hperm : (#v[1, 2, 2, 3] : Deal).toList.Perm (#v[3, 2, 1, 2] : Deal).toList := by decide
  have hfault : (evaluate .float ⟨[1, 2, 2, 3]⟩ "2*2").fault? = some (.unusedDigits [1, 3]) := by
    rw [fault?_evaluate]
    decide
  rw [Outcome.fault?_eq_some_iff] at hfault
  have hstart : (Round.start #v[1, 2, 2, 3]).value = .ok ⟨#v[1, 2, 2, 3], ⟨[1, 2, 2, 3]⟩⟩ :=
    value_start (by decide)
  have hstart' : (Round.start #v[3, 2, 1, 2]).value = .ok ⟨#v[3, 2, 1, 2], ⟨[3, 2, 1, 2]⟩⟩ :=
    value_start (by decide)
  obtain ⟨heval, hjudge⟩ := evaluate_of_perm .float
  exact ⟨hperm, hfault, (heval hperm "2*2").fault _ hfault, _, _, hstart, hstart',
    (hjudge hstart hstart' hperm "2*2").1⟩

end Make24
