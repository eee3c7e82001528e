import Make24.Proofs.Acceptance
import Make24.Proofs.Values

namespace Make24

/-- The digits that some steps take out of the hand, in order. -/
def taken (steps : List (Step α)) : List Nat :=
  steps.filterMap fun
    | .consumed digit _ => some digit
    | _ => none

@[simp] theorem taken_append (first more : List (Step α)) :
    taken (first ++ more) = taken first ++ taken more :=
  List.filterMap_append

theorem taken_of_applies {ar : Arithmetic α} {steps : List (Step α)}
    (h : ∀ step ∈ steps, step.Applies ar) : taken steps = [] := by
  apply List.filterMap_eq_nil_iff.mpr
  intro step hs
  obtain ⟨left, op, right, rfl⟩ := h step hs
  rfl

namespace Outcome

/-- An outcome leaves `start` without the digits that its steps took. -/
def Accounts (start : Hand) (outcome : Outcome α β) : Prop :=
  start.Leaves (taken outcome.steps) outcome.hand

theorem Accounts.after {start mid : Hand} {outcome : Outcome α β} {first : List (Step α)}
    (h : outcome.Accounts mid) (hs : start.Leaves (taken first) mid) :
    (outcome.after first).Accounts start := by
  rw [Accounts, steps_after, taken_append]
  exact hs.trans h

theorem Accounts.andThen {start : Hand} {first : Outcome α β} (h : first.Accounts start)
    {next : β → Hand → Outcome α γ}
    (hn : ∀ value, first.result = .ok value → (next value first.hand).Accounts first.hand) :
    (first.andThen next).Accounts start := by
  cases hr : first.result with
  | ok value =>
    rw [andThen_of_ok hr]
    exact (hn value hr).after h
  | error fault =>
    rw [andThen_of_error hr]
    exact h

theorem accounts_settle (ar : Arithmetic α) (extent : Extent) (tokens : List Lexeme)
    (pending : Pending α) (hand : Hand) : (settle ar extent tokens pending hand).Accounts hand := by
  rw [Accounts, taken_of_applies fun _ => applies_of_mem_settle, hand_settle]
  exact hand.leaves_self

/-- Every move accounts for what it takes, and so does a scan, whatever comes to a fault. -/
theorem accounts_scan (ar : Arithmetic α) (hand : Hand) (pending : Pending α)
    (tokens : List Lexeme) : (scan ar hand pending tokens).Accounts hand := by
  induction hand, pending, tokens using scan_induction ar with
  | nil hand pending =>
    rw [scan_nil]
    exact hand.leaves_self
  | refuse hand pending l rest fault hmove =>
    rw [scan_of_refuse ar hmove]
    exact hand.leaves_self
  | spend hand pending l rest d hmove ih =>
    rw [scan_of_spend ar hmove]
    exact ih.after (Hand.leaves_erase (nextMove_eq_spend_iff.mp hmove).2.1)
  | combine hand pending l rest op hmove ih =>
    rw [scan_of_combine ar hmove]
    apply ih.after
    rw [Pending.addOperator, taken_of_applies fun _ => Pending.applies_of_mem_applyWhile]
    exact hand.leaves_self
  | enter hand pending l rest inside behind hmove ih ihbehind =>
    rw [scan_of_enter ar hmove]
    have hgroup : (evaluateLevel ar hand .group inside).Accounts hand :=
      ih.andThen fun value _ => accounts_settle ar .group inside value _
    exact (hgroup.andThen fun value _ => ihbehind value _).after hand.leaves_self

theorem accounts_evaluate (ar : Arithmetic α) (hand : Hand) (text : String) :
    (evaluate ar hand text).Accounts hand :=
  (accounts_scan ar hand .empty _).andThen fun value _ => accounts_settle ar .whole _ value _

end Outcome

/-- One use of a hand. -/
inductive Use where
  | contains (digit : Nat)
  | remove (digit : Nat)
  | evaluate (text : String)
  deriving DecidableEq, Repr

/-- What a use answers. -/
inductive Answer where
  | found (present : Bool)
  | removed (present : Bool)
  | evaluated (result : Except Fault Float)

def Answer.isAccepted : Answer → Bool
  | .evaluated (.ok _) => true
  | _ => false

/-- What a use answers, the digits that it takes, and the hand that it leaves. -/
structure Used where
  answer : Answer
  taken : List Nat
  hand : Hand

/-- A digit is taken if a removal finds it, or when an evaluation has checked it. -/
def Use.on (hand : Hand) : Use → Used
  | .contains digit => ⟨.found (hand.contains digit), [], hand⟩
  | .remove digit =>
    match (hand.remove digit).value with
    | some left => ⟨.removed true, [digit], left⟩
    | none => ⟨.removed false, [], hand⟩
  | .evaluate text =>
    let outcome := (hand.solve text).value
    ⟨.evaluated outcome.result, Make24.taken outcome.steps, outcome.hand⟩

namespace Hand

/-- The hand that some uses leave, each on what the one before left. -/
def after (hand : Hand) (uses : List Use) : Hand :=
  uses.foldl (fun hand use => (use.on hand).hand) hand

/-- The digits that some uses take, in order. -/
def takenBy (hand : Hand) : List Use → List Nat
  | [] => []
  | use :: uses => (use.on hand).taken ++ (use.on hand).hand.takenBy uses

def answers (hand : Hand) : List Use → List Answer
  | [] => []
  | use :: uses => (use.on hand).answer :: (use.on hand).hand.answers uses

theorem after_append (hand : Hand) (uses more : List Use) :
    hand.after (uses ++ more) = (hand.after uses).after more :=
  List.foldl_append

end Hand

theorem Use.leaves_on (hand : Hand) (use : Use) :
    hand.Leaves (use.on hand).taken (use.on hand).hand := by
  cases use with
  | contains digit => exact hand.leaves_self
  | remove digit =>
    simp only [on, Hand.value_remove, Hand.remove?]
    by_cases hc : hand.contains digit = true
    · rw [if_pos hc]
      exact Hand.leaves_erase hc
    · rw [if_neg hc]
      exact hand.leaves_self
  | evaluate text =>
    simp only [on, value_solve]
    exact Outcome.accounts_evaluate .float hand text

theorem Hand.leaves_after (hand : Hand) (uses : List Use) :
    hand.Leaves (hand.takenBy uses) (hand.after uses) := by
  induction uses generalizing hand with
  | nil => exact hand.leaves_self
  | cons use uses ih => exact (use.leaves_on hand).trans (ih _)

/-- No expression goes without digits. -/
theorem not_accepted_of_empty (ar : Arithmetic α) {hand : Hand} (he : hand.digits = [])
    (text : String) : ∃ fault, (evaluate ar hand text).result = .error fault := by
  cases hr : (evaluate ar hand text).result with
  | error fault => exact ⟨fault, rfl⟩
  | ok value =>
    obtain ⟨hs, hp⟩ := sentence_of_evaluate hr
    obtain ⟨t, ht⟩ := hs.exists_spells
    have hpos := t.length_leaves_pos
    rw [← ht.written_eq, hp.length_eq, he] at hpos
    cases hpos

theorem Use.empty_of_accepted {hand : Hand} {use : Use}
    (h : (use.on hand).answer.isAccepted = true) : (use.on hand).hand.digits = [] := by
  cases use with
  | contains digit => cases h
  | remove digit =>
    simp only [on] at h
    split at h <;> cases h
  | evaluate text =>
    simp only [on, value_solve] at h ⊢
    cases hr : (Make24.evaluate .float hand text).result with
    | ok value => exact remaining_of_accepted hr
    | error fault =>
      rw [hr] at h
      cases h

theorem Use.not_accepted_of_empty {hand : Hand} (he : hand.digits = []) (use : Use) :
    (use.on hand).answer.isAccepted = false := by
  cases use with
  | contains digit => rfl
  | remove digit =>
    simp only [on]
    split <;> rfl
  | evaluate text =>
    obtain ⟨fault, hf⟩ := Make24.not_accepted_of_empty .float he text
    simp only [on, value_solve, hf]
    rfl

theorem Hand.countP_accepted_of_empty {hand : Hand} (he : hand.digits = []) (uses : List Use) :
    (hand.answers uses).countP Answer.isAccepted = 0 := by
  induction uses generalizing hand with
  | nil => rfl
  | cons use uses ih =>
    rw [answers, List.countP_cons_of_neg (by simp [use.not_accepted_of_empty he])]
    exact ih ((use.leaves_on hand).of_empty he)

/-- Behind an accepted expression no digit is left for another. -/
theorem Hand.countP_accepted_le (hand : Hand) (uses : List Use) :
    (hand.answers uses).countP Answer.isAccepted ≤ 1 := by
  induction uses generalizing hand with
  | nil => exact Nat.zero_le 1
  | cons use uses ih =>
    rw [answers]
    by_cases ha : (use.on hand).answer.isAccepted = true
    · rw [List.countP_cons_of_pos ha, countP_accepted_of_empty (Use.empty_of_accepted ha)]
    · rw [List.countP_cons_of_neg ha]
      exact ih _

theorem Use.on_contains (hand : Hand) (d : Nat) :
    ((contains d).on hand).answer = .found (decide (0 < hand.digits.count d)) := by
  rw [on, Bool.eq_iff_iff.mpr ((hand.contains_iff d).trans decide_eq_true_iff.symm)]

theorem Use.on_remove (hand : Hand) (d : Nat) :
    ((remove d).on hand).answer = .removed (decide (0 < hand.digits.count d)) ∧
      (((remove d).on hand).answer = .removed false → ((remove d).on hand).hand = hand) := by
  simp only [on, Hand.value_remove, Hand.remove?]
  by_cases hc : hand.contains d = true
  · rw [if_pos hc, decide_eq_true ((hand.contains_iff d).mp hc)]
    exact ⟨rfl, fun h => by cases h⟩
  · rw [if_neg hc, decide_eq_false (fun hpos => hc ((hand.contains_iff d).mpr hpos))]
    exact ⟨rfl, fun _ => rfl⟩

/-- However a hand is used, it is the hand dealt without the digits taken. Which ones are left, and
in which order, depends only on how often each digit was taken, and that is never more often than it
was dealt. A digit is found, and can be removed, as long as some of it is left. At most one
expression is accepted, and no digit is left behind it. -/
theorem after_uses_of_create {dealt : List Nat} {hand : Hand}
    (h : (Hand.create dealt).value = .ok hand) (uses : List Use) :
    let now := hand.after uses
    now = (⟨dealt⟩ : Hand).spend (hand.takenBy uses) ∧
      (∀ others, (hand.takenBy others).Perm (hand.takenBy uses) → hand.after others = now) ∧
      (∀ d, now.digits.count d + (hand.takenBy uses).count d = dealt.count d ∧
        ((Use.contains d).on now).answer = .found (decide (0 < now.digits.count d)) ∧
        ((Use.remove d).on now).answer = .removed (decide (0 < now.digits.count d)) ∧
        (((Use.remove d).on now).answer = .removed false → ((Use.remove d).on now).hand = now)) ∧
      (∀ d ∈ now.digits, isPlayable d = true) ∧
      (hand.answers uses).countP Answer.isAccepted ≤ 1 ∧
      ∀ text value, ((Use.evaluate text).on now).answer = .evaluated (.ok value) → ∀ more,
        (hand.after (uses ++ .evaluate text :: more)).digits = [] ∧
          ∀ text', ∃ fault, ((Use.evaluate text').on
            (hand.after (uses ++ .evaluate text :: more))).answer = .evaluated (.error fault) := by
  intro now
  rw [Hand.value_create, Hand.ofDigits_eq_ok_iff] at h
  obtain ⟨rfl, hp⟩ := h
  have hleaves : hand.Leaves (hand.takenBy uses) now := hand.leaves_after uses
  refine ⟨hleaves.eq, ?_,
    fun d => ⟨hleaves.count_add d, Use.on_contains now d, Use.on_remove now d⟩,
    hleaves.playable hp, hand.countP_accepted_le uses, ?_⟩
  · intro others hperm
    rw [(hand.leaves_after others).eq, hand.spend_perm hperm]
    exact hleaves.eq.symm
  · intro text value hok more
    have hempty : (hand.after (uses ++ .evaluate text :: more)).digits = [] := by
      rw [Hand.after_append]
      have hfirst : ((Use.evaluate text).on now).hand.digits = [] :=
        Use.empty_of_accepted (by rw [hok]; rfl)
      exact (Hand.leaves_after _ more).of_empty hfirst
    refine ⟨hempty, fun text' => ?_⟩
    obtain ⟨fault, hf⟩ := not_accepted_of_empty .float hempty text'
    exact ⟨fault, by simp only [Use.on, value_solve, hf]⟩

/-- Two ways to take an eight and one of two fours. -/
theorem after_uses_of_create_pair :
    (Hand.create [4, 8, 4]).value = .ok ⟨[4, 8, 4]⟩ ∧
      (⟨[4, 8, 4]⟩ : Hand).after [.remove 8, .contains 9, .remove 4] =
        (⟨[4, 8, 4]⟩ : Hand).after [.remove 4, .remove 7, .remove 8] :=
  have h : (Hand.create [4, 8, 4]).value = .ok ⟨[4, 8, 4]⟩ := rfl
  ⟨h, (after_uses_of_create h [.remove 4, .remove 7, .remove 8]).2.1
    [.remove 8, .contains 9, .remove 4] (by decide)⟩

end Make24
