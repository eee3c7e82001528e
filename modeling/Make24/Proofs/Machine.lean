import Mathlib.Logic.Function.Iterate
import Make24.Proofs.Levels

namespace Make24

/-- A level that is being scanned: where it begins in the whole list of tokens, its own tokens, how
many of them are done with, and what waits for the others. -/
structure Frame (α : Type) where
  start : Nat
  level : List Lexeme
  cursor : Nat
  pending : Pending α

/-- An evaluation in progress: the hand, the steps so far, the innermost level, and the levels
around it, each of which waits behind the group that the one inside is to give the value of. -/
structure Machine (α : Type) where
  hand : Hand
  steps : List (Step α)
  frame : Frame α
  callers : List (Frame α)

/-- Where an evaluation is after some turns. -/
inductive Turn (α : Type) where
  | on (machine : Machine α)
  | ended (outcome : Outcome α α)

/-- The extent of the level inside of all others. -/
def Extent.inside : List (Frame α) → Extent
  | [] => .whole
  | _ :: _ => .group

/-- A group's value goes to the level around it. A fault ends all levels. -/
def Turn.give (outcome : Outcome α α) : List (Frame α) → Turn α
  | [] => .ended outcome
  | caller :: callers =>
    match outcome.result with
    | .ok value =>
      .on ⟨outcome.hand, outcome.steps, { caller with pending := caller.pending.addValue value },
        callers⟩
    | .error _ => .ended outcome

namespace Machine

def begin (hand : Hand) (tokens : List Lexeme) : Machine α :=
  ⟨hand, [], ⟨0, tokens, 0, .empty⟩, []⟩

/-- The loop of the innermost level turns once, or the level is settled. -/
def step (ar : Arithmetic α) (m : Machine α) : Turn α :=
  let ⟨start, level, cursor, pending⟩ := m.frame
  match level.drop cursor with
  | [] => .give ((settle ar (.inside m.callers) level pending m.hand).after m.steps) m.callers
  | l :: rest =>
    match nextMove m.hand pending.endsInValue l rest with
    | .refuse fault => .ended ((Outcome.failed fault m.hand).after m.steps)
    | .spend d =>
      let left := m.hand.erase d
      .on ⟨left, m.steps ++ [.consumed d left.digits],
        ⟨start, level, cursor + 1, pending.addValue (ar.ofDigit d)⟩, m.callers⟩
    | .combine op =>
      let added := pending.addOperator ar op
      .on ⟨m.hand, m.steps ++ added.2, ⟨start, level, cursor + 1, added.1⟩, m.callers⟩
    | .enter inside after =>
      .on ⟨m.hand, m.steps ++ [.entered l.position], ⟨start + cursor + 1, inside, 0, .empty⟩,
        ⟨start, level, level.length - after.length, pending⟩ :: m.callers⟩

end Machine

/-- The turn one step on. There is none behind the end. -/
def Turn.next (ar : Arithmetic α) : Turn α → Turn α
  | .on machine => machine.step ar
  | .ended outcome => .ended outcome

/-- Some steps lead from one turn to the other. -/
def Leads (ar : Arithmetic α) (first last : Turn α) : Prop :=
  ∃ n, (Turn.next ar)^[n] first = last

namespace Leads
variable {ar : Arithmetic α}

theorem refl (turn : Turn α) : Leads ar turn turn :=
  ⟨0, rfl⟩

theorem trans {first mid last : Turn α} (h : Leads ar first mid) (h' : Leads ar mid last) :
    Leads ar first last := by
  obtain ⟨n, rfl⟩ := h
  obtain ⟨k, rfl⟩ := h'
  exact ⟨k + n, Function.iterate_add_apply ..⟩

theorem of_step {m : Machine α} (h : m.step ar = turn) : Leads ar (.on m) turn :=
  ⟨1, h⟩

end Leads

section step
variable {ar : Arithmetic α} {hand : Hand} {steps : List (Step α)} {start cursor : Nat}
  {level : List Lexeme} {pending : Pending α} {callers : List (Frame α)}

theorem step_of_refuse (hd : level.drop cursor = l :: rest)
    (h : nextMove hand pending.endsInValue l rest = .refuse fault) :
    (⟨hand, steps, ⟨start, level, cursor, pending⟩, callers⟩ : Machine α).step ar =
      .ended ((Outcome.failed fault hand).after steps) := by
  simp only [Machine.step, hd, h]

theorem step_of_spend (hd : level.drop cursor = l :: rest)
    (h : nextMove hand pending.endsInValue l rest = .spend d) :
    (⟨hand, steps, ⟨start, level, cursor, pending⟩, callers⟩ : Machine α).step ar =
      .on ⟨hand.erase d, steps ++ [.consumed d (hand.erase d).digits],
        ⟨start, level, cursor + 1, pending.addValue (ar.ofDigit d)⟩, callers⟩ := by
  simp only [Machine.step, hd, h]

theorem step_of_combine (hd : level.drop cursor = l :: rest)
    (h : nextMove hand pending.endsInValue l rest = .combine op) :
    (⟨hand, steps, ⟨start, level, cursor, pending⟩, callers⟩ : Machine α).step ar =
      .on ⟨hand, steps ++ (pending.addOperator ar op).2,
        ⟨start, level, cursor + 1, (pending.addOperator ar op).1⟩, callers⟩ := by
  simp only [Machine.step, hd, h]

theorem step_of_enter (hd : level.drop cursor = l :: rest)
    (h : nextMove hand pending.endsInValue l rest = .enter inside after) :
    (⟨hand, steps, ⟨start, level, cursor, pending⟩, callers⟩ : Machine α).step ar =
      .on ⟨hand, steps ++ [.entered l.position], ⟨start + cursor + 1, inside, 0, .empty⟩,
        ⟨start, level, level.length - after.length, pending⟩ :: callers⟩ := by
  simp only [Machine.step, hd, h]

theorem step_of_settle (hd : level.drop cursor = []) :
    (⟨hand, steps, ⟨start, level, cursor, pending⟩, callers⟩ : Machine α).step ar =
      .give ((settle ar (.inside callers) level pending hand).after steps) callers := by
  simp only [Machine.step, hd]

theorem step_of_leave {caller : Frame α} (hd : level.drop cursor = [])
    (h : (settle ar .group level pending hand).result = .ok value) :
    (⟨hand, steps, ⟨start, level, cursor, pending⟩, caller :: callers⟩ : Machine α).step ar =
      .on ⟨hand, steps ++ (settle ar .group level pending hand).steps,
        { caller with pending := caller.pending.addValue value }, callers⟩ := by
  rw [step_of_settle hd]
  simp [Turn.give, Extent.inside, h]

end step

/-- What a step that does not end the evaluation does: the innermost level makes its move on the
next token, or it is done with and the one around it gets its value. -/
inductive Follows (ar : Arithmetic α) : Machine α → Machine α → Prop where
  | spend (ahead : level.drop cursor = l :: rest)
      (move : nextMove hand pending.endsInValue l rest = .spend d) :
      Follows ar ⟨hand, steps, ⟨start, level, cursor, pending⟩, callers⟩
        ⟨hand.erase d, steps ++ [.consumed d (hand.erase d).digits],
          ⟨start, level, cursor + 1, pending.addValue (ar.ofDigit d)⟩, callers⟩
  | combine (ahead : level.drop cursor = l :: rest)
      (move : nextMove hand pending.endsInValue l rest = .combine op) :
      Follows ar ⟨hand, steps, ⟨start, level, cursor, pending⟩, callers⟩
        ⟨hand, steps ++ (pending.addOperator ar op).2,
          ⟨start, level, cursor + 1, (pending.addOperator ar op).1⟩, callers⟩
  | enter (ahead : level.drop cursor = l :: rest)
      (move : nextMove hand pending.endsInValue l rest = .enter inside after) :
      Follows ar ⟨hand, steps, ⟨start, level, cursor, pending⟩, callers⟩
        ⟨hand, steps ++ [.entered l.position], ⟨start + cursor + 1, inside, 0, .empty⟩,
          ⟨start, level, level.length - after.length, pending⟩ :: callers⟩
  | leave (done : level.drop cursor = [])
      (given : (settle ar .group level pending hand).result = .ok value) :
      Follows ar ⟨hand, steps, ⟨start, level, cursor, pending⟩, caller :: callers⟩
        ⟨hand, steps ++ (settle ar .group level pending hand).steps,
          { caller with pending := caller.pending.addValue value }, callers⟩

/-- What a step that ends the evaluation does: it refuses the next token, or settles a level. -/
inductive Ends (ar : Arithmetic α) : Machine α → Outcome α α → Prop where
  | refuse (ahead : level.drop cursor = l :: rest)
      (move : nextMove hand pending.endsInValue l rest = .refuse fault) :
      Ends ar ⟨hand, steps, ⟨start, level, cursor, pending⟩, callers⟩
        ((Outcome.failed fault hand).after steps)
  | settle (done : level.drop cursor = []) :
      Ends ar ⟨hand, steps, ⟨start, level, cursor, pending⟩, callers⟩
        ((settle ar (.inside callers) level pending hand).after steps)

theorem follows_or_ends (ar : Arithmetic α) (m : Machine α) :
    (∃ m', m.step ar = .on m' ∧ Follows ar m m') ∨
      ∃ outcome, m.step ar = .ended outcome ∧ Ends ar m outcome := by
  obtain ⟨hand, steps, ⟨start, level, cursor, pending⟩, callers⟩ := m
  cases hd : level.drop cursor with
  | nil =>
    cases callers with
    | nil => exact .inr ⟨_, step_of_settle hd, .settle hd⟩
    | cons caller callers =>
      cases h : (settle ar .group level pending hand).result with
      | ok value => exact .inl ⟨_, step_of_leave hd h, .leave hd h⟩
      | error fault =>
        refine .inr ⟨_, ?_, .settle hd⟩
        rw [step_of_settle hd]
        simp only [Turn.give, Extent.inside, Outcome.result_after, h]
  | cons l rest =>
    cases hmove : nextMove hand pending.endsInValue l rest with
    | refuse fault => exact .inr ⟨_, step_of_refuse hd hmove, .refuse hd hmove⟩
    | spend d => exact .inl ⟨_, step_of_spend hd hmove, .spend hd hmove⟩
    | combine op => exact .inl ⟨_, step_of_combine hd hmove, .combine hd hmove⟩
    | enter inside after => exact .inl ⟨_, step_of_enter hd hmove, .enter hd hmove⟩

theorem follows_of_step {ar : Arithmetic α} {m m' : Machine α} (h : m.step ar = .on m') :
    Follows ar m m' := by
  rcases follows_or_ends ar m with ⟨next, hstep, hfollows⟩ | ⟨outcome, hstep, -⟩
  · rw [hstep] at h
    exact Turn.on.inj h ▸ hfollows
  · rw [hstep] at h
    cases h

theorem ends_of_step {ar : Arithmetic α} {m : Machine α} {outcome : Outcome α α}
    (h : m.step ar = .ended outcome) : Ends ar m outcome := by
  rcases follows_or_ends ar m with ⟨next, hstep, -⟩ | ⟨last, hstep, hends⟩
  · rw [hstep] at h
    cases h
  · rw [hstep] at h
    exact Turn.ended.inj h ▸ hends

theorem Outcome.after_andThen (first : Outcome α β) (next : β → Hand → Outcome α γ)
    (steps : List (Step α)) :
    (first.andThen next).after steps = (first.after steps).andThen next := by
  obtain ⟨_ | _, _, _⟩ := first
  · rfl
  · exact after_after ..

/-- From a turn on, the level comes to the end of a scan with the outcome. -/
inductive ScansTo (ar : Arithmetic α) (start : Nat) (level : List Lexeme)
    (callers : List (Frame α)) (turn : Turn α) (outcome : Outcome α (Pending α)) : Prop where
  | done (result : outcome.result = .ok pending) (all : level.drop cursor = [])
      (leads : Leads ar turn
        (.on ⟨outcome.hand, outcome.steps, ⟨start, level, cursor, pending⟩, callers⟩))
  | failed (result : outcome.result = .error fault)
      (leads : Leads ar turn (.ended ⟨.error fault, outcome.hand, outcome.steps⟩))

namespace ScansTo
variable {ar : Arithmetic α} {start : Nat} {level : List Lexeme} {callers : List (Frame α)}
  {turn : Turn α} {hand : Hand} {steps : List (Step α)}

theorem before {turn' : Turn α} {outcome : Outcome α (Pending α)} (h : Leads ar turn turn')
    (hscan : ScansTo ar start level callers turn' outcome) :
    ScansTo ar start level callers turn outcome := by
  cases hscan with
  | done result all leads => exact .done result all (h.trans leads)
  | failed result leads => exact .failed result (h.trans leads)

/-- A level is settled when it is scanned, and the one around it goes on with its value. -/
theorem settled (h : ScansTo ar start level callers turn
      ((scan ar hand .empty level).after steps)) :
    Leads ar turn
      (.give ((evaluateLevel ar hand (.inside callers) level).after steps) callers) := by
  rw [evaluateLevel, Outcome.after_andThen]
  cases h with
  | done result all leads =>
    rw [Outcome.andThen_of_ok result]
    exact leads.trans (.of_step (step_of_settle all))
  | failed result leads =>
    rw [Outcome.andThen_of_error result]
    cases callers with
    | nil => exact leads
    | cons caller callers => exact leads

end ScansTo

/-- A level goes on behind a group as if the group's value had been there. -/
theorem scansTo_of_give {ar : Arithmetic α} {outcome : Outcome α α} {pending : Pending α}
    {next : α → Hand → Outcome α (Pending α)}
    (h : ∀ value, ScansTo ar start level callers
      (.on ⟨outcome.hand, outcome.steps, ⟨start, level, cursor, pending.addValue value⟩, callers⟩)
      ((next value outcome.hand).after outcome.steps)) :
    ScansTo ar start level callers (.give outcome (⟨start, level, cursor, pending⟩ :: callers))
      (outcome.andThen next) := by
  obtain ⟨fault | value, _, _⟩ := outcome
  · exact .failed rfl (.refl _)
  · exact h value

theorem lt_length_of_drop {level : List Lexeme} (h : level.drop cursor = l :: rest) :
    cursor < level.length := by
  have hlength := congrArg List.length h
  simp only [List.length_drop, List.length_cons] at hlength
  omega

theorem getElem?_of_drop {level : List Lexeme} (h : level.drop cursor = l :: rest) :
    level[cursor]? = some l := by
  rw [← List.head?_drop, h, List.head?_cons]

theorem drop_succ_of_drop {level : List Lexeme} (h : level.drop cursor = l :: rest) :
    level.drop (cursor + 1) = rest := by
  rw [← List.tail_drop, h, List.tail_cons]

/-- Where a level goes on behind a group. -/
theorem length_sub_of_drop {level : List Lexeme}
    (h : level.drop cursor = l :: (inside ++ close :: after)) :
    level.length - after.length = cursor + (l :: (inside ++ [close])).length := by
  have hlength := congrArg List.length h
  simp only [List.length_drop, List.length_cons, List.length_append, List.length_nil] at hlength ⊢
  omega

theorem drop_length_sub_of_drop {level : List Lexeme}
    (h : level.drop cursor = l :: (inside ++ close :: after)) :
    level.drop (level.length - after.length) = after := by
  rw [length_sub_of_drop h, ← List.drop_drop, h]
  simp

/-- Step by step a level is scanned as it is at once. -/
theorem scansTo_scan (ar : Arithmetic α) (hand : Hand) (pending : Pending α) (tokens : List Lexeme)
    (steps : List (Step α)) (start : Nat) (level : List Lexeme) (cursor : Nat)
    (callers : List (Frame α)) (hd : level.drop cursor = tokens) :
    ScansTo ar start level callers (.on ⟨hand, steps, ⟨start, level, cursor, pending⟩, callers⟩)
      ((scan ar hand pending tokens).after steps) := by
  induction hand, pending, tokens using scan_induction ar
    generalizing steps start level cursor callers with
  | nil hand pending =>
    rw [scan_nil]
    refine .done rfl hd ?_
    simp only [Outcome.done, Outcome.after, List.append_nil]
    exact .refl _
  | refuse hand pending l rest fault hmove =>
    rw [scan_of_refuse ar hmove]
    exact .failed rfl (.of_step (step_of_refuse hd hmove))
  | spend hand pending l rest d hmove ih =>
    rw [scan_of_spend ar hmove, Outcome.after_after]
    exact .before (.of_step (step_of_spend hd hmove)) (ih _ _ _ _ _ (drop_succ_of_drop hd))
  | combine hand pending l rest op hmove ih =>
    rw [scan_of_combine ar hmove, Outcome.after_after]
    exact .before (.of_step (step_of_combine hd hmove)) (ih _ _ _ _ _ (drop_succ_of_drop hd))
  | enter hand pending l rest inside after hmove ih ihafter =>
    obtain ⟨close, -, rfl, -⟩ := eq_of_enter hmove
    rw [scan_of_enter ar hmove, Outcome.after_after, Outcome.after_andThen]
    refine .before (.of_step (step_of_enter hd hmove)) ?_
    refine .before (ScansTo.settled (ih _ _ _ _ _ rfl)) (scansTo_of_give ?_)
    exact fun value => ihafter value _ _ _ _ _ _ (drop_length_sub_of_drop hd)

/-- Where the evaluation of the tokens is after so many turns. -/
def run (ar : Arithmetic α) (hand : Hand) (tokens : List Lexeme) (n : Nat) : Turn α :=
  (Turn.next ar)^[n] (.on (.begin hand tokens))

section run
variable {ar : Arithmetic α} {hand : Hand} {tokens : List Lexeme}

theorem run_succ (n : Nat) : run ar hand tokens (n + 1) = (run ar hand tokens n).next ar :=
  Function.iterate_succ_apply' ..

/-- A turn behind the first comes from a step if the evaluation is not over. -/
theorem exists_step_of_run_succ {after : Machine α} (h : run ar hand tokens (n + 1) = .on after) :
    ∃ before, run ar hand tokens n = .on before ∧ before.step ar = .on after := by
  rw [run_succ] at h
  cases hr : run ar hand tokens n with
  | on before =>
    rw [hr] at h
    exact ⟨before, rfl, h⟩
  | ended outcome =>
    rw [hr] at h
    cases h

/-- What holds at the beginning and is kept by every step holds all along. -/
theorem keeps_of_run {motive : Machine α → Prop} (begins : motive (.begin hand tokens))
    (keeps : ∀ m m', Follows ar m m' → motive m → motive m') {m : Machine α}
    (h : run ar hand tokens n = .on m) : motive m := by
  induction n generalizing m with
  | zero => exact Turn.on.inj h ▸ begins
  | succ n ih =>
    obtain ⟨before, hbefore, hstep⟩ := exists_step_of_run_succ h
    exact keeps before m (follows_of_step hstep) (ih hbefore)

/-- A run that is over has ended in one of its steps. -/
theorem exists_last_step {outcome : Outcome α α} (h : run ar hand tokens n = .ended outcome) :
    ∃ k m, run ar hand tokens k = .on m ∧ m.step ar = .ended outcome := by
  induction n with
  | zero => cases h
  | succ n ih =>
    rw [run_succ] at h
    cases hr : run ar hand tokens n with
    | on m =>
      rw [hr] at h
      exact ⟨n, m, hr, h⟩
    | ended earlier =>
      rw [hr] at h
      exact ih (hr.trans h)

/-- Nothing happens behind the end. -/
theorem run_add_of_ended {outcome : Outcome α α} (h : run ar hand tokens n = .ended outcome)
    (k : Nat) : run ar hand tokens (n + k) = .ended outcome := by
  induction k with
  | zero => exact h
  | succ k ih => rw [← Nat.add_assoc, run_succ, ih]; rfl

/-- A run that is over has come to what the evaluation is at once. -/
theorem eq_of_run {outcome : Outcome α α} (h : run ar hand tokens n = .ended outcome) :
    outcome = evaluateLevel ar hand .whole tokens := by
  obtain ⟨k, hk⟩ := (scansTo_scan ar hand .empty tokens [] 0 tokens 0 [] rfl).settled
  have hlater := run_add_of_ended h k
  have hlater' := run_add_of_ended hk n
  rw [Nat.add_comm, hlater] at hlater'
  exact Turn.ended.inj hlater'

end run

end Make24
