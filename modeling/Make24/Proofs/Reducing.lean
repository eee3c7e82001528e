import Mathlib.Logic.Relation
import Make24.Proofs.Pending

namespace Make24.Pending

open Relation (ReflTransGen)

/-- Each operator binds tighter than all that came before it. The latest one is the first. -/
def Tightens (operators : List Operator) : Prop :=
  operators.Pairwise fun later earlier => earlier.precedence < later.precedence

/-- There are no more of them than precedences up to that of the latest. -/
theorem Tightens.length_le {op : Operator} {operators : List Operator}
    (h : Tightens (op :: operators)) : (op :: operators).length ≤ op.precedence := by
  induction operators generalizing op with
  | nil => cases op <;> decide
  | cons earlier operators ih =>
    obtain ⟨hlower, htail⟩ := List.pairwise_cons.mp h
    have hlt := hlower earlier List.mem_cons_self
    have hle := ih htail
    simp only [List.length_cons] at hle ⊢
    omega

theorem Tightens.length_le_two {operators : List Operator} (h : Tightens operators) :
    operators.length ≤ 2 := by
  cases operators with
  | nil => exact Nat.zero_le 2
  | cons op operators =>
    have htwo : op.precedence ≤ 2 := by cases op <;> decide
    exact Nat.le_trans h.length_le htwo

theorem Tightens.cons {op : Operator} {operators : List Operator} (h : Tightens operators)
    (htop : ∀ top, operators.head? = some top → top.precedence < op.precedence) :
    Tightens (op :: operators) := by
  refine List.pairwise_cons.mpr ⟨?_, h⟩
  intro earlier hearlier
  cases operators with
  | nil => cases hearlier
  | cons top operators =>
    have hlt := htop top rfl
    rcases List.mem_cons.mp hearlier with rfl | hearlier
    · exact hlt
    · exact Nat.lt_trans ((List.pairwise_cons.mp h).1 earlier hearlier) hlt

/-- One turn of the loop that applies operators: the latest one is due, and its reduction makes a
step. -/
inductive Reduces (ar : Arithmetic α) (due : Operator → Bool) : Pending α → Pending α → Prop where
  | turn (latest : before.operators.head? = some op) (isDue : due op = true)
      (made : before.reduce ar = (after, some step)) : Reduces ar due before after

/-- The loop comes nowhere where an operator is due but lacks an operand: each reduction that it
tries makes a step. -/
def NeverLacks (ar : Arithmetic α) (due : Operator → Bool) (pending : Pending α) : Prop :=
  ∀ reached, ReflTransGen (Reduces ar due) pending reached →
    ∀ top, reached.operators.head? = some top → due top = true →
      ∃ next step, reached.reduce ar = (next, some step)

section loop
variable {ar : Arithmetic α} {due : Operator → Bool} {before after pending : Pending α}

theorem Reduces.exists_eq (h : Reduces ar due before after) :
    ∃ op left right values operators, due op = true ∧
      before = ⟨right :: left :: values, op :: operators⟩ ∧
      after = ⟨ar.apply op left right :: values, operators⟩ := by
  obtain ⟨latest, isDue, made⟩ := h
  obtain ⟨waiting, earlier⟩ := before
  obtain ⟨operators, rfl⟩ := List.head?_eq_some_iff.mp latest
  obtain ⟨left, right, values, rfl, rfl, -⟩ := eq_of_reduce made
  exact ⟨_, left, right, values, operators, isDue, rfl, rfl⟩

/-- The loop turns as long as it can, if no operator lacks a value. -/
theorem reduces_applyWhile (ar : Arithmetic α) (due : Operator → Bool) (values : List α)
    (operators : List Operator) (h : operators.length < values.length) :
    ReflTransGen (Reduces ar due) ⟨values, operators⟩ (applyWhile ar due values operators).1 := by
  fun_induction applyWhile ar due values operators with
  | case1 values => exact .refl
  | case2 values op operators hdue reduced step hreduce further ih =>
    have hturn : Reduces ar due ⟨values, op :: operators⟩ reduced := .turn rfl hdue hreduce
    obtain ⟨left, right, rest, rfl, rfl, -⟩ := eq_of_reduce hreduce
    exact .head hturn (ih (by simpa using h))
  | case3 values op operators hdue reduced hreduce =>
    obtain ⟨hfew, -⟩ := eq_of_reduce_none hreduce
    simp only [List.length_cons] at h
    omega
  | case4 values op operators hwait => exact .refl

theorem not_reduces_applyWhile (values : List α) (operators : List Operator) (next : Pending α) :
    ¬ Reduces ar due (applyWhile ar due values operators).1 next := by
  intro h
  fun_induction applyWhile ar due values operators with
  | case1 values =>
    obtain ⟨op, left, right, rest, earlier, -, hnone, -⟩ := h.exists_eq
    cases hnone
  | case2 values op operators hdue reduced step hreduce further ih => exact ih h
  | case3 values op operators hdue reduced hreduce =>
    obtain ⟨-, rfl⟩ := eq_of_reduce_none hreduce
    obtain ⟨op, left, right, rest, earlier, -, hnone, -⟩ := h.exists_eq
    cases hnone
  | case4 values op operators hwait =>
    obtain ⟨op, left, right, rest, earlier, hdue, hsame, -⟩ := h.exists_eq
    cases hsame
    exact hwait hdue

theorem reduces_reduced (ha : pending.Alternates true) (ar : Arithmetic α) (level : Nat) :
    ReflTransGen (Reduces ar fun op => level ≤ op.precedence) pending
      (pending.reduced ar level).1 :=
  reduces_applyWhile ar _ _ _ ha.length_lt

theorem Alternates.of_reduces (h : ReflTransGen (Reduces ar due) before after)
    (ha : before.Alternates afterValue) : after.Alternates afterValue := by
  induction h with
  | refl => exact ha
  | tail _ hturn ih =>
    obtain ⟨op, left, right, values, operators, -, rfl, rfl⟩ := hturn.exists_eq
    simp only [Alternates, List.length_cons] at ih ⊢
    omega

theorem values_ne_nil_of_reduces (h : ReflTransGen (Reduces ar due) before after)
    (hne : before.values ≠ []) : after.values ≠ [] := by
  induction h with
  | refl => exact hne
  | tail _ hturn ih =>
    obtain ⟨op, left, right, values, operators, -, rfl, rfl⟩ := hturn.exists_eq
    exact List.cons_ne_nil _ _

theorem operators_suffix_of_reduces (h : ReflTransGen (Reduces ar due) before after) :
    after.operators <:+ before.operators := by
  induction h with
  | refl => exact List.suffix_rfl
  | tail _ hturn ih =>
    obtain ⟨op, left, right, values, operators, -, rfl, rfl⟩ := hturn.exists_eq
    exact (List.suffix_cons _ _).trans ih

/-- Behind a value there are operands for every operator. -/
theorem Alternates.neverLacks (ha : pending.Alternates true) (ar : Arithmetic α)
    (due : Operator → Bool) : pending.NeverLacks ar due := by
  intro reached hreached top htop hdue
  have hlength := ha.of_reduces hreached
  obtain ⟨values, operators⟩ := reached
  obtain ⟨earlier, rfl⟩ := List.head?_eq_some_iff.mp htop
  match values, hlength with
  | right :: left :: values, _ => exact ⟨_, _, rfl⟩
  | [_], hlength => simp [Alternates] at hlength
  | [], hlength => simp [Alternates] at hlength

/-- Behind a value, the loop ends where no operator is due. -/
theorem Alternates.lower_of_reduced (ha : pending.Alternates true) (ar : Arithmetic α)
    (htop : (pending.reduced ar level).1.operators.head? = some top) :
    top.precedence < level := by
  apply Nat.not_le.mp
  intro hdue
  have hdue : decide (level ≤ top.precedence) = true := decide_eq_true hdue
  obtain ⟨next, step, hmade⟩ := ha.neverLacks ar _ _ (reduces_reduced ha ar level) top htop hdue
  exact not_reduces_applyWhile _ _ next (.turn htop hdue hmade)

theorem Tightens.addOperator (h : Tightens pending.operators) (ha : pending.Alternates true)
    (ar : Arithmetic α) (op : Operator) : Tightens (pending.addOperator ar op).1.operators := by
  have hsuffix := operators_suffix_of_reduces (reduces_reduced ha ar op.precedence)
  have hleft : Tightens (pending.reduced ar op.precedence).1.operators :=
    h.sublist hsuffix.sublist
  exact hleft.cons fun top htop => ha.lower_of_reduced ar htop

end loop

end Make24.Pending
