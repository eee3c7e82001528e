import Make24.Expression.Pending

namespace Make24

/-- The step applies an operator to two values. -/
def Step.Applies (ar : Arithmetic α) (step : Step α) : Prop :=
  ∃ left op right, step = .applied left op right (ar.apply op left right)

namespace Pending

/-- Applies, from the latest on, the operators that bind at least as tightly as `level`. -/
def reduced (ar : Arithmetic α) (pending : Pending α) (level : Nat) : Pending α × List (Step α) :=
  applyWhile ar (fun op => level ≤ op.precedence) pending.values pending.operators

section reduce
variable {ar : Arithmetic α} {values : List α} {operators : List Operator}

/-- A reduction that makes a step applies the operator to its two values. -/
theorem eq_of_reduce (h : reduce ar ⟨values, op :: operators⟩ = (next, some step)) :
    ∃ left right rest, values = right :: left :: rest ∧
      next = ⟨ar.apply op left right :: rest, operators⟩ ∧
      step = .applied left op right (ar.apply op left right) := by
  match values, h with
  | right :: left :: rest, h =>
    cases h
    exact ⟨left, right, rest, rfl, rfl, rfl⟩

/-- A reduction that makes none leaves no value. -/
theorem eq_of_reduce_none (h : reduce ar ⟨values, op :: operators⟩ = (next, none)) :
    values.length ≤ 1 ∧ next = ⟨[], operators⟩ := by
  match values, h with
  | [], h =>
    cases h
    exact ⟨Nat.zero_le 1, rfl⟩
  | [value], h =>
    cases h
    exact ⟨Nat.le_refl 1, rfl⟩

end reduce

theorem applyWhile_of_head {ar : Arithmetic α} {due : Operator → Bool} {operators : List Operator}
    (h : ∀ op ∈ operators.head?, due op = false) (values : List α) :
    applyWhile ar due values operators = (⟨values, operators⟩, []) := by
  cases operators with
  | nil => rfl
  | cons op operators =>
    have hd : due op = false := h op (by simp)
    simp [applyWhile, hd]

theorem applyWhile_cons_of_due {ar : Arithmetic α} {due : Operator → Bool} (h : due op = true)
    (left right : α) (values : List α) (operators : List Operator) :
    applyWhile ar due (right :: left :: values) (op :: operators) =
      ((applyWhile ar due (ar.apply op left right :: values) operators).1,
        .applied left op right (ar.apply op left right) ::
          (applyWhile ar due (ar.apply op left right :: values) operators).2) := by
  simp [applyWhile, reduce, h]

/-- Every reduction takes away one value and one operator, unless it finds no value. -/
theorem length_applyWhile (ar : Arithmetic α) (due : Operator → Bool) (values : List α)
    (operators : List Operator) (h : operators.length ≤ values.length) :
    (applyWhile ar due values operators).1.values.length + operators.length =
      values.length + (applyWhile ar due values operators).1.operators.length := by
  fun_induction applyWhile ar due values operators with
  | case1 values => rfl
  | case2 values op operators hdue reduced step hreduce further ih =>
    obtain ⟨left, right, rest, rfl, rfl, rfl⟩ := eq_of_reduce hreduce
    simp only [further, List.length_cons] at h ih ⊢
    have hlength := ih (by omega)
    omega
  | case3 values op operators hdue reduced hreduce =>
    obtain ⟨hfew, rfl⟩ := eq_of_reduce_none hreduce
    simp only [List.length_cons, List.length_nil] at h ⊢
    omega
  | case4 values op operators hwait => simp only [List.length_cons]

theorem applies_of_mem_applyWhile {ar : Arithmetic α} {values : List α}
    {operators : List Operator} (h : step ∈ (applyWhile ar due values operators).2) :
    step.Applies ar := by
  fun_induction applyWhile ar due values operators with
  | case1 values => cases h
  | case2 values op operators hdue reduced latest hreduce further ih =>
    obtain ⟨left, right, rest, rfl, rfl, rfl⟩ := eq_of_reduce hreduce
    rcases List.mem_cons.mp h with rfl | h
    · exact ⟨left, op, right, rfl⟩
    · exact ih h
  | case3 values op operators hdue reduced hreduce => cases h
  | case4 values op operators hwait => cases h

theorem applies_of_mem_conclude {ar : Arithmetic α} {pending : Pending α}
    (h : step ∈ (pending.conclude ar).2) : step.Applies ar := by
  unfold conclude at h
  split at h
  all_goals
    next hw => exact applies_of_mem_applyWhile (by rw [hw]; exact h)

/-- What is due under a narrower condition may be applied beforehand, if no operator lacks a value.
-/
theorem applyWhile_applyWhile (ar : Arithmetic α) {due narrow : Operator → Bool}
    (h : ∀ op, narrow op = true → due op = true) (values : List α) (operators : List Operator)
    (hlength : operators.length < values.length) :
    applyWhile ar due values operators =
      let first := applyWhile ar narrow values operators
      let second := applyWhile ar due first.1.values first.1.operators
      (second.1, first.2 ++ second.2) := by
  fun_induction applyWhile ar narrow values operators with
  | case1 values => rfl
  | case2 values op operators hdue reduced step hreduce further ih =>
    obtain ⟨left, right, rest, rfl, rfl, rfl⟩ := eq_of_reduce hreduce
    rw [applyWhile_cons_of_due (h op hdue), ih (by simpa using hlength)]
    rfl
  | case3 values op operators hdue reduced hreduce =>
    obtain ⟨hfew, -⟩ := eq_of_reduce_none hreduce
    simp only [List.length_cons] at hlength
    omega
  | case4 values op operators hwait => rfl

theorem reduced_reduced (ar : Arithmetic α) {pending : Pending α}
    (hlength : pending.operators.length < pending.values.length) (h : level ≤ level') :
    pending.reduced ar level =
      (((pending.reduced ar level').1.reduced ar level).1,
        (pending.reduced ar level').2 ++ ((pending.reduced ar level').1.reduced ar level).2) := by
  refine applyWhile_applyWhile ar ?_ _ _ hlength
  intro op hop
  simp only [decide_eq_true_eq] at hop ⊢
  exact Nat.le_trans h hop

theorem reduced_of_lower {pending : Pending α} (ar : Arithmetic α)
    (h : ∀ op ∈ pending.operators, op.precedence < level) :
    pending.reduced ar level = (pending, []) := by
  apply applyWhile_of_head
  intro op hop
  simpa using h op (List.mem_of_mem_head? hop)

theorem addOperator_eq (ar : Arithmetic α) (pending : Pending α) (op : Operator) :
    pending.addOperator ar op =
      (⟨(pending.reduced ar op.precedence).1.values,
        op :: (pending.reduced ar op.precedence).1.operators⟩,
        (pending.reduced ar op.precedence).2) := rfl

theorem conclude_of_reduced {pending : Pending α} {value : α}
    (h : pending.reduced ar 0 = (empty.addValue value, steps)) :
    pending.conclude ar = (some value, steps) := by
  have hall : (fun op : Operator => decide (0 ≤ op.precedence)) = fun _ => true := by
    funext op
    simp
  rw [reduced, hall] at h
  rw [conclude, h]
  rfl

/-- With one value more than operators, all operators can be applied. -/
theorem exists_applyWhile_all (ar : Arithmetic α) (operators : List Operator) (values : List α)
    (h : values.length = operators.length + 1) :
    ∃ value, (applyWhile ar (fun _ => true) values operators).1 = ⟨[value], []⟩ := by
  induction operators generalizing values with
  | nil =>
    obtain ⟨value, rfl⟩ := List.length_eq_one_iff.mp h
    exact ⟨value, rfl⟩
  | cons op operators ih =>
    match values, h with
    | right :: left :: values, h =>
      rw [applyWhile_cons_of_due rfl]
      exact ih _ (by simpa using h)

/-- As many operators as values wait, or one fewer if a value came last. -/
def Alternates (pending : Pending α) (afterValue : Bool) : Prop :=
  pending.values.length = pending.operators.length + afterValue.toNat

theorem alternates_empty : (empty : Pending α).Alternates false := rfl

namespace Alternates

theorem length_le {pending : Pending α} (h : pending.Alternates afterValue) :
    pending.operators.length ≤ pending.values.length :=
  h ▸ Nat.le_add_right ..

theorem length_lt {pending : Pending α} (h : pending.Alternates true) :
    pending.operators.length < pending.values.length :=
  h ▸ Nat.lt_succ_self _

theorem endsInValue_eq {pending : Pending α} (h : pending.Alternates afterValue) :
    pending.endsInValue = afterValue := by
  unfold Alternates at h
  cases afterValue <;> simp [endsInValue, h]

theorem addValue {pending : Pending α} (h : pending.Alternates false) (value : α) :
    (pending.addValue value).Alternates true := by
  simpa [Alternates, Pending.addValue] using h

theorem addOperator {pending : Pending α} (h : pending.Alternates true) (ar : Arithmetic α)
    (op : Operator) : (pending.addOperator ar op).1.Alternates false := by
  have hl := length_applyWhile ar (fun before => op.precedence ≤ before.precedence) _ _ h.length_le
  simp only [Alternates, Bool.toNat_true, Bool.toNat_false] at h ⊢
  simp only [Pending.addOperator, List.length_cons]
  omega

/-- A level whose last token is an operator has no value. -/
theorem of_conclude {pending : Pending α} (h : pending.Alternates afterValue)
    (hc : (pending.conclude ar).1 = some value) : afterValue = true := by
  unfold conclude at hc
  split at hc
  · next v steps hw =>
    have hl := length_applyWhile ar (fun _ => true) _ _ h.length_le
    rw [hw] at hl
    simp only [List.length_cons, List.length_nil] at hl
    cases afterValue with
    | true => rfl
    | false =>
      simp only [Alternates, Bool.toNat_false] at h
      omega
  · cases hc

/-- A level that ends in a value has one. -/
theorem exists_conclude {pending : Pending α} (h : pending.Alternates true) (ar : Arithmetic α) :
    ∃ value, (pending.conclude ar).1 = some value := by
  obtain ⟨value, hv⟩ := exists_applyWhile_all ar pending.operators pending.values h
  rw [conclude]
  generalize applyWhile ar (fun _ => true) pending.values pending.operators = reached at hv ⊢
  obtain ⟨last, steps⟩ := reached
  cases hv
  exact ⟨value, rfl⟩

end Alternates

end Pending

end Make24
