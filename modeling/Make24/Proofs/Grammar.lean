import Make24.Expression.Evaluation

namespace Make24

/-- The characters that mean something. -/
def dense (text : String) : List Char :=
  text.toList.filter (fun c => !Text.isBlank c)

/-- The digits of some characters, as often as they are written. -/
def written (cs : List Char) : List Nat :=
  cs.filterMap digitOfChar?

mutual

/-- Operands with an operator between each two. -/
inductive Sentence : List Char → Prop where
  | operand (first : Operand cs) : Sentence cs
  | chain (op : Operator) (before : Sentence cs) (last : Operand ds) :
      Sentence (cs ++ op.symbol :: ds)

/-- A digit, or a sentence in brackets. -/
inductive Operand : List Char → Prop where
  | digit (low : '1' ≤ c) (high : c ≤ '9') : Operand [c]
  | group (inside : Sentence cs) : Operand ('(' :: (cs ++ [')']))

end

/-- What an expression says, with brackets and precedence resolved. -/
inductive Tree where
  | leaf (digit : Nat)
  | node (op : Operator) (left right : Tree)
  deriving DecidableEq, Repr

namespace Tree

/-- The digits from left to right. -/
def leaves : Tree → List Nat
  | leaf d => [d]
  | node _ left right => left.leaves ++ right.leaves

/-- The value of a node from the values of its two sides, in their order. -/
def value (ar : Arithmetic α) : Tree → α
  | leaf d => ar.ofDigit d
  | node op left right => ar.apply op (left.value ar) (right.value ar)

/-- The applications of all nodes, each one behind those of its left and of its right side. -/
def applications (ar : Arithmetic α) : Tree → List (Step α)
  | leaf _ => []
  | node op left right => left.applications ar ++ right.applications ar ++
      [.applied (left.value ar) op (right.value ar) (ar.apply op (left.value ar) (right.value ar))]

theorem length_leaves_pos (t : Tree) : 0 < t.leaves.length := by
  induction t with
  | leaf d => exact Nat.one_pos
  | node op l r ihl ihr =>
    rw [leaves, List.length_append]
    omega

end Tree

/-- The spellings of a tree where operators below `level` must stand in brackets. The right side of
an operator brackets its equals. Any part may have brackets more than it needs. -/
inductive Spells : Nat → Tree → List Char → Prop where
  | leaf (playable : isPlayable d = true) : Spells level (.leaf d) [charOfDigit d]
  | node (op : Operator) {l r : Tree} {cs ds : List Char} (tight : level ≤ op.precedence)
      (left : Spells op.precedence l cs) (right : Spells (op.precedence + 1) r ds) :
      Spells level (.node op l r) (cs ++ op.symbol :: ds)
  | group (inside : Spells 0 t cs) : Spells level t ('(' :: (cs ++ [')']))

theorem digitOfChar?_charOfDigit (h : isPlayable d = true) :
    digitOfChar? (charOfDigit d) = some d := by
  have hall : ∀ d ≤ 9, isPlayable d = true → digitOfChar? (charOfDigit d) = some d := by decide
  apply hall d _ h
  simp only [isPlayable, Bool.and_eq_true, decide_eq_true_eq] at h
  exact h.2

theorem digitOfChar?_symbol (op : Operator) : digitOfChar? op.symbol = none := by
  cases op <;> decide

theorem digitOfChar?_eq_none_of_bracket (h : c = '(' ∨ c = ')') : digitOfChar? c = none := by
  rcases h with rfl | rfl <;> decide

theorem exists_digit_of_range (low : '1' ≤ c) (high : c ≤ '9') :
    ∃ d, isPlayable d = true ∧ charOfDigit d = c := by
  have hd : digitOfChar? c = some (c.toNat - '0'.toNat) := by
    rw [digitOfChar?, if_pos ⟨low, high⟩]
  exact ⟨_, isPlayable_of_digitOfChar? hd, charOfDigit_of_digitOfChar? hd⟩

theorem range_of_digitOfChar? (h : digitOfChar? c = some d) : '1' ≤ c ∧ c ≤ '9' := by
  unfold digitOfChar? at h
  split at h
  · assumption
  · cases h

@[simp] theorem written_append (cs ds : List Char) :
    written (cs ++ ds) = written cs ++ written ds :=
  List.filterMap_append

theorem written_symbol_cons (op : Operator) (cs : List Char) :
    written (op.symbol :: cs) = written cs := by
  rw [written, List.filterMap_cons_none (digitOfChar?_symbol op), written]

theorem written_group (cs : List Char) : written ('(' :: (cs ++ [')'])) = written cs := by
  have ho : digitOfChar? '(' = none := digitOfChar?_eq_none_of_bracket (.inl rfl)
  have hc : digitOfChar? ')' = none := digitOfChar?_eq_none_of_bracket (.inr rfl)
  simp [written, ho, hc]

namespace Spells

theorem written_eq (h : Spells level t cs) : written cs = t.leaves := by
  induction h with
  | leaf playable => simp [written, digitOfChar?_charOfDigit playable, Tree.leaves]
  | node op tight left right ihl ihr =>
    rw [written_append, written_symbol_cons, ihl, ihr, Tree.leaves]
  | group inside ih => rw [written_group, ih]

theorem playable (h : Spells level t cs) : ∀ d ∈ t.leaves, isPlayable d = true := by
  induction h with
  | leaf playable => simpa [Tree.leaves] using playable
  | node op tight left right ihl ihr =>
    intro d hd
    rcases List.mem_append.mp hd with hd | hd
    · exact ihl d hd
    · exact ihr d hd
  | group inside ih => exact ih

/-- Brackets that a lower level asks for are no fault at a higher one. -/
theorem lower (h : Spells level t cs) (hl : level' ≤ level) : Spells level' t cs := by
  cases h with
  | leaf playable => exact .leaf playable
  | node op tight left right => exact .node op (Nat.le_trans hl tight) left right
  | group inside => exact .group inside

/-- Without brackets around it, a sum or difference has a right side that binds tighter. -/
theorem loose_or_tight (h : Spells 1 t cs) : Spells 2 t cs ∨
    ∃ (op : Operator) (l r : Tree) (ls rs : List Char),
      op.precedence = 1 ∧ cs = ls ++ op.symbol :: rs ∧ Spells 1 l ls ∧
      Spells 2 r rs := by
  cases h with
  | leaf playable => exact .inl (.leaf playable)
  | group inside => exact .inl (.group inside)
  | node op tight left right =>
    rename_i l r ls rs
    by_cases hop : op.precedence = 1
    · rw [hop] at left right
      exact .inr ⟨op, l, r, ls, rs, hop, rfl, left, right⟩
    · exact .inl (.node op (by omega) left right)

/-- A further operand goes to the operator of the whole text, or to its right side if the new
operator binds tighter. -/
theorem chain (h : Spells 1 t cs) (op : Operator) (ho : Spells 3 o ds) :
    ∃ t', Spells 1 t' (cs ++ op.symbol :: ds) := by
  have hop : op.precedence = 1 ∨ op.precedence = 2 := by cases op <;> simp [Operator.precedence]
  have ho' : Spells (op.precedence + 1) o ds := ho.lower (by omega)
  rcases hop with hop | hop
  · exact ⟨.node op t o, .node op (by omega) (by rw [hop]; exact h) ho'⟩
  · rcases h.loose_or_tight with h | ⟨first, l, r, ls, rs, hf, rfl, hl, hr⟩
    · exact ⟨.node op t o, .node op (by omega) (by rw [hop]; exact h) ho'⟩
    · have hright : Spells (first.precedence + 1) (.node op r o) (rs ++ op.symbol :: ds) :=
        .node op (by omega) (by rw [hop]; exact hr) ho'
      refine ⟨.node first l (.node op r o), ?_⟩
      rw [List.append_assoc, List.cons_append]
      exact .node first (by omega) (by rw [hf]; exact hl) hright

end Spells

mutual

theorem Sentence.exists_spells (h : Sentence cs) : ∃ t, Spells 1 t cs := by
  match h with
  | .operand first =>
    obtain ⟨t, ht⟩ := first.exists_spells
    exact ⟨t, ht.lower (by omega)⟩
  | .chain op before last =>
    obtain ⟨t, ht⟩ := before.exists_spells
    obtain ⟨o, ho⟩ := last.exists_spells
    exact ht.chain op ho

theorem Operand.exists_spells (h : Operand cs) : ∃ t, Spells 3 t cs := by
  match h with
  | .digit low high =>
    obtain ⟨d, hd, hc⟩ := exists_digit_of_range low high
    exact ⟨.leaf d, hc ▸ .leaf hd⟩
  | .group inside =>
    obtain ⟨t, ht⟩ := inside.exists_spells
    exact ⟨t, .group (ht.lower (by omega))⟩

end

end Make24
