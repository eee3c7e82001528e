import Make24.Proofs.Levels

namespace Make24

/-- The applications among some steps. -/
def applied (steps : List (Step α)) : List (Step α) :=
  steps.filter fun
    | .applied .. => true
    | _ => false

@[simp] theorem applied_append (first more : List (Step α)) :
    applied (first ++ more) = applied first ++ applied more :=
  List.filter_append first more

theorem applied_of_applies {ar : Arithmetic α} {steps : List (Step α)}
    (h : ∀ step ∈ steps, step.Applies ar) : applied steps = steps := by
  apply List.filter_eq_self.mpr
  intro step hs
  obtain ⟨left, op, right, rfl⟩ := h step hs
  rfl

theorem Pending.applied_reduced (ar : Arithmetic α) (pending : Pending α) (level : Nat) :
    applied (pending.reduced ar level).2 = (pending.reduced ar level).2 :=
  applied_of_applies fun _ => applies_of_mem_applyWhile

theorem isGlued_eq_false (h : ∀ next ∈ rest.head?, next.token.isDigit = false) (l : Lexeme) :
    isGlued l rest = false := by
  cases rest with
  | nil => rfl
  | cons next rest => simp [isGlued, h next (by simp)]

namespace Spells

theorem ne_nil (h : Spells level t cs) : cs ≠ [] := by
  cases h <;> simp

theorem depthAfter_eq (h : Spells level t cs) (hr : Reads ls cs) (depth : Nat) :
    depthAfter depth ls = some depth := by
  induction h generalizing ls depth with
  | leaf playable =>
    obtain ⟨l, rfl, hl⟩ := hr.singleton
    rw [Token.ofChar_charOfDigit playable] at hl
    rw [depthAfter_inner ⟨by simp [hl], by simp [hl]⟩, depthAfter]
  | node op tight left right ihl ihr =>
    obtain ⟨ls₁, l, ls₂, rfl, h₁, hl, h₂⟩ := hr.between
    rw [depthAfter_append, ihl h₁, Option.bind_some,
      depthAfter_inner ⟨by simp [hl], by simp [hl]⟩]
    exact ihr h₂ depth
  | group inside ih =>
    obtain ⟨l, ins, close, rfl, hl, hi, hc⟩ := hr.brackets
    rw [depthAfter_opening hl, depthAfter_append, ih hi, Option.bind_some, depthAfter_closing hc,
      depthAfter]

end Spells

/-- What a tree adds to a level that waits for an operand: its value, once all operators from
`level` on are applied, with the tree's own applications on the way. -/
structure Adds (ar : Arithmetic α) (level : Nat) (t : Tree) (before after : Pending α)
    (steps : List (Step α)) : Prop where
  alternates : after.Alternates true
  value : (after.reduced ar level).1 = before.addValue (t.value ar)
  order : applied steps ++ (after.reduced ar level).2 = t.applications ar

theorem Adds.conclude {after : Pending α} (h : Adds ar 0 t .empty after steps) :
    after.conclude ar = (some (t.value ar), (after.reduced ar 0).2) :=
  Pending.conclude_of_reduced (Prod.ext h.value rfl)

/-- An operator behind its left side waits on top of what waited before. -/
theorem Adds.addOperator {before after : Pending α}
    (h : Adds ar op.precedence l before after steps) :
    after.addOperator ar op =
      (⟨l.value ar :: before.values, op :: before.operators⟩,
        (after.reduced ar op.precedence).2) := by
  rw [Pending.addOperator_eq, h.value]
  rfl

/-- With its right side, the operator on top is due. -/
theorem Adds.node {before mid after : Pending α} (hl : Adds ar op.precedence l before mid first)
    (hr : Adds ar (op.precedence + 1) r ⟨l.value ar :: before.values, op :: before.operators⟩
      after last)
    (hb : ∀ op ∈ before.operators, op.precedence < level) (tight : level ≤ op.precedence) :
    Adds ar level (.node op l r) before after
      (first ++ (mid.reduced ar op.precedence).2 ++ last) := by
  have hred := Pending.reduced_reduced ar hr.alternates.length_lt (Nat.le_succ_of_le tight)
  have htop : ((after.reduced ar (op.precedence + 1)).1.reduced ar level) =
      (before.addValue ((Tree.node op l r).value ar),
        [.applied (l.value ar) op (r.value ar) (ar.apply op (l.value ar) (r.value ar))]) := by
    have hrest : (before.addValue ((Tree.node op l r).value ar)).reduced ar level =
        (before.addValue ((Tree.node op l r).value ar), []) := Pending.reduced_of_lower ar hb
    rw [hr.value, Pending.reduced]
    simp only [Pending.addValue]
    rw [Pending.applyWhile_cons_of_due (by simpa using tight)]
    simp only [Pending.reduced, Pending.addValue, Tree.value] at hrest
    simp only [hrest, Tree.value]
  refine ⟨hr.alternates, by rw [hred, htop], ?_⟩
  rw [hred, htop, applied_append, applied_append, Pending.applied_reduced, Tree.applications,
    ← hl.order, ← hr.order]
  simp only [List.append_assoc]

/-- Scanning the tokens adds the tree to any level that waits for an operand behind operators below
`level`, and takes the tree's digits from the hand. -/
def Scans (ar : Arithmetic α) (level : Nat) (t : Tree) (ls : List Lexeme) : Prop :=
  ∀ (hand : Hand) (before : Pending α) (rest : List Lexeme),
    (∀ next ∈ rest.head?, next.token.isDigit = false) → before.Alternates false →
    (∀ op ∈ before.operators, op.precedence < level) →
    (∀ d, t.leaves.count d ≤ hand.digits.count d) →
    ∃ after steps, Adds ar level t before after steps ∧
      scan ar hand before (ls ++ rest) = (scan ar (hand.spend t.leaves) after rest).after steps

theorem scans_digit (ar : Arithmetic α) (level : Nat) (hl : l.token = .digit d) :
    Scans ar level (.leaf d) [l] := by
  intro hand before rest hrest ha hb hd
  have hc : hand.contains d = true := by
    have hone := hd d
    simp only [Tree.leaves, List.count_singleton_self] at hone
    exact (hand.contains_iff d).mpr hone
  have hmove : nextMove hand before.endsInValue l rest = .spend d :=
    nextMove_eq_spend_iff.mpr ⟨hl, hc, isGlued_eq_false hrest l, ha.endsInValue_eq⟩
  have hq : (before.addValue (ar.ofDigit d)).reduced ar level =
      (before.addValue (ar.ofDigit d), []) := Pending.reduced_of_lower ar hb
  exact ⟨before.addValue (ar.ofDigit d), [.consumed d (hand.erase d).digits],
    ⟨ha.addValue _, by rw [hq]; rfl, by rw [hq]; rfl⟩, scan_of_spend ar hmove⟩

namespace Scans

theorem node {ar : Arithmetic α} (hl : Scans ar op.precedence l ls) (ho : o.token = .operator op)
    (hr : Scans ar (op.precedence + 1) r ms) (tight : level ≤ op.precedence) :
    Scans ar level (.node op l r) (ls ++ o :: ms) := by
  intro hand before rest hrest ha hb hd
  have hleaves (d : Nat) : l.leaves.count d + r.leaves.count d ≤ hand.digits.count d := by
    simpa [Tree.leaves] using hd d
  obtain ⟨mid, first, hmid, hscan⟩ := hl hand before (o :: (ms ++ rest))
    (by simp [ho, Token.isDigit]) ha (fun op' hop => Nat.lt_of_lt_of_le (hb op' hop) tight)
    (fun d => by have := hleaves d; omega)
  have hmove : nextMove (hand.spend l.leaves) mid.endsInValue o (ms ++ rest) = .combine op :=
    nextMove_eq_combine_iff.mpr ⟨ho, hmid.alternates.endsInValue_eq⟩
  -- The new operator is the latest that waits, and no operator below it binds tighter.
  have hwait : (⟨l.value ar :: before.values, op :: before.operators⟩ : Pending α).Alternates
      false := by
    simpa [Pending.Alternates] using ha
  have hlow : ∀ op' ∈ op :: before.operators, op'.precedence < op.precedence + 1 := by
    intro op' hop
    rcases List.mem_cons.mp hop with rfl | hop
    · exact Nat.lt_succ_self _
    · have := hb op' hop
      omega
  obtain ⟨after, last, hafter, hscan'⟩ := hr (hand.spend l.leaves)
    ⟨l.value ar :: before.values, op :: before.operators⟩ rest hrest hwait hlow
    (fun d => by have := hleaves d; rw [Hand.count_spend]; omega)
  refine ⟨after, _, hmid.node hafter hb tight, ?_⟩
  rw [List.append_assoc, List.cons_append, hscan, scan_of_combine ar hmove]
  simp only [hmid.addOperator, hscan', Outcome.after_after, Tree.leaves, Hand.spend_append,
    List.append_assoc]

/-- A level whose tokens give a value evaluates to it. -/
theorem evaluateLevel_eq (h : Scans ar 0 t ls) (hne : ls ≠ []) {hand : Hand}
    (hd : ∀ d, t.leaves.count d ≤ hand.digits.count d) (extent : Extent)
    (he : extent = .whole → (hand.spend t.leaves).isEmpty = true) :
    ∃ steps, applied steps = t.applications ar ∧
      evaluateLevel ar hand extent ls =
        (Outcome.done (t.value ar) (hand.spend t.leaves)).after steps := by
  obtain ⟨after, steps, hafter, hscan⟩ := h hand .empty [] (by simp) Pending.alternates_empty
    (by simp [Pending.empty]) hd
  rw [List.append_nil, scan_nil] at hscan
  refine ⟨steps ++ (after.reduced ar 0).2, ?_, ?_⟩
  · rw [applied_append, Pending.applied_reduced, hafter.order]
  · have hok : (scan ar hand .empty ls).result = .ok after := by
      rw [hscan]
      rfl
    have hlast : ¬(extent = .whole ∧ (hand.spend t.leaves).isEmpty = false) := by
      rintro ⟨hw, hf⟩
      rw [he hw] at hf
      cases hf
    obtain ⟨last, hl⟩ := Option.isSome_iff_exists.mp (List.getLast?_isSome.mpr hne)
    rw [evaluateLevel, Outcome.andThen_of_ok hok, hscan, settle, hl]
    simp only [Outcome.after, Outcome.done, hlast, ↓reduceIte, hafter.conclude, List.append_nil]

/-- A group counts as one value, whatever operators stand in it. -/
theorem group (h : Scans ar 0 t inside) (hne : inside ≠ []) (hdepth : depthAfter 0 inside = some 0)
    (hl : l.token = .opening) (hc : close.token = .closing) (level : Nat) :
    Scans ar level t (l :: (inside ++ [close])) := by
  intro hand before rest hrest ha hb hd
  have hmove : nextMove hand before.endsInValue l (inside ++ close :: rest) = .enter inside rest :=
    nextMove_eq_enter_iff.mpr ⟨hl, ha.endsInValue_eq,
      splitGroup?_eq_some_iff.mpr ⟨close, hc, rfl, hdepth⟩⟩
  obtain ⟨steps, horder, hlevel⟩ := h.evaluateLevel_eq hne hd .group (by simp)
  have hok : (evaluateLevel ar hand .group inside).result = .ok (t.value ar) := by
    rw [hlevel]
    rfl
  have hq : (before.addValue (t.value ar)).reduced ar level = (before.addValue (t.value ar), []) :=
    Pending.reduced_of_lower ar hb
  refine ⟨before.addValue (t.value ar), .entered l.position :: steps,
    ⟨ha.addValue _, by rw [hq], ?_⟩, ?_⟩
  · rw [hq, List.append_nil]
    exact horder
  · rw [List.cons_append, List.append_assoc, List.singleton_append, scan_of_enter ar hmove,
      Outcome.andThen_of_ok hok, hlevel]
    simp only [Outcome.after_after, Outcome.done, Outcome.hand_after, Outcome.steps_after,
      List.append_nil, List.singleton_append]

end Scans

theorem Spells.scans (h : Spells level t cs) (hr : Reads ls cs) (ar : Arithmetic α) :
    Scans ar level t ls := by
  induction h generalizing ls with
  | leaf playable =>
    obtain ⟨l, rfl, hl⟩ := hr.singleton
    exact scans_digit ar _ (hl.trans (Token.ofChar_charOfDigit playable))
  | node op tight left right ihl ihr =>
    obtain ⟨ls₁, o, ls₂, rfl, h₁, ho, h₂⟩ := hr.between
    exact (ihl h₁).node ho (ihr h₂) tight
  | group inside ih =>
    obtain ⟨l, ins, close, rfl, hl, hi, hc⟩ := hr.brackets
    exact (ih hi).group (hi.ne_nil inside.ne_nil) (inside.depthAfter_eq hi 0) hl hc _

/-- A text that spells a tree over the whole hand is evaluated node by node. -/
theorem Spells.evaluate_eq {hand : Hand} (h : Spells 0 t (dense text))
    (hp : t.leaves.Perm hand.digits) (ar : Arithmetic α) :
    ∃ steps, applied steps = t.applications ar ∧
      evaluate ar hand text = (Outcome.done (t.value ar) (hand.spend t.leaves)).after steps := by
  have hr := reads_lexemes text
  have hcount (d : Nat) : t.leaves.count d = hand.digits.count d := hp.count_eq d
  apply (h.scans hr ar).evaluateLevel_eq (hr.ne_nil h.ne_nil) (fun d => Nat.le_of_eq (hcount d))
    .whole
  intro _
  apply (Hand.isEmpty_iff_count _).mpr
  intro d
  rw [Hand.count_spend, hcount, Nat.sub_self]

/-- The arithmetic that builds trees. -/
def Arithmetic.tree : Arithmetic Tree where
  ofDigit := .leaf
  apply := .node

theorem Tree.value_tree (t : Tree) : t.value .tree = t := by
  induction t with
  | leaf d => rfl
  | node op l r ihl ihr => rw [value, ihl, ihr, Arithmetic.tree]

/-- No text can be read in two ways. -/
theorem Spells.unique (h : Spells 0 t (dense text)) (h' : Spells 0 t' (dense text)) : t = t' := by
  have heval (s : Tree) (hs : Spells 0 s (dense text)) :
      (evaluate .tree ⟨t.leaves⟩ text).result = .ok s := by
    have hp : s.leaves.Perm (⟨t.leaves⟩ : Hand).digits := by rw [← h.written_eq, ← hs.written_eq]
    obtain ⟨steps, -, he⟩ := hs.evaluate_eq hp .tree
    rw [he, s.value_tree]
    rfl
  exact Except.ok.inj ((heval t h).symm.trans (heval t' h'))

/-- A text that spells a tree over the whole hand has the tree's value, whatever the operators
compute. Each is applied to the values of its own two sides, in their order, and once those are
known. -/
theorem evaluate_spelled {hand : Hand} (h : Spells 0 t (dense text))
    (hp : t.leaves.Perm hand.digits) (ar : Arithmetic α) :
    (evaluate ar hand text).result = .ok (t.value ar) ∧
      applied (evaluate ar hand text).steps = t.applications ar := by
  obtain ⟨steps, horder, he⟩ := h.evaluate_eq hp ar
  rw [he]
  exact ⟨rfl, by simpa [Outcome.done] using horder⟩

/-- Eight divided by what is left of three. -/
def fractionTree : Tree :=
  .node .div (.leaf 8) (.node .sub (.leaf 3) (.node .div (.leaf 8) (.leaf 3)))

/-- One pair of brackets is more than needed. -/
theorem spells_fractionTree : Spells 0 fractionTree (dense "8 / ((3) - 8/3)") := by
  have hdense : dense "8 / ((3) - 8/3)" =
      ['8', '/', '(', '(', '3', ')', '-', '8', '/', '3', ')'] := by decide
  have height (level : Nat) : Spells level (.leaf 8) ['8'] := .leaf rfl
  have hthree (level : Nat) : Spells level (.leaf 3) ['3'] := .leaf rfl
  have hthird : Spells 2 (.node .div (.leaf 8) (.leaf 3)) ['8', '/', '3'] :=
    .node .div (Nat.le_refl 2) (height 2) (hthree 3)
  have hrest : Spells 0 (.node .sub (.leaf 3) (.node .div (.leaf 8) (.leaf 3)))
      ['(', '3', ')', '-', '8', '/', '3'] :=
    .node .sub (Nat.zero_le 1) (.group (hthree 0)) hthird
  rw [hdense]
  exact .node .div (Nat.zero_le 2) (height 2) (.group hrest)

theorem evaluate_spelled_fraction :
    Spells 0 fractionTree (dense "8 / ((3) - 8/3)") ∧ fractionTree.leaves.Perm [3, 3, 8, 8] ∧
      (evaluate .float ⟨[3, 3, 8, 8]⟩ "8 / ((3) - 8/3)").result =
        .ok (fractionTree.value .float) := by
  have hleaves : fractionTree.leaves.Perm [3, 3, 8, 8] := by decide
  exact ⟨spells_fractionTree, hleaves, (evaluate_spelled spells_fractionTree hleaves .float).1⟩

end Make24
