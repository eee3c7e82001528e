import Make24.Proofs.Progress
import Make24.Proofs.Reducing
import Make24.Proofs.Surroundings

namespace Make24

open Relation (ReflTransGen)

/-- What waits on a level fits the tokens that the level has handled. -/
structure Pending.Fits (pending : Pending α) (handled : List Lexeme) : Prop where
  alternates : pending.Alternates (endsOperand handled)
  tightens : Tightens pending.operators
  holdsValue : handled ≠ [] → pending.values ≠ []
  ended : ∀ last, handled.getLast? = some last → endsOperand handled = false →
    ∃ op, last.token = .operator op

namespace Pending.Fits
variable {ar : Arithmetic α} {due : Operator → Bool} {pending reached : Pending α}

theorem empty : (empty : Pending α).Fits [] :=
  ⟨alternates_empty, .nil, fun hne => absurd rfl hne, fun _ hlast => by cases hlast⟩

theorem alternates_of_endsInValue (h : pending.Fits handled)
    (hv : pending.endsInValue = afterValue) : pending.Alternates afterValue := by
  have ha := h.alternates
  rwa [← ha.endsInValue_eq, hv] at ha

theorem addValue (h : pending.Fits handled) (hv : pending.endsInValue = false)
    (hend : endsOperand more = true) (value : α) : (pending.addValue value).Fits more := by
  refine ⟨?_, h.tightens, fun _ => List.cons_ne_nil _ _, ?_⟩
  · rw [hend]
    exact (h.alternates_of_endsInValue hv).addValue value
  · intro last _ hoperator
    rw [hend] at hoperator
    cases hoperator

theorem addOperator (h : pending.Fits handled) (hv : pending.endsInValue = true)
    (hl : l.token = .operator op) (ar : Arithmetic α) :
    (pending.addOperator ar op).1.Fits (handled ++ [l]) := by
  have ha := h.alternates_of_endsInValue hv
  refine ⟨?_, h.tightens.addOperator ha ar op, ?_, ?_⟩
  · rw [endsOperand_append_operator hl]
    exact ha.addOperator ar op
  · intro _
    have hne : pending.values ≠ [] := by
      intro hnil
      simp [Alternates, hnil] at ha
    have hkept : (pending.reduced ar op.precedence).1.values ≠ [] :=
      values_ne_nil_of_reduces (reduces_reduced ha ar op.precedence) hne
    exact hkept
  · intro last hlast _
    rw [List.getLast?_concat, Option.some.injEq] at hlast
    exact ⟨op, hlast ▸ hl⟩

theorem length_values_le (h : pending.Fits handled) : pending.values.length ≤ 3 := by
  have ha : pending.values.length = _ := h.alternates
  have hle := h.tightens.length_le_two
  have hone := (endsOperand handled).toNat_le
  omega

/-- A level that is done with has no value exactly if an operator came last. -/
theorem conclude_eq_none_iff (h : pending.Fits handled) (hne : handled ≠ []) :
    (pending.conclude ar).1 = none ↔
      ∃ last op, handled.getLast? = some last ∧ last.token = .operator op := by
  have hlast := List.getLast?_eq_some_getLast hne
  rw [Make24.conclude_eq_none_iff ar h.alternates hlast (h.ended _ hlast), hlast]
  simp

/-- Where no operator is left, one value is. -/
theorem length_values_of_reduces (h : pending.Fits handled) (hne : handled ≠ [])
    (hreached : ReflTransGen (Reduces ar due) pending reached) (hnil : reached.operators = []) :
    reached.values.length = 1 := by
  have ha : reached.values.length = _ := h.alternates.of_reduces hreached
  have hpos := List.length_pos_iff.mpr (values_ne_nil_of_reduces hreached (h.holdsValue hne))
  have hone := (endsOperand handled).toNat_le
  rw [hnil, List.length_nil] at ha
  omega

end Pending.Fits

theorem take_succ_of_drop {level : List Lexeme} (h : level.drop cursor = l :: rest) :
    level.take (cursor + 1) = level.take cursor ++ [l] := by
  rw [List.take_add, h]
  rfl

theorem take_length_sub_of_drop {level : List Lexeme}
    (h : level.drop cursor = l :: (inside ++ close :: after)) :
    level.take (level.length - after.length) = level.take cursor ++ (l :: inside) ++ [close] := by
  have hgroup : l :: (inside ++ close :: after) = (l :: (inside ++ [close])) ++ after := by simp
  rw [length_sub_of_drop h, List.take_add, h, hgroup, List.take_left]
  simp

/-- What the levels around one that begins at the index have handled, and what waits on them. None
has handled the bracket that the level inside it begins behind. -/
def waiting (start : Nat) : List (Frame α) → List (List Lexeme × Pending α)
  | [] => []
  | f :: callers => (f.level.take (start - 1 - f.start), f.pending) :: waiting f.start callers

/-- What each level has handled, and what waits on it, the innermost level first. -/
def Machine.levels (m : Machine α) : List (List Lexeme × Pending α) :=
  (m.frame.level.take m.frame.cursor, m.frame.pending) :: waiting m.frame.start m.callers

/-- The level lacks the value of a group, and goes on behind it. -/
structure Frame.Lacks (f : Frame α) : Prop where
  value : f.pending.endsInValue = false
  behind : endsOperand (f.level.take f.cursor) = true

/-- What waits on each level fits what the level has handled. -/
structure Machine.Fits (m : Machine α) : Prop where
  levels : ∀ level ∈ m.levels, level.2.Fits level.1
  callers : ∀ f ∈ m.callers, f.Lacks

namespace Machine.Fits

theorem begin (hand : Hand) (tokens : List Lexeme) :
    (Machine.begin hand tokens : Machine α).Fits := by
  refine ⟨?_, List.forall_mem_nil _⟩
  intro level hlevel
  obtain rfl := List.mem_singleton.mp hlevel
  exact .empty

theorem follow {m m' : Machine α} (h : Follows ar m m') (hm : m.Fits) : m'.Fits := by
  obtain ⟨hlevels, hcallers⟩ := hm
  obtain ⟨hframe, hwaiting⟩ := List.forall_mem_cons.mp hlevels
  cases h with
  | spend ahead move =>
    obtain ⟨hl, -, -, hv⟩ := nextMove_eq_spend_iff.mp move
    refine ⟨List.forall_mem_cons.mpr ⟨hframe.addValue hv ?_ _, hwaiting⟩, hcallers⟩
    rw [take_succ_of_drop ahead]
    exact endsOperand_append_digit hl _
  | combine ahead move =>
    obtain ⟨hl, hv⟩ := nextMove_eq_combine_iff.mp move
    have hadded := hframe.addOperator hv hl ar
    rw [← take_succ_of_drop ahead] at hadded
    exact ⟨List.forall_mem_cons.mpr ⟨hadded, hwaiting⟩, hcallers⟩
  | @enter l rest hand inside after steps start level cursor pending callers ahead move =>
    obtain ⟨close, hc, rfl, -⟩ := eq_of_enter move
    obtain ⟨-, hv, -⟩ := nextMove_eq_enter_iff.mp move
    -- The level waits in front of the bracket, though it goes on behind the group.
    have hindex : start + cursor + 1 - 1 - start = cursor := by omega
    have hbehind : endsOperand (level.take (level.length - after.length)) = true := by
      rw [take_length_sub_of_drop ahead]
      exact endsOperand_append_closing hc _
    refine ⟨List.forall_mem_cons.mpr ⟨.empty, List.forall_mem_cons.mpr ⟨?_, hwaiting⟩⟩,
      List.forall_mem_cons.mpr ⟨⟨hv, hbehind⟩, hcallers⟩⟩
    simpa only [hindex] using hframe
  | leave done given =>
    obtain ⟨hcaller, hwaiting⟩ := List.forall_mem_cons.mp hwaiting
    obtain ⟨⟨hv, hbehind⟩, hcallers⟩ := List.forall_mem_cons.mp hcallers
    exact ⟨List.forall_mem_cons.mpr ⟨hcaller.addValue hv hbehind _, hwaiting⟩, hcallers⟩

theorem of_run {ar : Arithmetic α} {hand : Hand} {tokens : List Lexeme} {m : Machine α}
    (h : run ar hand tokens n = .on m) : m.Fits :=
  keeps_of_run (begin hand tokens) (fun _ _ hfollows hm => hm.follow hfollows) h

end Machine.Fits

/-- However many tokens an evaluation has, few values and operators wait on each of its levels at
every turn. There is one value more than operators if the level handled an operand last, and as many
otherwise, and each operator binds tighter than those before it. So when another operator comes,
those that are due have their operands, and only others stay before it. A level that is done with
has no value exactly if its last token is an operator, and where no operator is left, a single value
is. -/
theorem pending_of_run (ar : Arithmetic α) (hand : Hand) (tokens : List Lexeme) :
    run ar hand tokens (tokens.length + 1) = .ended (evaluateLevel ar hand .whole tokens) ∧
      ∀ n m, run ar hand tokens n = .on m →
        (∀ handled pending, (handled, pending) ∈ m.levels →
          pending.Alternates (endsOperand handled) ∧ Pending.Tightens pending.operators ∧
            pending.operators.length ≤ 2 ∧ pending.values.length ≤ 3) ∧
        (∀ l op, m.frame.level[m.frame.cursor]? = some l → l.token = .operator op →
          m.frame.pending.endsInValue = true →
            (m.frame.pending.NeverLacks ar fun before => op.precedence ≤ before.precedence) ∧
            ∀ before ∈ (m.frame.pending.addOperator ar op).1.operators.tail,
              before.precedence < op.precedence) ∧
        (m.frame.level ≠ [] → m.frame.cursor = m.frame.level.length →
          ((m.frame.pending.conclude ar).1 = none ↔
            ∃ last op, m.frame.level.getLast? = some last ∧ last.token = .operator op) ∧
          ∀ reached, ReflTransGen (Pending.Reduces ar fun _ => true) m.frame.pending reached →
            reached.operators = [] → reached.values.length = 1) := by
  refine ⟨run_length_succ ar hand tokens, ?_⟩
  intro n m h
  have hlevels := (Machine.Fits.of_run h).levels
  have hframe := hlevels _ List.mem_cons_self
  refine ⟨?_, ?_, ?_⟩
  · intro handled pending hlevel
    have hfits := hlevels _ hlevel
    exact ⟨hfits.alternates, hfits.tightens, hfits.tightens.length_le_two, hfits.length_values_le⟩
  · intro l op _ _ hv
    have ha := hframe.alternates_of_endsInValue hv
    exact ⟨ha.neverLacks ar _, (List.pairwise_cons.mp (hframe.tightens.addOperator ha ar op)).1⟩
  · intro hne hdone
    rw [hdone, List.take_length] at hframe
    refine ⟨hframe.conclude_eq_none_iff hne, ?_⟩
    intro reached hreached hnil
    exact hframe.length_values_of_reduces hne hreached hnil

/-- As much waits as ever can: the last of three values is that of a group, and one operator more is
to come. -/
theorem pending_of_run_full :
    ∃ m, run .float ⟨[4, 3, 2, 1]⟩ (lexemes "(1) + 2 * (3) - 4") 9 = .on m ∧
      m.frame.pending.operators = [.mul, .add] ∧ m.frame.pending.values.length = 3 ∧
      m.frame.pending.Alternates true ∧
      m.frame.pending.NeverLacks .float
        fun before => Operator.sub.precedence ≤ before.precedence := by
  have hturn := (pending_of_run .float ⟨[4, 3, 2, 1]⟩ (lexemes "(1) + 2 * (3) - 4")).2 9 _ rfl
  have hlevel := hturn.1 _ _ List.mem_cons_self
  have hoperator := hturn.2.1 ⟨.operator .sub, 14⟩ .sub rfl rfl rfl
  exact ⟨_, rfl, rfl, rfl, hlevel.1, hoperator.1⟩

end Make24
