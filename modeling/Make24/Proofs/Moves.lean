import Make24.Proofs.Tokens
import Make24.Proofs.Pending

namespace Make24

namespace Hand

/-- The hand after some digits are used up one by one. -/
def spend (hand : Hand) (ds : List Nat) : Hand :=
  ds.foldl erase hand

@[simp] theorem spend_nil (hand : Hand) : hand.spend [] = hand := rfl

@[simp] theorem spend_cons (hand : Hand) (d : Nat) (ds : List Nat) :
    hand.spend (d :: ds) = (hand.erase d).spend ds := rfl

theorem spend_append (hand : Hand) (ds es : List Nat) :
    hand.spend (ds ++ es) = (hand.spend ds).spend es :=
  List.foldl_append

theorem count_spend (hand : Hand) (ds : List Nat) (d : Nat) :
    (hand.spend ds).digits.count d = hand.digits.count d - ds.count d := by
  induction ds generalizing hand with
  | nil => simp
  | cons e ds ih =>
    rw [spend_cons, ih, erase, List.count_erase, List.count_cons]
    omega

theorem contains_iff (hand : Hand) (d : Nat) :
    hand.contains d = true ↔ 0 < hand.digits.count d := by
  rw [contains, List.contains_iff_mem, List.count_pos_iff]

theorem contains_spend (hand : Hand) (ds : List Nat) (d : Nat) :
    (hand.spend ds).contains d = decide (ds.count d < hand.digits.count d) := by
  rw [Bool.eq_iff_iff, contains_iff, count_spend, decide_eq_true_eq]
  omega

theorem isEmpty_iff_count (hand : Hand) :
    hand.isEmpty = true ↔ ∀ d, hand.digits.count d = 0 := by
  rw [isEmpty, List.isEmpty_iff]
  constructor
  · intro h d
    rw [h]
    rfl
  · intro h
    apply List.eq_nil_iff_forall_not_mem.mpr
    intro d hd
    exact absurd (h d) (Nat.pos_iff_ne_zero.mp (List.count_pos_iff.mpr hd))

/-- The order in which digits are used up does not matter. -/
theorem spend_perm (hand : Hand) (h : ds.Perm es) : hand.spend ds = hand.spend es := by
  induction h generalizing hand with
  | nil => rfl
  | cons d _ ih => exact ih (hand.erase d)
  | swap d e ds =>
    have hcomm : (hand.erase e).erase d = (hand.erase d).erase e :=
      congrArg Hand.mk (List.erase_comm e d)
    simp only [spend_cons, hcomm]
  | trans _ _ ih₁ ih₂ => exact (ih₁ hand).trans (ih₂ hand)

/-- The hand `left` is `start` without the digits `used`, all of which `start` held. -/
structure Leaves (start : Hand) (used : List Nat) (left : Hand) : Prop where
  eq : left = start.spend used
  held : ∀ d, used.count d ≤ start.digits.count d

theorem leaves_self (hand : Hand) : hand.Leaves [] hand :=
  ⟨rfl, fun _ => Nat.zero_le _⟩

theorem leaves_erase {hand : Hand} (h : hand.contains d = true) :
    hand.Leaves [d] (hand.erase d) := by
  refine ⟨rfl, fun e => ?_⟩
  rw [List.count_singleton]
  split
  · next he =>
    obtain rfl := beq_iff_eq.mp he
    exact (hand.contains_iff d).mp h
  · exact Nat.zero_le _

namespace Leaves

theorem count_add {start left : Hand} (h : start.Leaves used left) (d : Nat) :
    left.digits.count d + used.count d = start.digits.count d := by
  have hd := h.held d
  rw [h.eq, count_spend]
  omega

theorem trans {start mid left : Hand} (h : start.Leaves used mid) (h' : mid.Leaves more left) :
    start.Leaves (used ++ more) left := by
  refine ⟨by rw [h'.eq, h.eq, spend_append], fun d => ?_⟩
  have h₁ := h.count_add d
  have h₂ := h'.count_add d
  rw [List.count_append]
  omega

/-- What is used up and what is left make up the hand. -/
theorem perm {start left : Hand} (h : start.Leaves used left) :
    (used ++ left.digits).Perm start.digits := by
  apply List.perm_iff_count.mpr
  intro d
  rw [List.count_append, ← h.count_add d, Nat.add_comm]

theorem playable {start left : Hand} (h : start.Leaves used left)
    (hp : ∀ d ∈ start.digits, isPlayable d = true) : ∀ d ∈ left.digits, isPlayable d = true :=
  fun d hd => hp d (h.perm.mem_iff.mp (List.mem_append_right used hd))

theorem of_empty {start left : Hand} (h : start.Leaves used left) (he : start.digits = []) :
    left.digits = [] := by
  have hp := h.perm
  rw [he] at hp
  exact (List.append_eq_nil_iff.mp hp.eq_nil).2

end Leaves

end Hand

/-- What the tokens and the hand must be for a move to be made. -/
def Allows (hand : Hand) (afterValue : Bool) (l : Lexeme) (rest : List Lexeme) : Move → Prop
  | .refuse _ => True
  | .spend d =>
    l.token = .digit d ∧ hand.contains d = true ∧ isGlued l rest = false ∧ afterValue = false
  | .combine op => l.token = .operator op ∧ afterValue = true
  | .enter inside after =>
    l.token = .opening ∧ afterValue = false ∧ splitGroup? 0 rest = some (inside, after)

theorem allows_nextMove (hand : Hand) (afterValue : Bool) (l : Lexeme) (rest : List Lexeme) :
    Allows hand afterValue l rest (nextMove hand afterValue l rest) := by
  unfold nextMove
  cases ht : l.token with
  | digit d =>
    simp only
    split
    · trivial
    · next hc =>
      split
      · trivial
      · next hg =>
        split
        · trivial
        · next hv => exact ⟨ht, by simpa using hc, by simpa using hg, by simpa using hv⟩
  | opening =>
    simp only
    split
    · trivial
    · next hv =>
      split
      · next inside after hs => exact ⟨ht, by simpa using hv, hs⟩
      · trivial
  | operator op =>
    simp only
    split
    · next hv => exact ⟨ht, hv⟩
    · trivial
  | closing => trivial
  | invalid c => trivial

theorem nextMove_eq_spend_iff {hand : Hand} :
    nextMove hand afterValue l rest = .spend d ↔
      l.token = .digit d ∧ hand.contains d = true ∧ isGlued l rest = false ∧
        afterValue = false := by
  constructor
  · intro h
    have hall := allows_nextMove hand afterValue l rest
    rwa [h] at hall
  · rintro ⟨hl, hc, hg, rfl⟩
    simp [nextMove, hl, hc, hg]

theorem nextMove_eq_combine_iff {hand : Hand} :
    nextMove hand afterValue l rest = .combine op ↔
      l.token = .operator op ∧ afterValue = true := by
  constructor
  · intro h
    have hall := allows_nextMove hand afterValue l rest
    rwa [h] at hall
  · rintro ⟨hl, rfl⟩
    simp [nextMove, hl]

theorem nextMove_eq_enter_iff {hand : Hand} :
    nextMove hand afterValue l rest = .enter inside after ↔
      l.token = .opening ∧ afterValue = false ∧ splitGroup? 0 rest = some (inside, after) := by
  constructor
  · intro h
    have hall := allows_nextMove hand afterValue l rest
    rwa [h] at hall
  · rintro ⟨hl, rfl, hs⟩
    simp [nextMove, hl, hs]

end Make24
