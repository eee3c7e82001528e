import Mathlib.Data.List.Sort
import Mathlib.Data.List.Sublists
import Make24.Proofs.Brackets

namespace Make24

/-- How far into some tokens a closing bracket leaves none open for the first time, when `depth` are
open before. -/
def closeOffset? (depth : Nat) : List Lexeme → Option Nat
  | [] => none
  | l :: rest =>
    match l.token with
    | .opening => (closeOffset? (depth + 1) rest).map (· + 1)
    | .closing => if depth - 1 = 0 then some 0 else (closeOffset? (depth - 1) rest).map (· + 1)
    | _ => (closeOffset? depth rest).map (· + 1)

/-- The index of the bracket that closes the one at the index `opening`. -/
def matchingClose? (tokens : List Lexeme) (opening : Nat) : Option Nat :=
  (closeOffset? 0 (tokens.drop opening)).map (opening + ·)

/-- The tokens from one index up to another, if the indices are in order and in the list. -/
def slice? (tokens : List Lexeme) (first last : Nat) : Option (List Lexeme) :=
  if first ≤ last ∧ last ≤ tokens.length then some ((tokens.take last).drop first) else none

theorem slice?_eq_some_iff :
    slice? tokens first last = some part ↔
      ∃ before after, tokens = before ++ (part ++ after) ∧ before.length = first ∧
        last = first + part.length := by
  unfold slice?
  constructor
  · intro h
    split at h
    · next hbounds =>
      obtain rfl := Option.some.inj h
      refine ⟨tokens.take first, tokens.drop last, ?_, ?_, ?_⟩
      · calc
          tokens = tokens.take last ++ tokens.drop last := (List.take_append_drop ..).symm
          _ = (tokens.take last).take first ++ (tokens.take last).drop first ++ tokens.drop last :=
            congrArg (· ++ tokens.drop last) (List.take_append_drop first _).symm
          _ = _ := by rw [List.take_take, Nat.min_eq_left hbounds.1, List.append_assoc]
      · rw [List.length_take]
        omega
      · rw [List.length_drop, List.length_take]
        omega
    · cases h
  · rintro ⟨before, after, rfl, rfl, rfl⟩
    rw [if_pos (by simp only [List.length_append]; omega), ← List.append_assoc,
      List.take_left' (by simp), List.drop_left]

theorem slice?_of_drop (hd : tokens.drop first = part ++ after) (hle : first ≤ tokens.length) :
    slice? tokens first (first + part.length) = some part := by
  refine slice?_eq_some_iff.mpr ⟨tokens.take first, after, ?_, ?_, rfl⟩
  · rw [← hd, List.take_append_drop]
  · rw [List.length_take, Nat.min_eq_left hle]

/-- A part keeps its tokens and their order. -/
theorem getElem?_of_slice (hpart : slice? tokens first last = some part)
    (hl : part[i]? = some l) : tokens[first + i]? = some l := by
  obtain ⟨before, after, rfl, rfl, -⟩ := slice?_eq_some_iff.mp hpart
  rw [List.getElem?_append_right (Nat.le_add_right ..), Nat.add_sub_cancel_left,
    List.getElem?_append_left (List.getElem?_eq_some_iff.mp hl).1, hl]

/-- A part of a part is a part of all. -/
theorem slice?_of_slice (hpart : slice? tokens first last = some part)
    (hwithin : slice? part i j = some within) :
    slice? tokens (first + i) (first + j) = some within := by
  obtain ⟨before, after, rfl, rfl, -⟩ := slice?_eq_some_iff.mp hpart
  obtain ⟨front, back, rfl, rfl, rfl⟩ := slice?_eq_some_iff.mp hwithin
  refine slice?_eq_some_iff.mpr ⟨before ++ front, back ++ after, ?_, ?_, ?_⟩
  · simp only [List.append_assoc]
  · rw [List.length_append]
  · rw [Nat.add_assoc]

section closing
variable {l : Lexeme}

theorem closeOffset?_opening (h : l.token = .opening) (depth : Nat) (rest : List Lexeme) :
    closeOffset? depth (l :: rest) = (closeOffset? (depth + 1) rest).map (· + 1) := by
  simp [closeOffset?, h]

theorem closeOffset?_closing (h : l.token = .closing) (depth : Nat) (rest : List Lexeme) :
    closeOffset? (depth + 1) (l :: rest) =
      if depth = 0 then some 0 else (closeOffset? depth rest).map (· + 1) := by
  simp [closeOffset?, h]

theorem closeOffset?_inner (h : l.IsInner) (depth : Nat) (rest : List Lexeme) :
    closeOffset? depth (l :: rest) = (closeOffset? depth rest).map (· + 1) := by
  obtain ⟨ho, hc⟩ := h
  cases ht : l.token <;> simp_all [closeOffset?]

/-- Counting brackets finds the end of the group that is cut off. -/
theorem closeOffset?_eq_map (depth : Nat) (tokens : List Lexeme) :
    closeOffset? (depth + 1) tokens = (splitGroup? depth tokens).map (·.1.length) := by
  induction tokens generalizing depth with
  | nil => rfl
  | cons l rest ih =>
    rcases l.bracket_cases with ho | hc | hi
    · rw [closeOffset?_opening ho, splitGroup?_opening ho, ih, Option.map_map, Option.map_map]
      rfl
    · cases depth with
      | zero => rw [closeOffset?_closing hc, splitGroup?_closing_zero hc]; rfl
      | succ depth =>
        rw [closeOffset?_closing hc, if_neg (Nat.succ_ne_zero depth), splitGroup?_closing hc, ih,
          Option.map_map, Option.map_map]
        rfl
    · rw [closeOffset?_inner hi, splitGroup?_inner hi, ih, Option.map_map, Option.map_map]
      rfl

theorem matchingClose?_eq_map (hl : tokens[opening]? = some l) (ho : l.token = .opening) :
    matchingClose? tokens opening =
      (splitGroup? 0 (tokens.drop (opening + 1))).map
        fun group => opening + 1 + group.1.length := by
  obtain ⟨hlt, rfl⟩ := List.getElem?_eq_some_iff.mp hl
  rw [matchingClose?, List.drop_eq_getElem_cons hlt, closeOffset?_opening ho, closeOffset?_eq_map,
    Option.map_map, Option.map_map]
  congr 1
  funext group
  simp only [Function.comp]
  omega

/-- The bracket that closes an opening one is the one behind its group. -/
theorem matchingClose?_eq_some_iff (hl : tokens[opening]? = some l) (ho : l.token = .opening) :
    matchingClose? tokens opening = some close ↔
      ∃ inside after, ∃ closing : Lexeme, closing.token = .closing ∧
        tokens.drop opening = l :: (inside ++ closing :: after) ∧ depthAfter 0 inside = some 0 ∧
        close = opening + 1 + inside.length := by
  obtain ⟨hlt, rfl⟩ := List.getElem?_eq_some_iff.mp hl
  rw [matchingClose?_eq_map hl ho, Option.map_eq_some_iff, List.drop_eq_getElem_cons hlt]
  constructor
  · rintro ⟨⟨inside, after⟩, hsplit, rfl⟩
    obtain ⟨closing, hc, hrest, hi⟩ := splitGroup?_eq_some_iff.mp hsplit
    exact ⟨inside, after, closing, hc, congrArg _ hrest, hi, rfl⟩
  · rintro ⟨inside, after, closing, hc, hrest, hi, rfl⟩
    have hsplit := splitGroup?_eq_some_iff.mpr ⟨closing, hc, List.tail_eq_of_cons_eq hrest, hi⟩
    exact ⟨(inside, after), hsplit, rfl⟩

/-- A bracket in a part of the tokens is closed there by the bracket that closes it in all. -/
theorem matchingClose?_of_slice (hpart : slice? tokens first last = some part)
    (hl : part[opening]? = some l) (ho : l.token = .opening)
    (hclose : matchingClose? part opening = some close) :
    matchingClose? tokens (first + opening) = some (first + close) := by
  obtain ⟨inside, after, closing, hc, hd, hi, rfl⟩ := (matchingClose?_eq_some_iff hl ho).mp hclose
  have hle := (List.getElem?_eq_some_iff.mp hl).1.le
  refine (matchingClose?_eq_some_iff (getElem?_of_slice hpart hl) ho).mpr ?_
  obtain ⟨before, behind, rfl, rfl, -⟩ := slice?_eq_some_iff.mp hpart
  refine ⟨inside, after ++ behind, closing, hc, ?_, hi, by omega⟩
  rw [List.drop_length_add_append, List.drop_append_of_le_length hle, hd]
  simp only [List.cons_append, List.append_assoc]

end closing

/-- An opening bracket at the index, with the bracket that closes it. -/
def pairAt? (tokens : List Lexeme) (opening : Nat) : Option (Nat × Nat) :=
  if tokens[opening]?.any (·.token == .opening) then
    (matchingClose? tokens opening).map (opening, ·)
  else none

/-- The pairs of brackets that match, in the order in which they are opened. -/
def bracketPairs (tokens : List Lexeme) : List (Nat × Nat) :=
  (List.range tokens.length).filterMap (pairAt? tokens)

/-- Both brackets of the inner pair stand between those of the outer one. -/
def Encloses (outer inner : Nat × Nat) : Prop :=
  outer.1 < inner.1 ∧ inner.2 < outer.2

instance (outer inner : Nat × Nat) : Decidable (Encloses outer inner) :=
  inferInstanceAs (Decidable (_ ∧ _))

/-- The largest number of bracket pairs each of which stands in the one before. -/
def nesting (tokens : List Lexeme) : Nat :=
  (((bracketPairs tokens).sublists.filter fun pairs => pairs.Pairwise Encloses).map
    List.length).max?.getD 0

example : nesting (lexemes "((1) + (2)) * ((3)") = 2 := by decide

theorem pairAt?_eq_some_iff {tokens : List Lexeme} {opening : Nat} :
    pairAt? tokens opening = some p ↔
      (∃ l, tokens[opening]? = some l ∧ l.token = .opening) ∧
        ∃ close, matchingClose? tokens opening = some close ∧ p = (opening, close) := by
  rw [pairAt?, Option.ite_none_right_eq_some, Option.any_eq_true, Option.map_eq_some_iff]
  simp only [beq_iff_eq, @eq_comm _ p]

theorem mem_bracketPairs {tokens : List Lexeme} {opening close : Nat}
    (hl : tokens[opening]? = some l) (ho : l.token = .opening)
    (hclose : matchingClose? tokens opening = some close) :
    (opening, close) ∈ bracketPairs tokens :=
  List.mem_filterMap.mpr ⟨opening, List.mem_range.mpr (List.getElem?_eq_some_iff.mp hl).1,
    pairAt?_eq_some_iff.mpr ⟨⟨l, hl, ho⟩, close, hclose, rfl⟩⟩

theorem pairwise_bracketPairs (tokens : List Lexeme) :
    (bracketPairs tokens).Pairwise fun p q => p.1 < q.1 := by
  rw [bracketPairs, List.pairwise_filterMap]
  apply List.pairwise_lt_range.imp
  intro i j hij p hp q hq
  obtain ⟨-, -, -, rfl⟩ := pairAt?_eq_some_iff.mp hp
  obtain ⟨-, -, -, rfl⟩ := pairAt?_eq_some_iff.mp hq
  exact hij

/-- No more pairs than that stand in one another. -/
theorem length_le_nesting {pairs : List (Nat × Nat)} (hmem : ∀ p ∈ pairs, p ∈ bracketPairs tokens)
    (h : pairs.Pairwise Encloses) : pairs.length ≤ nesting tokens := by
  have hsorted : pairs.Pairwise fun p q => p.1 < q.1 := h.imp And.left
  have hnodup : pairs.Nodup := hsorted.imp fun hlt he => Nat.ne_of_lt hlt (congrArg Prod.fst he)
  have : Std.Antisymm fun p q : Nat × Nat => p.1 < q.1 :=
    ⟨fun _ _ hlt hgt => absurd hgt (Nat.lt_asymm hlt)⟩
  have hsub : pairs.Sublist (bracketPairs tokens) :=
    List.sublist_of_subperm_of_pairwise (List.subperm_of_subset hnodup hmem) hsorted
      (pairwise_bracketPairs tokens)
  have hlength : pairs.length ∈ ((bracketPairs tokens).sublists.filter
      fun pairs => pairs.Pairwise Encloses).map List.length :=
    List.mem_map_of_mem (List.mem_filter.mpr ⟨List.mem_sublists.mpr hsub, decide_eq_true h⟩)
  obtain ⟨most, hmost⟩ := Option.isSome_iff_exists.mp (List.isSome_max?_of_mem hlength)
  rw [nesting, hmost, Option.getD_some]
  exact (List.max?_eq_some_iff.mp hmost).2 _ hlength

end Make24
