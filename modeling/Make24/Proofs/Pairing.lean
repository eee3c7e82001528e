import Mathlib.Order.Bounds.Basic
import Make24.Proofs.Matching

namespace Make24

/-- Nothing is closed that was not opened before, and nothing stays open. -/
structure Balanced (tokens : List Lexeme) : Prop where
  front : ∀ part, part <+: tokens → closes part ≤ opens part
  total : opens tokens = closes tokens

/-- As many brackets are closed as opened from the first index on, up to a last one behind it. -/
def EvensOut (tokens : List Lexeme) (first last : Nat) : Prop :=
  first < last ∧ ∃ part, slice? tokens first (last + 1) = some part ∧ opens part = closes part

theorem closes_le_opens (h : depthAfter 0 tokens = some depth) (hpart : part <+: tokens) :
    closes part ≤ opens part := by
  apply Nat.not_lt.mp
  intro hlt
  have hnone := depthAfter_eq_none_iff.mpr ⟨part, hpart, (Nat.zero_add (opens part)).symm ▸ hlt⟩
  rw [h] at hnone
  cases hnone

theorem balanced_iff : Balanced tokens ↔ depthAfter 0 tokens = some 0 := by
  constructor
  · intro h
    cases hd : depthAfter 0 tokens with
    | none =>
      obtain ⟨part, hpart, hlt⟩ := depthAfter_eq_none_iff.mp hd
      have hle := h.front part hpart
      omega
    | some depth =>
      have hcounts := counts_of_depthAfter hd
      have htotal := h.total
      rw [show depth = 0 by omega]
  · intro h
    have hcounts := counts_of_depthAfter h
    exact ⟨fun part => closes_le_opens h, by omega⟩

/-- An opened bracket stays open as long as no more brackets are closed than opened behind it. -/
theorem closes_lt_opens (ho : l.token = .opening) (h : depthAfter 0 tokens = some depth)
    (hfront : front <+: tokens) : closes (l :: front) < opens (l :: front) := by
  have hle := closes_le_opens h hfront
  have hcounts := counts_opening ho front
  omega

/-- A part that begins at a token. -/
theorem eq_cons_of_slice (hd : tokens.drop first = l :: rest)
    (hpart : slice? tokens first (last + 1) = some part) (hle : first ≤ last) :
    ∃ front, part = l :: front ∧ front <+: rest ∧ last = first + front.length := by
  obtain ⟨before, after, rfl, rfl, hlast⟩ := slice?_eq_some_iff.mp hpart
  rw [List.drop_left] at hd
  cases part with
  | nil =>
    rw [List.length_nil] at hlast
    omega
  | cons m front =>
    obtain ⟨rfl, rfl⟩ := List.cons.inj hd
    rw [List.length_cons] at hlast
    exact ⟨front, rfl, List.prefix_append .., by omega⟩

section matching
variable {tokens : List Lexeme} {opening : Nat} (hl : tokens[opening]? = some l)
  (ho : l.token = .opening)
include hl ho

/-- Up to the bracket that closes it, a bracket stays open. -/
theorem closes_lt_of_lt_close (hclose : matchingClose? tokens opening = some close)
    (hpart : slice? tokens opening (last + 1) = some part) (hle : opening ≤ last)
    (hlt : last < close) : closes part < opens part := by
  obtain ⟨inside, after, closing, hc, hd, hi, rfl⟩ := (matchingClose?_eq_some_iff hl ho).mp hclose
  obtain ⟨front, rfl, hfront, rfl⟩ := eq_cons_of_slice hd hpart hle
  have hinside : front <+: inside :=
    List.prefix_of_prefix_length_le hfront (List.prefix_append ..) (by omega)
  exact closes_lt_opens ho hi hinside

/-- A bracket that is closed nowhere stays open. -/
theorem closes_lt_of_no_close (hnone : matchingClose? tokens opening = none)
    (hpart : slice? tokens opening (last + 1) = some part) (hle : opening ≤ last) :
    closes part < opens part := by
  obtain ⟨hlt, rfl⟩ := List.getElem?_eq_some_iff.mp hl
  have hd := List.drop_eq_getElem_cons hlt
  obtain ⟨front, rfl, hfront, rfl⟩ := eq_cons_of_slice hd hpart hle
  rw [matchingClose?_eq_map hl ho, Option.map_eq_none_iff] at hnone
  cases hdepth : depthAfter 0 (tokens.drop (opening + 1)) with
  | none =>
    rw [← splitGroup?_isSome_iff, hnone] at hdepth
    cases hdepth
  | some depth => exact closes_lt_opens ho hdepth hfront

theorem evensOut_of_matchingClose? (hclose : matchingClose? tokens opening = some close) :
    EvensOut tokens opening close := by
  obtain ⟨inside, after, closing, hc, hd, hi, rfl⟩ := (matchingClose?_eq_some_iff hl ho).mp hclose
  have hcounts := counts_of_depthAfter (depthAfter_group ho hc hi 0 [])
  have hd : tokens.drop opening = (l :: (inside ++ [closing])) ++ after := by simpa using hd
  have hpart := slice?_of_drop hd (List.getElem?_eq_some_iff.mp hl).1.le
  have hlast : opening + (l :: (inside ++ [closing])).length = opening + 1 + inside.length + 1 := by
    simp only [List.length_cons, List.length_append, List.length_nil]
    omega
  rw [hlast] at hpart
  exact ⟨by omega, _, hpart, by omega⟩

/-- The bracket that closes an opening one is the first at which as many are closed as opened. -/
theorem matchingClose?_eq_some_iff_isLeast :
    matchingClose? tokens opening = some close ↔
      IsLeast {last | EvensOut tokens opening last} close := by
  have hleast {close : Nat} (hclose : matchingClose? tokens opening = some close) :
      IsLeast {last | EvensOut tokens opening last} close := by
    refine ⟨evensOut_of_matchingClose? hl ho hclose, ?_⟩
    rintro last ⟨hlt, part, hpart, heven⟩
    apply Nat.not_lt.mp
    intro hbefore
    have hopen := closes_lt_of_lt_close hl ho hclose hpart hlt.le hbefore
    omega
  constructor
  · exact hleast
  · intro h
    cases hm : matchingClose? tokens opening with
    | some first => rw [(hleast hm).unique h]
    | none =>
      obtain ⟨hlt, part, hpart, heven⟩ := h.1
      have hopen := closes_lt_of_no_close hl ho hm hpart hlt.le
      omega

theorem matchingClose?_eq_none_iff :
    matchingClose? tokens opening = none ↔ ∀ last, ¬ EvensOut tokens opening last := by
  constructor
  · rintro hnone last ⟨hlt, part, hpart, heven⟩
    have hopen := closes_lt_of_no_close hl ho hnone hpart hlt.le
    omega
  · intro hnever
    apply Option.eq_none_iff_forall_ne_some.mpr
    intro close hclose
    exact hnever close (evensOut_of_matchingClose? hl ho hclose)

/-- The evaluation cuts a group at the bracket that closes it. -/
theorem splitGroup?_of_matchingClose? (hclose : matchingClose? tokens opening = some close) :
    ∃ inside, slice? tokens (opening + 1) close = some inside ∧
      splitGroup? 0 (tokens.drop (opening + 1)) = some (inside, tokens.drop (close + 1)) ∧
      Balanced inside := by
  obtain ⟨inside, after, closing, hc, hd, hi, rfl⟩ := (matchingClose?_eq_some_iff hl ho).mp hclose
  have hrest : tokens.drop (opening + 1) = inside ++ closing :: after := by
    rw [← List.tail_drop, hd, List.tail_cons]
  have hbehind : tokens.drop (opening + 1 + inside.length + 1) = after := by
    rw [Nat.add_assoc, ← List.drop_drop, hrest, List.drop_length_add_append]
    rfl
  refine ⟨inside, slice?_of_drop hrest (List.getElem?_eq_some_iff.mp hl).1, ?_, balanced_iff.mpr hi⟩
  rw [hbehind]
  exact splitGroup?_eq_some_iff.mpr ⟨closing, hc, hrest, hi⟩

end matching

/-- A bracket in a balanced part is closed in it. -/
theorem Balanced.exists_matchingClose? (h : Balanced tokens) (hl : tokens[opening]? = some l)
    (ho : l.token = .opening) :
    ∃ close, close < tokens.length ∧ matchingClose? tokens opening = some close := by
  obtain ⟨hlt, rfl⟩ := List.getElem?_eq_some_iff.mp hl
  cases hm : matchingClose? tokens opening with
  | some close =>
    obtain ⟨-, part, hpart, -⟩ := evensOut_of_matchingClose? hl ho hm
    obtain ⟨front, back, hall, hfront, hback⟩ := slice?_eq_some_iff.mp hpart
    have hlength := congrArg List.length hall
    simp only [List.length_append] at hlength
    exact ⟨close, by omega, rfl⟩
  | none =>
    -- The tokens from the bracket on would open more than they close.
    have hend : opening + (tokens.drop opening).length = tokens.length - 1 + 1 := by
      rw [List.length_drop]
      omega
    have hpart := slice?_of_drop (List.append_nil (tokens.drop opening)).symm hlt.le
    rw [hend] at hpart
    have hopen := closes_lt_of_no_close hl ho hm hpart (by omega)
    have hfront := h.front _ (List.take_prefix opening tokens)
    have htotal := h.total
    rw [← List.take_append_drop opening tokens, opens_append, closes_append] at htotal
    omega

/-- The tokens inside are what stands between two brackets that match. -/
structure GroupAt (tokens : List Lexeme) (opening close : Nat) (inside : List Lexeme) : Prop where
  stays : ∀ last part, opening ≤ last → last < close →
    slice? tokens opening (last + 1) = some part → closes part < opens part
  between : slice? tokens (opening + 1) close = some inside
  cut : splitGroup? 0 (tokens.drop (opening + 1)) = some (inside, tokens.drop (close + 1))
  balanced : Balanced inside
  pairs : ∀ i m, inside[i]? = some m → m.token = .opening →
    ∃ j, j < inside.length ∧ matchingClose? inside i = some j ∧
      matchingClose? tokens (opening + 1 + i) = some (opening + 1 + j)

theorem exists_groupAt (hl : tokens[opening]? = some l) (ho : l.token = .opening)
    (hclose : matchingClose? tokens opening = some close) :
    ∃ inside, GroupAt tokens opening close inside := by
  obtain ⟨inside, hbetween, hcut, hbalanced⟩ := splitGroup?_of_matchingClose? hl ho hclose
  refine ⟨inside, ?_, hbetween, hcut, hbalanced, ?_⟩
  · intro last part hle hlt hpart
    exact closes_lt_of_lt_close hl ho hclose hpart hle hlt
  · intro i m hm hopens
    obtain ⟨j, hlt, hj⟩ := hbalanced.exists_matchingClose? hm hopens
    exact ⟨j, hlt, hj, matchingClose?_of_slice hbetween hm hopens hj⟩

/-- A later bracket that closes does not matter. -/
example : matchingClose? (lexemes "(1 + (2)) * (3)") 0 = some 6 := by decide

end Make24
