import Mathlib.Data.List.Infix
import Make24.Expression.Group

namespace Make24

/-- How many brackets are open behind some tokens when `depth` are open before them. There is no
number if one of the tokens closes a bracket that was never opened. -/
def depthAfter (depth : Nat) : List Lexeme → Option Nat
  | [] => some depth
  | l :: rest =>
    match l.token, depth with
    | .closing, 0 => none
    | .closing, depth + 1 => depthAfter depth rest
    | .opening, depth => depthAfter (depth + 1) rest
    | _, depth => depthAfter depth rest

/-- The token is no bracket. -/
def Lexeme.IsInner (l : Lexeme) : Prop :=
  l.token ≠ .opening ∧ l.token ≠ .closing

theorem depthAfter_opening (h : l.token = .opening) (depth : Nat) (rest : List Lexeme) :
    depthAfter depth (l :: rest) = depthAfter (depth + 1) rest := by
  simp [depthAfter, h]

theorem depthAfter_closing (h : l.token = .closing) (depth : Nat) (rest : List Lexeme) :
    depthAfter (depth + 1) (l :: rest) = depthAfter depth rest := by
  simp [depthAfter, h]

theorem depthAfter_closing_zero (h : l.token = .closing) (rest : List Lexeme) :
    depthAfter 0 (l :: rest) = none := by
  simp [depthAfter, h]

theorem depthAfter_inner (h : l.IsInner) (depth : Nat) (rest : List Lexeme) :
    depthAfter depth (l :: rest) = depthAfter depth rest := by
  obtain ⟨ho, hc⟩ := h
  cases ht : l.token <;> simp_all [depthAfter]

theorem splitGroup?_opening (h : l.token = .opening) (depth : Nat) (rest : List Lexeme) :
    splitGroup? depth (l :: rest) =
      (splitGroup? (depth + 1) rest).map (fun (ins, after) => (l :: ins, after)) := by
  simp [splitGroup?, h]

theorem splitGroup?_closing (h : l.token = .closing) (depth : Nat) (rest : List Lexeme) :
    splitGroup? (depth + 1) (l :: rest) =
      (splitGroup? depth rest).map (fun (ins, after) => (l :: ins, after)) := by
  simp [splitGroup?, h]

theorem splitGroup?_closing_zero (h : l.token = .closing) (rest : List Lexeme) :
    splitGroup? 0 (l :: rest) = some ([], rest) := by
  simp [splitGroup?, h]

theorem splitGroup?_inner (h : l.IsInner) (depth : Nat) (rest : List Lexeme) :
    splitGroup? depth (l :: rest) =
      (splitGroup? depth rest).map (fun (ins, after) => (l :: ins, after)) := by
  obtain ⟨ho, hc⟩ := h
  cases ht : l.token <;> simp_all [splitGroup?]

/-- A token opens a bracket, closes one, or is none. -/
theorem Lexeme.bracket_cases (l : Lexeme) :
    l.token = .opening ∨ l.token = .closing ∨ l.IsInner := by
  by_cases ho : l.token = .opening
  · exact .inl ho
  · by_cases hc : l.token = .closing
    · exact .inr (.inl hc)
    · exact .inr (.inr ⟨ho, hc⟩)

theorem depthAfter_append (depth : Nat) (ls ms : List Lexeme) :
    depthAfter depth (ls ++ ms) = (depthAfter depth ls).bind (fun d => depthAfter d ms) := by
  induction ls generalizing depth with
  | nil => rfl
  | cons l ls ih =>
    rw [List.cons_append]
    rcases l.bracket_cases with ho | hc | hi
    · rw [depthAfter_opening ho, depthAfter_opening ho, ih]
    · cases depth with
      | zero => rw [depthAfter_closing_zero hc, depthAfter_closing_zero hc, Option.bind_none]
      | succ depth => rw [depthAfter_closing hc, depthAfter_closing hc, ih]
    · rw [depthAfter_inner hi, depthAfter_inner hi, ih]

/-- Brackets that are open all along change nothing else. -/
theorem depthAfter_add (h : depthAfter depth ls = some depth') (more : Nat) :
    depthAfter (depth + more) ls = some (depth' + more) := by
  induction ls generalizing depth with
  | nil =>
    simp only [depthAfter, Option.some.injEq] at h ⊢
    omega
  | cons l ls ih =>
    rcases l.bracket_cases with ho | hc | hi
    · rw [depthAfter_opening ho] at h ⊢
      rw [Nat.add_right_comm]
      exact ih h
    · cases depth with
      | zero =>
        rw [depthAfter_closing_zero hc] at h
        cases h
      | succ depth =>
        rw [depthAfter_closing hc] at h
        rw [Nat.add_right_comm, depthAfter_closing hc]
        exact ih h
    · rw [depthAfter_inner hi] at h ⊢
      exact ih h

/-- A group leaves no bracket open. -/
theorem depthAfter_group (ho : l.token = .opening) (hc : close.token = .closing)
    (hi : depthAfter 0 inside = some 0) (depth : Nat) (more : List Lexeme) :
    depthAfter depth (l :: (inside ++ close :: more)) = depthAfter depth more := by
  have hup : depthAfter (depth + 1) inside = some (depth + 1) := by
    simpa [Nat.add_comm] using depthAfter_add hi (depth + 1)
  rw [depthAfter_opening ho, depthAfter_append, hup, Option.bind_some, depthAfter_closing hc]

/-- The group ends at the first closing bracket in front of which all others are closed. -/
theorem splitGroup?_eq_some_iff :
    splitGroup? depth tokens = some (inside, after) ↔
      ∃ close : Lexeme, close.token = .closing ∧ tokens = inside ++ close :: after ∧
        depthAfter depth inside = some 0 := by
  induction tokens generalizing depth inside with
  | nil => simp [splitGroup?]
  | cons l rest ih =>
    have step (depth' : Nat)
        (hd : ∀ ins, depthAfter depth (l :: ins) = depthAfter depth' ins)
        (hl : l.token ≠ .closing ∨ depth ≠ 0) :
        (splitGroup? depth' rest).map (fun (ins, after) => (l :: ins, after)) =
            some (inside, after) ↔
          ∃ close : Lexeme, close.token = .closing ∧ l :: rest = inside ++ close :: after ∧
            depthAfter depth inside = some 0 := by
      rw [Option.map_eq_some_iff]
      constructor
      · rintro ⟨⟨ins, aft⟩, hs, he⟩
        cases he
        obtain ⟨close, hc, rfl, hz⟩ := ih.mp hs
        exact ⟨close, hc, rfl, (hd ins).trans hz⟩
      · rintro ⟨close, hc, he, hz⟩
        cases inside with
        | nil =>
          obtain ⟨rfl, -⟩ := List.cons.inj he
          have hdepth : depth = 0 := by simpa [depthAfter] using hz
          rcases hl with hl | hl
          · exact absurd hc hl
          · exact absurd hdepth hl
        | cons m ins =>
          obtain ⟨rfl, rfl⟩ := List.cons.inj he
          exact ⟨(ins, after), ih.mpr ⟨close, hc, rfl, (hd ins).symm.trans hz⟩, rfl⟩
    rcases l.bracket_cases with ho | hc | hi
    · rw [splitGroup?_opening ho]
      exact step _ (depthAfter_opening ho depth) (.inl (by simp [ho]))
    · cases depth with
      | zero =>
        rw [splitGroup?_closing_zero hc]
        constructor
        · intro h
          cases h
          exact ⟨l, hc, rfl, rfl⟩
        · rintro ⟨close, hclose, he, hz⟩
          cases inside with
          | nil =>
            obtain ⟨-, rfl⟩ := List.cons.inj he
            rfl
          | cons m ins =>
            obtain ⟨rfl, rfl⟩ := List.cons.inj he
            rw [depthAfter_closing_zero hc] at hz
            cases hz
      | succ depth =>
        rw [splitGroup?_closing hc]
        exact step _ (depthAfter_closing hc depth) (.inr (by omega))
    · rw [splitGroup?_inner hi]
      exact step _ (depthAfter_inner hi depth) (.inl hi.2)

/-- There is a group to cut off exactly if some bracket is closed that is not opened. -/
theorem splitGroup?_isSome_iff :
    (splitGroup? depth tokens).isSome = true ↔ depthAfter depth tokens = none := by
  induction tokens generalizing depth with
  | nil => simp [splitGroup?, depthAfter]
  | cons l rest ih =>
    rcases l.bracket_cases with ho | hc | hi
    · rw [splitGroup?_opening ho, depthAfter_opening ho, Option.isSome_map, ih]
    · cases depth with
      | zero => rw [splitGroup?_closing_zero hc, depthAfter_closing_zero hc]; simp
      | succ depth => rw [splitGroup?_closing hc, depthAfter_closing hc, Option.isSome_map, ih]
    · rw [splitGroup?_inner hi, depthAfter_inner hi, Option.isSome_map, ih]

/-- How many brackets some tokens open. -/
def opens (ls : List Lexeme) : Nat :=
  ls.countP (fun l => l.token == .opening)

/-- How many brackets some tokens close. -/
def closes (ls : List Lexeme) : Nat :=
  ls.countP (fun l => l.token == .closing)

theorem opens_append (ls ms : List Lexeme) : opens (ls ++ ms) = opens ls + opens ms :=
  List.countP_append

theorem closes_append (ls ms : List Lexeme) : closes (ls ++ ms) = closes ls + closes ms :=
  List.countP_append

theorem counts_opening (h : l.token = .opening) (ls : List Lexeme) :
    opens (l :: ls) = opens ls + 1 ∧ closes (l :: ls) = closes ls := by
  simp [opens, closes, h]

theorem counts_closing (h : l.token = .closing) (ls : List Lexeme) :
    opens (l :: ls) = opens ls ∧ closes (l :: ls) = closes ls + 1 := by
  simp [opens, closes, h]

theorem counts_inner (h : l.IsInner) (ls : List Lexeme) :
    opens (l :: ls) = opens ls ∧ closes (l :: ls) = closes ls := by
  simp [opens, closes, h.1, h.2]

theorem counts_of_depthAfter (h : depthAfter depth ls = some depth') :
    depth' + closes ls = depth + opens ls := by
  induction ls generalizing depth with
  | nil => simpa [depthAfter, opens, closes, eq_comm] using h
  | cons l ls ih =>
    rcases l.bracket_cases with ho | hc | hi
    · rw [depthAfter_opening ho] at h
      have := ih h
      have := counts_opening ho ls
      omega
    · cases depth with
      | zero =>
        rw [depthAfter_closing_zero hc] at h
        cases h
      | succ depth =>
        rw [depthAfter_closing hc] at h
        have := ih h
        have := counts_closing hc ls
        omega
    · rw [depthAfter_inner hi] at h
      have := ih h
      have := counts_inner hi ls
      omega

/-- A bracket that was never opened is closed exactly if some first tokens close too many. -/
theorem depthAfter_eq_none_iff :
    depthAfter depth ls = none ↔ ∃ part, part <+: ls ∧ depth + opens part < closes part := by
  induction ls generalizing depth with
  | nil => simp [depthAfter, closes]
  | cons l ls ih =>
    have cut (depth' : Nat) (hl : ¬(depth + opens [] < closes []))
        (hd : ∀ part, depth + opens (l :: part) < closes (l :: part) ↔
          depth' + opens part < closes part) :
        (∃ part, part <+: ls ∧ depth' + opens part < closes part) ↔
          ∃ part, part <+: l :: ls ∧ depth + opens part < closes part := by
      constructor
      · rintro ⟨part, hp, hlt⟩
        exact ⟨l :: part, List.cons_prefix_cons.mpr ⟨rfl, hp⟩, (hd part).mpr hlt⟩
      · rintro ⟨part, hp, hlt⟩
        cases part with
        | nil => exact absurd hlt hl
        | cons m part =>
          obtain ⟨rfl, hpart⟩ := List.cons_prefix_cons.mp hp
          exact ⟨part, hpart, (hd part).mp hlt⟩
    have hnil : ¬(depth + opens [] < closes []) := by simp [closes]
    rcases l.bracket_cases with ho | hc | hi
    · rw [depthAfter_opening ho, ih]
      apply cut _ hnil
      intro part
      have := counts_opening ho part
      omega
    · cases depth with
      | zero =>
        rw [depthAfter_closing_zero hc]
        refine ⟨fun _ => ⟨[l], List.cons_prefix_cons.mpr ⟨rfl, List.nil_prefix⟩, ?_⟩, fun _ => rfl⟩
        have := counts_closing hc []
        simp only [opens, closes, List.countP_nil] at this
        simp only [opens, closes]
        omega
      | succ depth =>
        rw [depthAfter_closing hc, ih]
        apply cut _ hnil
        intro part
        have := counts_closing hc part
        omega
    · rw [depthAfter_inner hi, ih]
      apply cut _ hnil
      intro part
      have := counts_inner hi part
      omega

/-- Behind brackets that close no more than is open, some are still open exactly if some last tokens
open more than they close. -/
theorem pos_depthAfter_iff (h : depthAfter 0 ls = some depth) :
    0 < depth ↔ ∃ part, part <:+ ls ∧ closes part < opens part := by
  constructor
  · intro hpos
    have hall := counts_of_depthAfter h
    exact ⟨ls, List.suffix_rfl, by omega⟩
  · rintro ⟨part, ⟨front, rfl⟩, hlt⟩
    rw [depthAfter_append, Option.bind_eq_some_iff] at h
    obtain ⟨mid, -, hpart⟩ := h
    have := counts_of_depthAfter hpart
    omega

end Make24
