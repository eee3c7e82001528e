import Make24.Expression.Token

namespace Make24

/-- Cuts the tokens behind an opening bracket in two at the bracket that closes it, which neither
part holds. `depth` brackets opened since are still to be closed before. -/
def splitGroup? (depth : Nat) : List Lexeme → Option (List Lexeme × List Lexeme)
  | [] => none
  | l :: rest =>
    match l.token, depth with
    | .closing, 0 => some ([], rest)
    | .closing, depth + 1 => (splitGroup? depth rest).map (fun (ins, after) => (l :: ins, after))
    | .opening, depth =>
      (splitGroup? (depth + 1) rest).map (fun (ins, after) => (l :: ins, after))
    | _, depth => (splitGroup? depth rest).map (fun (ins, after) => (l :: ins, after))

theorem eq_of_splitGroup? (h : splitGroup? depth tokens = some (inside, after)) :
    ∃ close : Lexeme, close.token = .closing ∧ tokens = inside ++ close :: after := by
  induction tokens generalizing depth inside with
  | nil => simp [splitGroup?] at h
  | cons l rest ih =>
    unfold splitGroup? at h
    split at h
    · next hl =>
      cases h
      exact ⟨l, hl, rfl⟩
    all_goals
      obtain ⟨⟨ins, aft⟩, hs, he⟩ := Option.map_eq_some_iff.mp h
      cases he
      obtain ⟨close, hc, rfl⟩ := ih hs
      exact ⟨close, hc, rfl⟩

/-- Both parts are shorter than what was cut. -/
theorem length_of_splitGroup? (h : splitGroup? depth tokens = some (inside, after)) :
    inside.length + after.length < tokens.length := by
  obtain ⟨close, _, rfl⟩ := eq_of_splitGroup? h
  simp only [List.length_append, List.length_cons]
  omega

end Make24
