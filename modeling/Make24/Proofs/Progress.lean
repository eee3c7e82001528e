import Make24.Proofs.Machine
import Make24.Proofs.Matching

namespace Make24

/-- The index in the whole list of the token that the level comes to next. -/
def Frame.index (f : Frame α) : Nat :=
  f.start + f.cursor

/-- What a step that does not end the evaluation does to the levels: the innermost one goes on by
one token, or it waits behind a group whose tokens are a level of their own now, or it is done and
the one around it goes on from where it waits. -/
inductive Advances : Machine α → Machine α → Prop where
  | along (here : cursor < level.length) :
      Advances ⟨hand, steps, ⟨start, level, cursor, pending⟩, callers⟩
        ⟨hand', steps', ⟨start, level, cursor + 1, pending'⟩, callers⟩
  | into (here : level[cursor]? = some l) (opens : l.token = .opening)
      (closed : matchingClose? level cursor = some close)
      (between : slice? level (cursor + 1) close = some inside)
      (forward : cursor < close ∧ close < level.length) (shorter : inside.length < level.length) :
      Advances ⟨hand, steps, ⟨start, level, cursor, pending⟩, callers⟩
        ⟨hand', steps', ⟨start + cursor + 1, inside, 0, .empty⟩,
          ⟨start, level, close + 1, pending⟩ :: callers⟩
  | back (done : level.length ≤ cursor) :
      Advances ⟨hand, steps, ⟨start, level, cursor, pending⟩,
          ⟨start', level', cursor', pending'⟩ :: callers⟩
        ⟨hand', steps', ⟨start', level', cursor', pending''⟩, callers⟩

theorem advances_of_step {m m' : Machine α} (h : m.step ar = .on m') : Advances m m' := by
  cases follows_of_step h with
  | spend ahead move => exact .along (lt_length_of_drop ahead)
  | combine ahead move => exact .along (lt_length_of_drop ahead)
  | @enter l rest hand inside after steps start level cursor pending callers ahead move =>
    obtain ⟨closing, hc, rfl, hi⟩ := eq_of_enter move
    have hl := getElem?_of_drop ahead
    have ho := (nextMove_eq_enter_iff.mp move).1
    have hlt := lt_length_of_drop ahead
    have hbehind : level.length - after.length = cursor + 1 + inside.length + 1 := by
      rw [length_sub_of_drop ahead]
      simp only [List.length_cons, List.length_append, List.length_nil]
      omega
    rw [hbehind]
    refine .into hl ho ?_ (slice?_of_drop (drop_succ_of_drop ahead) hlt) ?_ ?_
    · exact (matchingClose?_eq_some_iff hl ho).mpr ⟨inside, after, closing, hc, ahead, hi, rfl⟩
    · omega
    · omega
  | leave done given => exact .back (List.drop_eq_nil_iff.mp done)

/-- The levels are those of brackets in one another, and each one waits where the one inside it will
be done with. -/
inductive Nested {α : Type} (tokens : List Lexeme) : Frame α → List (Frame α) → Prop where
  | whole (bound : cursor ≤ tokens.length) : Nested tokens ⟨0, tokens, cursor, pending⟩ []
  | group (outer : Nested tokens caller callers) (bound : cursor ≤ level.length)
      (part : slice? tokens (opening + 1) (opening + 1 + level.length) = some level)
      (pair : (opening, opening + 1 + level.length) ∈ bracketPairs tokens)
      (inside : caller.start ≤ opening)
      (resumes : caller.index = opening + 1 + level.length + 1) :
      Nested tokens ⟨opening + 1, level, cursor, pending⟩ (caller :: callers)

namespace Nested
variable {tokens : List Lexeme} {frame : Frame α} {callers : List (Frame α)}

theorem bound (h : Nested tokens frame callers) : frame.cursor ≤ frame.level.length := by
  cases h with
  | whole bound => exact bound
  | group outer bound => exact bound

/-- Every level is a part of all tokens. -/
theorem part (h : Nested tokens frame callers) :
    slice? tokens frame.start (frame.start + frame.level.length) = some frame.level := by
  cases h with
  | whole => exact slice?_of_drop (List.append_nil tokens).symm (Nat.zero_le _)
  | group outer bound part => exact part

theorem part_of_mem (h : Nested tokens frame callers) :
    ∀ f ∈ frame :: callers, slice? tokens f.start (f.start + f.level.length) = some f.level := by
  induction h with
  | whole bound => exact List.forall_mem_singleton.mpr (Nested.whole bound).part
  | group outer bound part pair inside resumes ih => exact List.forall_mem_cons.mpr ⟨part, ih⟩

theorem index_le (h : Nested tokens frame callers) : frame.index ≤ tokens.length := by
  obtain ⟨before, after, he, hstart, -⟩ := slice?_eq_some_iff.mp h.part
  have hlength := congrArg List.length he
  have hbound := h.bound
  simp only [List.length_append] at hlength
  simp only [Frame.index]
  omega

theorem setCursor (h : Nested tokens frame callers) {cursor : Nat} (pending : Pending α)
    (hbound : cursor ≤ frame.level.length) :
    Nested tokens ⟨frame.start, frame.level, cursor, pending⟩ callers := by
  cases h with
  | whole => exact .whole hbound
  | group outer _ part pair inside resumes => exact .group outer hbound part pair inside resumes

/-- Every step comes to the next token or to the next bracket that closes. -/
theorem advance {m m' : Machine α} (h : Nested tokens m.frame m.callers) (ha : Advances m m') :
    Nested tokens m'.frame m'.callers ∧ m'.frame.index = m.frame.index + 1 := by
  cases ha with
  | along here => exact ⟨h.setCursor _ here, rfl⟩
  | into here opens closed between forward shorter =>
    have hpart := slice?_of_slice h.part between
    have hclose := matchingClose?_of_slice h.part here opens closed
    obtain ⟨-, -, -, -, rfl⟩ := slice?_eq_some_iff.mp between
    simp only [← Nat.add_assoc] at hpart hclose
    refine ⟨.group (h.setCursor _ forward.2) (Nat.zero_le _) hpart ?_ ?_ ?_, rfl⟩
    · exact mem_bracketPairs (getElem?_of_slice h.part here) opens hclose
    · exact Nat.le_add_right ..
    · simp only [Frame.index]
      omega
  | back done =>
    cases h with
    | group outer bound part pair inside resumes =>
      refine ⟨outer.setCursor _ outer.bound, ?_⟩
      simp only [Frame.index] at resumes ⊢
      omega

/-- The brackets around the innermost level stand in one another. -/
theorem exists_pairs (h : Nested tokens frame callers) :
    ∃ pairs : List (Nat × Nat), pairs.length = callers.length ∧
      (∀ p ∈ pairs, p ∈ bracketPairs tokens) ∧ pairs.Pairwise Encloses ∧
      ∀ p ∈ pairs, p.1 < frame.start ∧ frame.start + frame.level.length ≤ p.2 := by
  induction h with
  | whole => exact ⟨[], rfl, by simp, .nil, by simp⟩
  | @group caller callers cursor opening level pending outer bound part pair inside resumes ih =>
    obtain ⟨pairs, hlength, hmem, hpairwise, haround⟩ := ih
    have hwithin : opening + 1 + level.length < caller.start + caller.level.length := by
      have := outer.bound
      simp only [Frame.index] at resumes
      omega
    refine ⟨pairs ++ [(opening, opening + 1 + level.length)], by simp [hlength], ?_, ?_, ?_⟩
    · simpa [or_imp, forall_and, pair] using hmem
    · refine List.pairwise_append.mpr ⟨hpairwise, List.pairwise_singleton .., ?_⟩
      intro p hp q hq
      obtain rfl := List.mem_singleton.mp hq
      obtain ⟨hbefore, hbehind⟩ := haround p hp
      exact ⟨hbefore.trans_le inside, hwithin.trans_le hbehind⟩
    · intro p hp
      rcases List.mem_append.mp hp with hp | hp
      · obtain ⟨hbefore, hbehind⟩ := haround p hp
        exact ⟨hbefore.trans_le (inside.trans (Nat.le_succ _)), (hwithin.trans_le hbehind).le⟩
      · obtain rfl := List.mem_singleton.mp hp
        exact ⟨Nat.lt_succ_self _, le_rfl⟩

theorem length_le (h : Nested tokens frame callers) : callers.length ≤ nesting tokens := by
  obtain ⟨pairs, hlength, hmem, hpairwise, -⟩ := h.exists_pairs
  exact hlength ▸ length_le_nesting hmem hpairwise

end Nested

/-- The token that the turn handles, with its index in the whole list. There is none at the end of a
level. -/
def Turn.visit? : Turn α → Option (Nat × Lexeme)
  | .on m => m.frame.level[m.frame.cursor]?.map (m.frame.index, ·)
  | .ended _ => none

/-- The tokens that the loops of all levels handle in so many turns, with their indices. -/
def visits (ar : Arithmetic α) (hand : Hand) (tokens : List Lexeme) (n : Nat) :
    List (Nat × Lexeme) :=
  (List.range n).filterMap fun k => (run ar hand tokens k).visit?

section run
variable {ar : Arithmetic α} {hand : Hand} {tokens : List Lexeme}

/-- As many turns as there were, as many tokens and closing brackets lie behind. -/
theorem nested_of_run {m : Machine α} (h : run ar hand tokens n = .on m) :
    Nested tokens m.frame m.callers ∧ m.frame.index = n := by
  induction n generalizing m with
  | zero =>
    cases h
    exact ⟨.whole (Nat.zero_le _), rfl⟩
  | succ n ih =>
    obtain ⟨before, hbefore, hstep⟩ := exists_step_of_run_succ h
    obtain ⟨hnested, hindex⟩ := ih hbefore
    obtain ⟨hnested', hindex'⟩ := hnested.advance (advances_of_step hstep)
    exact ⟨hnested', hindex'.trans (congrArg (· + 1) hindex)⟩

theorem run_length_succ (ar : Arithmetic α) (hand : Hand) (tokens : List Lexeme) :
    run ar hand tokens (tokens.length + 1) = .ended (evaluateLevel ar hand .whole tokens) := by
  cases h : run ar hand tokens (tokens.length + 1) with
  | on m =>
    obtain ⟨hnested, hindex⟩ := nested_of_run h
    have := hnested.index_le
    omega
  | ended outcome => rw [eq_of_run h]

theorem getElem?_of_visit (h : (run ar hand tokens n).visit? = some p) :
    p.1 = n ∧ tokens[p.1]? = some p.2 := by
  cases hr : run ar hand tokens n with
  | on m =>
    rw [hr, Turn.visit?, Option.map_eq_some_iff] at h
    obtain ⟨l, hl, rfl⟩ := h
    obtain ⟨hnested, hindex⟩ := nested_of_run hr
    exact ⟨hindex, getElem?_of_slice hnested.part hl⟩
  | ended outcome =>
    rw [hr] at h
    cases h

theorem getElem?_of_mem_visits (h : p ∈ visits ar hand tokens n) : tokens[p.1]? = some p.2 := by
  obtain ⟨k, -, hk⟩ := List.mem_filterMap.mp h
  exact (getElem?_of_visit hk).2

theorem pairwise_visits (ar : Arithmetic α) (hand : Hand) (tokens : List Lexeme) (n : Nat) :
    (visits ar hand tokens n).Pairwise fun p q => p.1 < q.1 := by
  rw [visits, List.pairwise_filterMap]
  apply List.pairwise_lt_range.imp
  intro i j hij p hp q hq
  rw [(getElem?_of_visit hp).1, (getElem?_of_visit hq).1]
  exact hij

theorem length_visits_le (ar : Arithmetic α) (hand : Hand) (tokens : List Lexeme) (n : Nat) :
    (visits ar hand tokens n).length ≤ tokens.length := by
  have hnodup : ((visits ar hand tokens n).map Prod.fst).Nodup :=
    (List.pairwise_map.mpr (pairwise_visits ar hand tokens n)).imp Nat.ne_of_lt
  have hsubset : (visits ar hand tokens n).map Prod.fst ⊆ List.range tokens.length := by
    intro i hi
    obtain ⟨p, hp, rfl⟩ := List.mem_map.mp hi
    exact List.mem_range.mpr (List.getElem?_eq_some_iff.mp (getElem?_of_mem_visits hp)).1
  have hlength := (List.subperm_of_subset hnodup hsubset).length_le
  rwa [List.length_map, List.length_range] at hlength

end run

/-- The evaluation of a list of tokens ends, at the latest one turn behind the last token. Its loops
handle tokens from left to right and none twice. At every turn no more levels wait than brackets
stand in one another, each level is a part of all tokens, and a step goes on in its level, into the
shorter level between two brackets that match, or back behind them. From every turn on, the
innermost level comes to what the scan of the rest of its tokens comes to. -/
theorem run_bounded (ar : Arithmetic α) (hand : Hand) (tokens : List Lexeme) :
    run ar hand tokens (tokens.length + 1) = .ended (evaluateLevel ar hand .whole tokens) ∧
      (∀ n, (visits ar hand tokens n).Pairwise (fun p q => p.1 < q.1) ∧
        (∀ p ∈ visits ar hand tokens n, tokens[p.1]? = some p.2) ∧
        (visits ar hand tokens n).length ≤ tokens.length) ∧
      ∀ n m, run ar hand tokens n = .on m →
        m.callers.length ≤ nesting tokens ∧
        (∀ f ∈ m.frame :: m.callers,
          slice? tokens f.start (f.start + f.level.length) = some f.level) ∧
        (∀ m', m.step ar = .on m' → Advances m m') ∧
        ScansTo ar m.frame.start m.frame.level m.callers (.on m)
          ((scan ar m.hand m.frame.pending (m.frame.level.drop m.frame.cursor)).after m.steps) := by
  refine ⟨run_length_succ ar hand tokens, ?_, ?_⟩
  · intro n
    exact ⟨pairwise_visits ar hand tokens n, fun _ => getElem?_of_mem_visits,
      length_visits_le ar hand tokens n⟩
  · intro n m h
    obtain ⟨hnested, -⟩ := nested_of_run h
    exact ⟨hnested.length_le, hnested.part_of_mem, fun _ => advances_of_step,
      scansTo_scan ar m.hand m.frame.pending _ m.steps _ _ _ m.callers rfl⟩

end Make24
