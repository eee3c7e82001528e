import Make24.Proofs.Lossless
import Make24.Proofs.Pairing
import Make24.Proofs.Progress
import Make24.Proofs.Surroundings

namespace Make24

/-- The fault says that the bracket at the position has no partner. -/
def Fault.Unpaired (position : Nat) : Fault → Prop
  | .unmatchedParenthesis place => place = position
  | .invalidToken char place => char = ')' ∧ place = position
  | _ => False

/-- What is left of the level stands behind and before other tokens of the text. -/
def Frame.Surrounded (tokens : List Lexeme) (extent : Extent) (f : Frame α) : Prop :=
  ∃ before after depth, tokens = before ++ (f.level.drop f.cursor ++ after) ∧
    before.length = f.index ∧ Surrounds extent before (f.level.drop f.cursor) after depth

/-- Each level, the innermost first, is a group in the next one. -/
def AllSurrounded (tokens : List Lexeme) : List (Frame α) → Prop
  | [] => True
  | f :: callers => f.Surrounded tokens (.inside callers) ∧ AllSurrounded tokens callers

theorem Frame.Surrounded.inner {f : Frame α} (h : f.Surrounded tokens extent)
    (hd : f.level.drop f.cursor = l :: rest) (hl : l.IsInner) (pending : Pending α) :
    Frame.Surrounded tokens extent ⟨f.start, f.level, f.cursor + 1, pending⟩ := by
  obtain ⟨before, after, depth, hall, hlength, hs⟩ := h
  rw [hd] at hall hs
  refine ⟨before ++ [l], after, depth, ?_, ?_, ?_⟩
  · rw [hall, drop_succ_of_drop hd, List.append_assoc]
    rfl
  · rw [List.length_append, hlength]
    rfl
  · rw [drop_succ_of_drop hd]
    exact hs.inner hl

theorem AllSurrounded.follow {m m' : Machine α} (h : Follows ar m m')
    (hm : AllSurrounded tokens (m.frame :: m.callers)) :
    AllSurrounded tokens (m'.frame :: m'.callers) := by
  obtain ⟨hframe, hcallers⟩ := hm
  cases h with
  | spend ahead move =>
    have hl := (nextMove_eq_spend_iff.mp move).1
    exact ⟨hframe.inner ahead ⟨by simp [hl], by simp [hl]⟩ _, hcallers⟩
  | combine ahead move =>
    have hl := (nextMove_eq_combine_iff.mp move).1
    exact ⟨hframe.inner ahead ⟨by simp [hl], by simp [hl]⟩ _, hcallers⟩
  | @enter l rest hand inside behind steps start level cursor pending callers ahead move =>
    obtain ⟨close, hc, rfl, hi⟩ := eq_of_enter move
    have ho := (nextMove_eq_enter_iff.mp move).1
    obtain ⟨before, after, depth, hall, hlength, hs⟩ := hframe
    rw [ahead] at hall hs
    refine ⟨⟨before ++ [l], close :: (behind ++ after), depth + 1, ?_, ?_, ?_⟩,
      ⟨before ++ (l :: (inside ++ [close])), after, depth, ?_, ?_, ?_⟩, hcallers⟩
    · simp [hall]
    · rw [List.length_append, hlength]
      rfl
    · exact hs.inside ho hc hi _
    · simp [hall, drop_length_sub_of_drop ahead]
    · rw [List.length_append, hlength, Frame.index, Frame.index, length_sub_of_drop ahead,
        Nat.add_assoc]
    · rw [drop_length_sub_of_drop ahead]
      exact hs.behind ho hc hi
  | leave done given => exact hcallers

theorem allSurrounded_of_run {ar : Arithmetic α} {hand : Hand} {tokens : List Lexeme}
    {m : Machine α} (h : run ar hand tokens n = .on m) :
    AllSurrounded tokens (m.frame :: m.callers) := by
  have hbegin : Frame.Surrounded tokens .whole (⟨0, tokens, 0, .empty⟩ : Frame α) :=
    ⟨[], [], 0, (List.append_nil tokens).symm, rfl, surrounds_whole tokens⟩
  exact keeps_of_run (motive := fun m => AllSurrounded tokens (m.frame :: m.callers))
    ⟨hbegin, trivial⟩ (fun _ _ hfollows hm => hm.follow hfollows) h

theorem Token.IsProper.ne_invalid_close {t : Token} (h : t.IsProper) : t ≠ .invalid ')' := by
  rintro rfl
  exact h.2 (by simp)

/-- Blamed for having no partner is an opening bracket whose group does not end, or a closing
bracket. -/
theorem unpaired_of_refuse {hand : Hand}
    (h : nextMove hand afterValue l rest = .refuse fault) (hu : fault.Unpaired position)
    (hproper : l.token.IsProper) :
    l.position = position ∧
      (l.token = .opening ∧ splitGroup? 0 rest = none ∨ l.token = .closing) := by
  unfold nextMove at h
  split at h
  · split at h
    · cases h; cases hu
    · split at h
      · cases h; cases hu
      · split at h
        · cases h; cases hu
        · cases h
  · next ht =>
    split at h
    · cases h; cases hu
    · split at h
      · cases h
      · next hsplit =>
        cases h
        exact ⟨hu, .inl ⟨ht, hsplit⟩⟩
  · split at h
    · cases h
    · cases h; cases hu
  · next ht =>
    cases h
    exact ⟨hu.2, .inr ht⟩
  · next c ht =>
    cases h
    obtain ⟨hc, -⟩ := hu
    rw [ht, Token.char] at hc
    exact absurd (by rw [ht, hc]) hproper.ne_invalid_close

theorem not_unpaired_of_settle {pending : Pending α} {hand : Hand}
    (h : (settle ar extent level pending hand).result = .error fault) :
    ¬ fault.Unpaired position := by
  intro hu
  unfold settle at h
  split at h
  · cases h; cases hu
  · split at h
    · cases h; cases hu
    · split at h
      · cases h
      · cases h; cases hu

/-- A bracket is blamed for having no partner only outside of all groups. -/
theorem unpaired_of_ends {ar : Arithmetic α} {m : Machine α} {outcome : Outcome α α}
    (h : AllSurrounded tokens (m.frame :: m.callers)) (hends : Ends ar m outcome)
    (hresult : outcome.result = .error fault) (hu : fault.Unpaired position)
    (hproper : ∀ l ∈ tokens, l.token.IsProper) :
    m.callers = [] ∧ ∃ l, tokens[m.frame.index]? = some l ∧ l.position = position ∧
      Balanced (tokens.take m.frame.index) := by
  cases hends with
  | settle done => exact absurd hu (not_unpaired_of_settle hresult)
  | @refuse l rest hand fault steps start level cursor pending callers ahead move =>
    cases hresult
    obtain ⟨⟨before, after, depth, hall, hlength, hs⟩, -⟩ := h
    rw [ahead] at hall hs
    have hl : l ∈ tokens := by simp [hall]
    obtain ⟨hplace, hbracket⟩ := unpaired_of_refuse move hu (hproper l hl)
    cases callers with
    | nil =>
      obtain ⟨rfl, -⟩ := hs.whole rfl
      refine ⟨rfl, l, ?_, hplace, ?_⟩
      · rw [← hlength, hall]
        simp
      · rw [← hlength, hall, List.take_left]
        exact balanced_iff.mpr hs.opened
    | cons caller callers =>
      -- What is left of a group opens nothing that it does not close, and closes no more.
      exfalso
      rcases hbracket with ⟨ho, hnone⟩ | hc
      · have hsome := Surrounds.isSome_splitGroup? hs ho
        rw [hnone] at hsome
        cases hsome
      · have hbalance := (hs.group rfl).2.2
        rw [depthAfter_closing_zero hc] at hbalance
        cases hbalance

/-- The bracket that closes an opening one is the first at which as many are closed as opened, if
there is one. Until then one more is open, and the tokens between the two are balanced, so that what
is opened among them is closed among them. Therefore a bracket is blamed for having no partner only
outside of all groups, where those before it are balanced. -/
theorem brackets_pair (ar : Arithmetic α) (hand : Hand) :
    (∀ (tokens : List Lexeme) (opening : Nat) (l : Lexeme),
      tokens[opening]? = some l → l.token = .opening →
        (∀ close, matchingClose? tokens opening = some close ↔
          IsLeast {last | EvensOut tokens opening last} close) ∧
        (matchingClose? tokens opening = none ↔ ∀ last, ¬ EvensOut tokens opening last) ∧
        (matchingClose? tokens opening = none ↔ splitGroup? 0 (tokens.drop (opening + 1)) = none) ∧
        ∀ close, matchingClose? tokens opening = some close →
          ∃ inside, GroupAt tokens opening close inside) ∧
    ∀ text : String,
      (∀ n m outcome fault position, run ar hand (lexemes text) n = .on m →
        m.step ar = .ended outcome → outcome.result = .error fault → fault.Unpaired position →
          m.callers = [] ∧ ∃ l, (lexemes text)[m.frame.index]? = some l ∧ l.position = position ∧
            Balanced ((lexemes text).take m.frame.index)) ∧
      ∀ fault position, (evaluate ar hand text).result = .error fault → fault.Unpaired position →
        ∃ before l after, lexemes text = before ++ l :: after ∧ l.position = position ∧
          Balanced before := by
  refine ⟨?_, ?_⟩
  · intro tokens opening l hl ho
    refine ⟨fun close => matchingClose?_eq_some_iff_isLeast hl ho,
      matchingClose?_eq_none_iff hl ho, ?_, fun close => exists_groupAt hl ho⟩
    rw [matchingClose?_eq_map hl ho, Option.map_eq_none_iff]
  · intro text
    have hproper : ∀ l ∈ lexemes text, l.token.IsProper :=
      fun l hl => ((renders_lexemes text).proper l hl).1
    refine ⟨?_, ?_⟩
    · intro n m outcome fault position hrun hstep hresult hu
      have hsurrounded := allSurrounded_of_run hrun
      exact unpaired_of_ends hsurrounded (ends_of_step hstep) hresult hu hproper
    · intro fault position hresult hu
      obtain ⟨n, m, hrun, hstep⟩ := exists_last_step (run_length_succ ar hand (lexemes text))
      have hsurrounded := allSurrounded_of_run hrun
      obtain ⟨-, l, hl, hplace, hbalanced⟩ :=
        unpaired_of_ends hsurrounded (ends_of_step hstep) hresult hu hproper
      obtain ⟨hlt, rfl⟩ := List.getElem?_eq_some_iff.mp hl
      refine ⟨_, _, (lexemes text).drop (m.frame.index + 1), ?_, hplace, hbalanced⟩
      rw [← List.drop_eq_getElem_cons hlt, List.take_append_drop]

/-- One bracket more is closed behind a group than is opened. -/
theorem brackets_pair_stray :
    matchingClose? (lexemes "((1) + (2)) + 3)") 0 = some 8 ∧
      (∃ inside, GroupAt (lexemes "((1) + (2)) + 3)") 0 8 inside) ∧
      (evaluate .float ⟨[1, 2, 3]⟩ "((1) + (2)) + 3)").result = .error (.invalidToken ')' 15) ∧
      ∃ before l after, lexemes "((1) + (2)) + 3)" = before ++ l :: after ∧ l.position = 15 ∧
        Balanced before := by
  have hclose : matchingClose? (lexemes "((1) + (2)) + 3)") 0 = some 8 := by decide
  have hrun : ∃ steps, run .float ⟨[1, 2, 3]⟩ (lexemes "((1) + (2)) + 3)") 12 =
      .ended ⟨.error (.invalidToken ')' 15), ⟨[]⟩, steps⟩ := ⟨_, rfl⟩
  obtain ⟨steps, hrun⟩ := hrun
  have hfault : (evaluate .float ⟨[1, 2, 3]⟩ "((1) + (2)) + 3)").result =
      .error (.invalidToken ')' 15) := by rw [evaluate, ← eq_of_run hrun]
  obtain ⟨hbrackets, htexts⟩ := brackets_pair .float ⟨[1, 2, 3]⟩
  have hgroup := (hbrackets _ 0 ⟨.opening, 0⟩ rfl rfl).2.2.2 8 hclose
  exact ⟨hclose, hgroup, hfault, (htexts _).2 _ 15 hfault ⟨rfl, rfl⟩⟩

end Make24
