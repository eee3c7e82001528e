import Make24.Proofs.Meaning

namespace Make24

/-- The beginnings of sentences: nothing yet, or a sentence with or without an operator behind it.
The flag tells whether a value came last. -/
inductive Begins : Bool → List Char → Prop where
  | start : Begins false []
  | sentence (whole : Sentence cs) : Begins true cs
  | operator (op : Operator) (whole : Sentence cs) : Begins false (cs ++ [op.symbol])

theorem Begins.operand (h : Begins false cs) (ho : Operand ds) : Begins true (cs ++ ds) := by
  cases h with
  | start => exact .sentence (.operand ho)
  | operator op whole =>
    rw [List.append_assoc, List.singleton_append]
    exact .sentence (.chain op whole ho)

theorem Begins.sentence_of_true (h : Begins true cs) : Sentence cs := by
  cases h with
  | sentence whole => exact whole

/-- A scan that comes to an end goes on with a sentence, whatever was scanned before. -/
theorem begins_of_scan (ar : Arithmetic α) (hand : Hand) (pending : Pending α)
    (tokens : List Lexeme) {q : Pending α} (ha : pending.Alternates afterValue)
    (hb : Begins afterValue before) (hr : Reads tokens cs)
    (h : (scan ar hand pending tokens).result = .ok q) :
    ∃ afterValue', q.Alternates afterValue' ∧ Begins afterValue' (before ++ cs) := by
  induction hand, pending, tokens using scan_induction ar generalizing q afterValue before cs with
  | nil hand pending =>
    rw [scan_nil] at h
    cases h
    have hcs : cs = [] := by simpa [Reads] using hr.symm
    rw [hcs, List.append_nil]
    exact ⟨afterValue, ha, hb⟩
  | refuse hand pending l rest fault hmove =>
    rw [scan_of_refuse ar hmove] at h
    cases h
  | spend hand pending l rest d hmove ih =>
    rw [scan_of_spend ar hmove] at h
    obtain ⟨hl, -, -, hv⟩ := nextMove_eq_spend_iff.mp hmove
    obtain ⟨c, cs, rfl, hc, hrest⟩ := hr.of_cons
    have hd : digitOfChar? c = some d := Token.ofChar_eq_digit_iff.mp (hc.trans hl)
    obtain ⟨low, high⟩ := range_of_digitOfChar? hd
    rw [ha.endsInValue_eq] at hv
    subst hv
    have hend := ih (ha.addValue _) (hb.operand (.digit low high)) hrest h
    rwa [List.append_assoc] at hend
  | combine hand pending l rest op hmove ih =>
    rw [scan_of_combine ar hmove] at h
    obtain ⟨hl, hv⟩ := nextMove_eq_combine_iff.mp hmove
    obtain ⟨c, cs, rfl, hc, hrest⟩ := hr.of_cons
    obtain rfl : op.symbol = c := Token.char_of_ofChar (hc.trans hl)
    rw [ha.endsInValue_eq] at hv
    subst hv
    have hend := ih (ha.addOperator ar op) (.operator op hb.sentence_of_true) hrest h
    rwa [List.append_assoc] at hend
  | enter hand pending l rest inside after hmove ih ihafter =>
    obtain ⟨value, hv, hq⟩ := (result_scan_of_enter hmove).mp h
    obtain ⟨close, hclose, rfl, -⟩ := eq_of_enter hmove
    obtain ⟨hl, hfalse, -⟩ := nextMove_eq_enter_iff.mp hmove
    obtain ⟨p, hp, -, -, hconclude⟩ := result_evaluateLevel_eq_ok_iff.mp hv
    obtain ⟨c, cs, rfl, hc, hrest⟩ := hr.of_cons
    obtain ⟨csin, csrest, rfl, hrin, hrest⟩ := hrest.of_append
    obtain ⟨c', csafter, rfl, hc', hrafter⟩ := hrest.of_cons
    obtain rfl : '(' = c := Token.char_of_ofChar (hc.trans hl)
    obtain rfl : ')' = c' := Token.char_of_ofChar (hc'.trans hclose)
    -- Inside the brackets a new sentence begins.
    obtain ⟨afterValue', ha', hb'⟩ := ih Pending.alternates_empty .start hrin hp
    obtain rfl := ha'.of_conclude hconclude
    rw [ha.endsInValue_eq] at hfalse
    subst hfalse
    have hgroup := hb.operand (.group hb'.sentence_of_true)
    have hend := ihafter value _ (ha.addValue value) hgroup hrafter hq
    simpa only [List.append_assoc, List.cons_append, List.nil_append] using hend

/-- An accepted text is a sentence that writes the digits of the hand. -/
theorem sentence_of_evaluate {hand : Hand} {value : α}
    (h : (evaluate ar hand text).result = .ok value) :
    Sentence (dense text) ∧ (written (dense text)).Perm hand.digits := by
  obtain ⟨p, hp, -, hempty, hconclude⟩ := result_evaluateLevel_eq_ok_iff.mp h
  obtain ⟨afterValue, ha, hb⟩ := begins_of_scan ar hand .empty (lexemes text)
    Pending.alternates_empty .start (reads_lexemes text) hp
  obtain rfl := ha.of_conclude hconclude
  refine ⟨hb.sentence_of_true, ?_⟩
  obtain ⟨hhand, hcount⟩ := spend_of_scan ar hand .empty (lexemes text) hp
  have hall := (Hand.isEmpty_iff_count _).mp (hempty rfl)
  rw [← (reads_lexemes text).digits_eq]
  apply List.perm_iff_count.mpr
  intro d
  have hd := hall d
  have hle := hcount d
  rw [hhand, Hand.count_spend] at hd
  omega

/-- An accepted text spells a tree over the whole hand, and its value is the tree's. -/
theorem evaluate_eq_ok_iff {ar : Arithmetic α} {hand : Hand} {value : α} :
    (evaluate ar hand text).result = .ok value ↔
      ∃ t, Spells 0 t (dense text) ∧ t.leaves.Perm hand.digits ∧ value = t.value ar := by
  constructor
  · intro h
    obtain ⟨hs, hp⟩ := sentence_of_evaluate h
    obtain ⟨t, ht⟩ := hs.exists_spells
    rw [ht.written_eq] at hp
    obtain ⟨steps, -, he⟩ := (ht.lower (Nat.zero_le 1)).evaluate_eq hp ar
    rw [he] at h
    exact ⟨t, ht.lower (Nat.zero_le 1), hp, (Except.ok.inj h).symm⟩
  · rintro ⟨t, ht, hp, rfl⟩
    obtain ⟨steps, -, he⟩ := ht.evaluate_eq hp ar
    rw [he]
    rfl

/-- What is written in an accepted text, and what the text evaluates to. -/
theorem Spells.of_accepted {ar : Arithmetic α} {hand : Hand} {value : α}
    (h : Spells 0 t (dense text)) (hok : (evaluate ar hand text).result = .ok value) :
    t.leaves.Perm hand.digits ∧ value = t.value ar := by
  obtain ⟨t', ht', hp, hv⟩ := evaluate_eq_ok_iff.mp hok
  obtain rfl := h.unique ht'
  exact ⟨hp, hv⟩

/-- A text is accepted exactly if it is a sentence that writes the digits of the hand, each as often
as the hand holds it. What the operators compute plays no part, since the arithmetic may be any. -/
theorem evaluate_accepts_iff (ar : Arithmetic α) (hand : Hand) (text : String) :
    (∃ value, (evaluate ar hand text).result = .ok value) ↔
      Sentence (dense text) ∧ (written (dense text)).Perm hand.digits := by
  constructor
  · rintro ⟨value, h⟩
    exact sentence_of_evaluate h
  · rintro ⟨hs, hp⟩
    obtain ⟨t, ht⟩ := hs.exists_spells
    rw [ht.written_eq] at hp
    obtain ⟨steps, -, he⟩ := (ht.lower (by omega)).evaluate_eq hp ar
    exact ⟨t.value ar, by rw [he]; rfl⟩

end Make24
