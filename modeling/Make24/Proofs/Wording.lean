import Make24.Round

namespace Make24

namespace Decimal

theorem Scaled.mem_digits {d : Scaled} (h : c ∈ d.digits) : c.isDigit = true ∨ c = '.' := by
  have hwritten : ∀ c ∈ Nat.toDigits 10 d.coefficient, c.isDigit = true :=
    fun c hc => Nat.isDigit_of_mem_toDigits (by decide) (by decide) hc
  unfold digits at h
  simp only at h
  split at h
  · rcases List.mem_append.mp h with hc | hc
    · exact .inl (hwritten c hc)
    · obtain rfl := List.eq_of_mem_replicate hc
      exact .inl (by decide)
  · next hneg =>
    generalize hpadded : List.replicate _ '0' ++ Nat.toDigits 10 d.coefficient = padded at h
    have hdigit : ∀ c ∈ padded, c.isDigit = true := by
      intro c hc
      rw [← hpadded] at hc
      rcases List.mem_append.mp hc with hc | hc
      · obtain rfl := List.eq_of_mem_replicate hc
        decide
      · exact hwritten c hc
    rcases List.mem_append.mp h with hc | hc
    · exact .inl (hdigit c (List.mem_of_mem_take hc))
    · rcases List.mem_cons.mp hc with rfl | hc
      · exact .inr rfl
      · exact .inl (hdigit c (List.mem_of_mem_drop hc))

theorem Reading.lineFeed_not_mem_signed (negative : Bool) {magnitude : String}
    (h : '\n' ∉ magnitude.toList) : '\n' ∉ (text.signed negative magnitude).toList := by
  cases negative with
  | false => exact h
  | true => simpa [text.signed] using h

theorem lineFeed_not_mem_text (x : Float) : '\n' ∉ (text x).toList := by
  rw [text]
  cases Reading.ofBits x.toBits.toNat with
  | nan => decide
  | infinite negative => exact Reading.lineFeed_not_mem_signed negative (by decide)
  | zero negative => exact Reading.lineFeed_not_mem_signed negative (by decide)
  | finite negative basin =>
    apply Reading.lineFeed_not_mem_signed negative
    rw [String.toList_ofList]
    intro hc
    rcases Scaled.mem_digits hc with hd | hd <;> revert hd <;> decide

end Decimal

theorem lineFeed_not_mem_append {first more : String} (h : '\n' ∉ first.toList)
    (h' : '\n' ∉ more.toList) : '\n' ∉ (first ++ more).toList := by
  rw [String.toList_append, List.mem_append, not_or]
  exact ⟨h, h'⟩

/-- What a player reads about an answer is one line. -/
theorem Verdict.lineFeed_not_mem_message (verdict : Verdict) : '\n' ∉ verdict.message.toList := by
  cases verdict with
  | correct => exact lineFeed_not_mem_append (by decide) (Decimal.lineFeed_not_mem_text target)
  | incorrect value =>
    exact lineFeed_not_mem_append (by decide) (Decimal.lineFeed_not_mem_text value)
  | invalid fault =>
    have hfixed : '\n' ∉ "sorry, this is not a valid expression".toList := by decide
    exact hfixed

/-- The target has no fraction, so none is shown. -/
example : Verdict.correct.message = "yes, this is indeed 24" := by decide +kernel

theorem lineFeed_not_mem_repr (n : Nat) : '\n' ∉ n.repr.toList := by
  rw [Nat.repr_eq_ofList_toDigits, String.toList_ofList]
  intro hc
  have hd := Nat.isDigit_of_mem_toDigits (by decide) (by decide) hc
  revert hd
  decide

theorem lineFeed_not_mem_intercalate (ds : List Nat) :
    '\n' ∉ (" ".intercalate (ds.map Nat.repr)).toList := by
  induction ds with
  | nil => simp
  | cons d ds ih =>
    cases ds with
    | nil => simpa using lineFeed_not_mem_repr d
    | cons e ds =>
      rw [List.map_cons, List.map_cons, String.intercalate_cons_cons, ← List.map_cons]
      exact lineFeed_not_mem_append
        (lineFeed_not_mem_append (lineFeed_not_mem_repr d) (by decide)) ih

theorem Round.lineFeed_not_mem_prompt (round : Round) : '\n' ∉ round.prompt.toList :=
  lineFeed_not_mem_append (by decide) (lineFeed_not_mem_intercalate round.deal.toList)

end Make24
