import Make24.CommandLine.Run
import Make24.Proofs.Values

namespace Make24

namespace Random

/-- A digit is one more than the integer part of 9 times the fraction that two words make, also
where the second word is not taken. -/
theorem digit_drawDigit (words : Nat → UInt32) (index : Nat) :
    (drawDigit words index).1 =
      1 + 9 * ((words index).toNat * UInt32.size + (words (index + 1)).toNat) /
        (UInt32.size * UInt32.size) := by
  have hsecond := (words (index + 1)).toNat_lt
  have hsize : UInt32.size = 2 ^ 32 := rfl
  simp only [drawDigit, hsize]
  split <;> omega

theorem isPlayable_drawDigit (words : Nat → UInt32) (index : Nat) :
    isPlayable (drawDigit words index).1 = true := by
  have hfirst := (words index).toNat_lt
  have hsecond := (words (index + 1)).toNat_lt
  have hsize : UInt32.size = 2 ^ 32 := rfl
  rw [digit_drawDigit, hsize, isPlayable, Bool.and_eq_true, decide_eq_true_eq, decide_eq_true_eq]
  omega

theorem Source.isPlayable_of_mem_drawn (source : Source) (n : Nat) :
    ∀ d ∈ (source.drawn n).1.toList, isPlayable d = true := by
  induction n with
  | zero =>
    intro d hd
    cases hd
  | succ n ih =>
    intro d hd
    rw [drawn, Vector.toList_push] at hd
    rcases List.mem_append.mp hd with hd | hd
    · exact ih d hd
    · obtain rfl := List.mem_singleton.mp hd
      exact isPlayable_drawDigit _ _

theorem Source.isPlayable_of_mem_deal (source : Source) :
    ∀ d ∈ source.deal.1.toList, isPlayable d = true :=
  source.isPlayable_of_mem_drawn dealSize

end Random

namespace Deal

/-- A text lists the digits that its characters stand for. -/
theorem toList_of_parse {deal : Deal} (h : (parse text).value = .ok deal) :
    deal.toList = (listed text).filterMap digitOfChar? := by
  unfold parse at h
  simp only [Log.Logged.value_bind] at h
  split at h
  · cases h
  · split at h
    · cases h
    · split at h
      · cases h
        rfl
      · cases h

theorem isPlayable_of_parse {deal : Deal} (h : (parse text).value = .ok deal) :
    ∀ d ∈ deal.toList, isPlayable d = true := by
  intro d hd
  rw [toList_of_parse h, List.mem_filterMap] at hd
  obtain ⟨c, -, hc⟩ := hd
  exact isPlayable_of_digitOfChar? hc

end Deal

namespace CommandLine

/-- The digits of a round that is still to be dealt. -/
def Supply.digits (fresh : Random.Key) : Supply → Except DealFault Deal
  | .listed text => (Deal.parse text).value
  | .seeded seed => .ok (Random.Source.seeded seed).value.deal.1
  | .random => .ok (Random.Source.deal ⟨fresh, 0⟩).1

theorem Supply.isPlayable_of_digits {supply : Supply} {deal : Deal}
    (h : supply.digits fresh = .ok deal) : ∀ d ∈ deal.toList, isPlayable d = true := by
  cases supply with
  | listed text => exact Deal.isPlayable_of_parse h
  | seeded seed =>
    obtain rfl := Except.ok.inj h
    exact Random.Source.isPlayable_of_mem_deal _
  | random =>
    obtain rfl := Except.ok.inj h
    exact Random.Source.isPlayable_of_mem_deal _

end CommandLine

end Make24
