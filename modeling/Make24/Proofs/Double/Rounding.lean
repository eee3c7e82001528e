import Mathlib
import Make24.Proofs.Double.Error

namespace Make24
open Float.Model
open Float.Model.UnpackedFloat

/-- What the round bit and the sticky bit say about the part of a number that its mantissa
leaves out. -/
def Residue : Bool → Bool → ℚ → Prop
  | false, false, f => f = 0
  | false, true, f => 0 < f ∧ f < 1 / 2
  | true, false, f => f = 1 / 2
  | true, true, f => 1 / 2 < f ∧ f < 1

/-- A mantissa with its two bits stands for the number `v`. -/
def Holds (em : ExtendedMantissa) (v : ℚ) : Prop :=
  Residue em.roundBit em.stickyBit (v - em.mantissa)

/-- A mantissa with the accuracy `acc` leaves out the part `f`. -/
structure Leaves (acc : Accuracy) (f : ℚ) : Prop where
  residue : Residue (ExtendedMantissa.ofMantissaAndAccuracy 0 acc).roundBit
    (ExtendedMantissa.ofMantissaAndAccuracy 0 acc).stickyBit f

theorem leaves_exact : Leaves .exact 0 := ⟨rfl⟩

theorem Residue.bounds (h : Residue r s f) : 0 ≤ f ∧ f < 1 := by
  cases r <;> cases s <;> simp only [Residue] at h <;> constructor <;> linarith

namespace Holds
variable {em : ExtendedMantissa}

theorem of_leaves (m : ℕ) (h : Leaves acc f) :
    Holds (ExtendedMantissa.ofMantissaAndAccuracy m acc) (m + f) := by
  have h := h.residue
  unfold Holds
  cases acc with
  | exact => simpa [ExtendedMantissa.ofMantissaAndAccuracy] using h
  | inexact o => cases o <;> simpa [ExtendedMantissa.ofMantissaAndAccuracy] using h

theorem bounds (h : Holds em v) : (em.mantissa : ℚ) ≤ v ∧ v < em.mantissa + 1 := by
  obtain ⟨hl, hu⟩ := Residue.bounds h
  constructor <;> linarith

theorem shiftRightOne (h : Holds em v) : Holds em.shiftRightOne (v / 2) := by
  obtain ⟨m, r, s⟩ := em
  have hm : (m : ℚ) = 2 * ((m / 2 : ℕ) : ℚ) + ((m % 2 : ℕ) : ℚ) := by
    exact_mod_cast (Nat.div_add_mod m 2).symm
  have hbit : m % 2 = 0 ∨ m % 2 = 1 := Nat.mod_two_eq_zero_or_one m
  unfold Holds at h ⊢
  simp only [ExtendedMantissa.shiftRightOne] at h ⊢
  rcases hbit with hbit | hbit
  · rw [hbit, Nat.cast_zero, add_zero] at hm
    cases r <;> cases s <;>
      simp only [hbit, Residue, Bool.or_true, Bool.or_false, bne_self_eq_false] at h ⊢ <;>
      (try constructor) <;> linarith
  · rw [hbit, Nat.cast_one] at hm
    cases r <;> cases s <;>
      simp only [hbit, Residue, Bool.or_true, Bool.or_false, Nat.reduceBNe] at h ⊢ <;>
      (try constructor) <;> linarith

theorem shiftRight (h : Holds em v) (n : ℕ) : Holds (em >>> n) (v / 2 ^ n) := by
  change Holds (n.repeat ExtendedMantissa.shiftRightOne em) (v / 2 ^ n)
  induction n with
  | zero => simpa [Nat.repeat] using h
  | succ n ih =>
    rw [Nat.repeat, pow_succ, ← div_div]
    exact ih.shiftRightOne

/-- Rounding goes to the nearest whole number. -/
theorem roundedMantissa (h : Holds em v) : |(em.roundedMantissa : ℚ) - v| ≤ 1 / 2 := by
  obtain ⟨m, r, s⟩ := em
  unfold Holds at h
  rw [abs_le]
  have hbit : ((m % 2 : ℕ) : ℚ) = 0 ∨ ((m % 2 : ℕ) : ℚ) = 1 := by
    rcases Nat.mod_two_eq_zero_or_one m with hm | hm <;> simp [hm]
  cases r <;> cases s <;>
    simp only [Residue, ExtendedMantissa.roundedMantissa, ExtendedMantissa.accuracy,
      Accuracy.roundToNearestEven, Nat.cast_add, Nat.cast_one] at h ⊢
  · constructor <;> linarith
  · constructor <;> linarith
  · rcases hbit with hbit | hbit <;> rw [hbit] <;> constructor <;> linarith
  · constructor <;> linarith

theorem mantissa_le_roundedMantissa (h : Holds em v) : em.mantissa ≤ em.roundedMantissa := by
  obtain ⟨hl, -⟩ := h.bounds
  obtain ⟨hr, -⟩ := abs_le.mp h.roundedMantissa
  have hlt : (em.mantissa : ℚ) < (em.roundedMantissa + 1 : ℕ) := by
    push_cast
    linarith
  exact Nat.lt_succ_iff.mp (by exact_mod_cast hlt)

theorem roundedMantissa_le (h : Holds em v) : em.roundedMantissa ≤ em.mantissa + 1 := by
  obtain ⟨-, hu⟩ := h.bounds
  obtain ⟨-, hr⟩ := abs_le.mp h.roundedMantissa
  have hlt : (em.roundedMantissa : ℚ) < (em.mantissa + 1 + 1 : ℕ) := by
    push_cast
    linarith
  exact Nat.lt_succ_iff.mp (by exact_mod_cast hlt)

end Holds

def signOf : Sign → ℚ
  | .negative => -1
  | .positive => 1

@[simp] theorem signOf_neg (s : Sign) : signOf (-s) = -signOf s := by
  cases s <;> rfl

@[simp] theorem signOf_mul (s s' : Sign) : signOf (s * s') = signOf s * signOf s' := by
  cases s with
  | negative =>
    cases s' with
    | negative => exact ((neg_mul_neg (1 : ℚ) 1).trans (one_mul 1)).symm
    | positive => exact (mul_one (-1 : ℚ)).symm
  | positive => cases s' <;> exact (one_mul _).symm

@[simp] theorem signOf_div (s s' : Sign) : signOf (s / s') = signOf s / signOf s' := by
  cases s with
  | negative =>
    cases s' with
    | negative => exact (neg_div_neg_eq (1 : ℚ) 1).symm ▸ (div_one (1 : ℚ)).symm
    | positive => exact (div_one (-1 : ℚ)).symm
  | positive =>
    cases s' with
    | negative => exact ((div_neg (1 : ℚ)).trans (congrArg Neg.neg (div_one 1))).symm
    | positive => exact (div_one (1 : ℚ)).symm

@[simp] theorem abs_signOf (s : Sign) : |signOf s| = 1 := by
  cases s <;> simp [signOf]

/-- The number that a zero or a float with a full mantissa stands for. -/
inductive Value : UnpackedFloat → ℚ → Prop where
  | zero (s : Sign) : Value (.zero s) 0
  | finite (s : Sign) (m : ℕ) (e : ℤ) (positive : 0 < m) (low : 2 ^ 52 ≤ m) (high : m < 2 ^ 53) :
      Value (.finite s m e positive) (signOf s * (m * 2 ^ e))

theorem targetExponent_binary64 (total : ℤ) :
    Format.binary64.targetExponent total = max (total - 53) (-1074) := rfl

theorem shiftToTargetExponent_eq {m : ℕ} (acc : Accuracy) (hm : 52 ≤ m.log2)
    (he : -1074 ≤ (m.log2 : ℤ) + e - 52) :
    shiftToTargetExponent Format.binary64 m e acc =
      (ExtendedMantissa.ofMantissaAndAccuracy m acc >>> (m.log2 - 52),
        e + ((m.log2 - 52 : ℕ) : ℤ)) := by
  have ht : (max (totalExponent m e - 53) (-1074) - e).toNat = m.log2 - 52 := by
    unfold totalExponent
    omega
  simp only [shiftToTargetExponent, shiftToExponent, targetExponent_binary64, ht]

theorem log2_eq {m : ℕ} (hl : 2 ^ 52 ≤ m) (hu : m < 2 ^ 53) : m.log2 = 52 :=
  (Nat.log2_eq_iff (by omega)).mpr ⟨hl, hu⟩

/-- A rounded mantissa that grew by a bit is shifted once more. -/
theorem value_shiftToTargetExponent (s : Sign) (hl : 2 ^ 52 ≤ k) (hu : k ≤ 2 ^ 53)
    (he : -1074 ≤ e) :
    ∃ m e' positive, (shiftToTargetExponent Format.binary64 k e .exact).1.mantissa = m ∧
      (shiftToTargetExponent Format.binary64 k e .exact).2 = e' ∧
      Value (.finite s m e' positive) (signOf s * (k * 2 ^ e)) := by
  rcases Nat.lt_or_eq_of_le hu with hu | rfl
  · have hlog := log2_eq hl hu
    rw [shiftToTargetExponent_eq _ (by omega) (by omega), hlog]
    refine ⟨k, e, by omega, rfl, by simp, ?_⟩
    exact .finite s k e _ hl hu
  · have hlog : (2 ^ 53 : ℕ).log2 = 53 := Nat.log2_two_pow
    rw [shiftToTargetExponent_eq _ (by omega) (by omega), hlog]
    refine ⟨2 ^ 52, e + 1, by omega, rfl, by simp, ?_⟩
    have hsame : (((2 ^ 53 : ℕ) : ℚ) * 2 ^ e) = ((2 ^ 52 : ℕ) : ℚ) * 2 ^ (e + 1) := by
      rw [zpow_add_one₀ (by norm_num)]
      push_cast
      ring
    rw [hsame]
    exact .finite s (2 ^ 52) (e + 1) _ (by omega) (by omega)

theorem scaled_bounds {m : ℕ} (hm : 52 ≤ m.log2) (hf : 0 ≤ f ∧ f < 1) :
    (2 : ℚ) ^ 52 ≤ (m + f) / 2 ^ (m.log2 - 52) ∧ (m + f) / 2 ^ (m.log2 - 52) < 2 ^ 53 := by
  have hne : m ≠ 0 := by
    rintro rfl
    simp at hm
  have hpos : (0 : ℚ) < 2 ^ (m.log2 - 52) := by positivity
  have hlow : (2 : ℚ) ^ 52 * 2 ^ (m.log2 - 52) ≤ m := by
    rw [← pow_add, Nat.add_sub_cancel' hm]
    exact_mod_cast Nat.log2_self_le hne
  have hhigh : (m : ℚ) + 1 ≤ 2 ^ 53 * 2 ^ (m.log2 - 52) := by
    have hexp : 53 + (m.log2 - 52) = m.log2 + 1 := by omega
    rw [← pow_add, hexp]
    exact_mod_cast Nat.lt_log2_self
  constructor
  · rw [le_div_iff₀ hpos]
    linarith [hf.1]
  · rw [div_lt_iff₀ hpos]
    linarith [hf.2]

/-- Rounding a number with enough bits makes a relative error of half a unit in the last place. -/
theorem value_roundWithAccuracy {m : ℕ} (s : Sign) (hm : 52 ≤ m.log2)
    (he : -1074 ≤ (m.log2 : ℤ) + e - 52) (hf : Leaves acc f) :
    ∃ z, Value (roundWithAccuracy Format.binary64 s m e acc) z ∧
      Within roundoff (signOf s * ((m + f) * 2 ^ e)) z := by
  have hfirst := shiftToTargetExponent_eq acc hm he
  have hholds := (Holds.of_leaves m hf).shiftRight (m.log2 - 52)
  obtain ⟨hvl, hvu⟩ := scaled_bounds hm hf.residue.bounds
  have hscale : ((m : ℚ) + f) * 2 ^ e =
      (m + f) / 2 ^ (m.log2 - 52) * 2 ^ (e + ((m.log2 - 52 : ℕ) : ℤ)) := by
    rw [zpow_add₀ (by norm_num), zpow_natCast]
    field_simp
  -- From here on only the scaled number counts, which lies between two powers of two.
  generalize ExtendedMantissa.ofMantissaAndAccuracy m acc >>> (m.log2 - 52) = first at hfirst hholds
  generalize ((m : ℚ) + f) / 2 ^ (m.log2 - 52) = v at hvl hvu hholds hscale
  have he₁ : -1074 ≤ e + ((m.log2 - 52 : ℕ) : ℤ) := by omega
  generalize e + ((m.log2 - 52 : ℕ) : ℤ) = e₁ at hfirst hscale he₁
  have hlow : 2 ^ 52 ≤ first.roundedMantissa := by
    have hlt : ((2 ^ 52 : ℕ) : ℚ) < (first.mantissa + 1 : ℕ) := by
      push_cast
      linarith [hholds.bounds.2]
    exact le_trans (Nat.lt_succ_iff.mp (by exact_mod_cast hlt)) hholds.mantissa_le_roundedMantissa
  have hhigh : first.roundedMantissa ≤ 2 ^ 53 := by
    have hlt : (first.mantissa : ℚ) < (2 ^ 53 : ℕ) := by
      push_cast
      linarith [hholds.bounds.1]
    exact le_trans hholds.roundedMantissa_le (by exact_mod_cast hlt)
  obtain ⟨k, e₂, hk, hmant, hexp, hvalue⟩ := value_shiftToTargetExponent s hlow hhigh he₁
  refine ⟨signOf s * (first.roundedMantissa * 2 ^ e₁), ?_, ?_⟩
  · unfold roundWithAccuracy
    simp only [hfirst, hmant, hexp, Nat.ne_of_gt hk, ↓reduceDIte]
    exact hvalue
  · have hpos : (0 : ℚ) < 2 ^ e₁ := by positivity
    have hdiff : signOf s * (first.roundedMantissa * 2 ^ e₁) - signOf s * (v * 2 ^ e₁) =
        signOf s * ((first.roundedMantissa - v) * 2 ^ e₁) := by ring
    have hvpos : 0 < v := by linarith
    rw [hscale, Within, hdiff, abs_mul, abs_mul, abs_mul, abs_mul, abs_signOf, abs_of_pos hpos,
      abs_of_pos hvpos, one_mul, one_mul, ← mul_assoc]
    gcongr
    have hhalf := hholds.roundedMantissa
    unfold roundoff
    linarith

end Make24
