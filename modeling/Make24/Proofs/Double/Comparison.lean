import Make24.Proofs.Double.Rounding

namespace Make24
open Float.Model
open Float.Model.UnpackedFloat

theorem lt_of_exponent_lt {m m' : ℕ} {e e' : ℤ} (high : m < 2 ^ 53) (low' : 2 ^ 52 ≤ m')
    (he : e < e') : (m : ℚ) * 2 ^ e < m' * 2 ^ e' := by
  have hm : (m : ℚ) < 2 ^ 53 := by exact_mod_cast high
  have hm' : (2 : ℚ) ^ 52 ≤ m' := by exact_mod_cast low'
  calc (m : ℚ) * 2 ^ e < 2 ^ 53 * 2 ^ e := by gcongr
    _ = 2 ^ 52 * 2 ^ (e + 1) := by rw [zpow_add_one₀ (by norm_num)]; ring
    _ ≤ m' * 2 ^ e' := by
      gcongr
      · norm_num
      · omega

/-- Among full mantissas the larger exponent decides, and among equal exponents the larger
mantissa. -/
theorem finite_lt_iff {m m' : ℕ} {e e' : ℤ} (low : 2 ^ 52 ≤ m) (high : m < 2 ^ 53)
    (low' : 2 ^ 52 ≤ m') (high' : m' < 2 ^ 53) :
    (compare e e').then (compare m m') = .lt ↔ (m : ℚ) * 2 ^ e < m' * 2 ^ e' := by
  rcases lt_trichotomy e e' with he | rfl | he
  · rw [Int.compare_eq_lt.mpr he]
    exact iff_of_true rfl (lt_of_exponent_lt high low' he)
  · rw [Int.compare_eq_eq.mpr rfl, Ordering.then, Nat.compare_eq_lt,
      mul_lt_mul_iff_left₀ (by positivity), Nat.cast_lt]
  · rw [Int.compare_eq_gt.mpr he]
    exact iff_of_false (by simp) (lt_of_exponent_lt high' low he).not_gt

/-- Doubles that are not negative are compared by value. -/
theorem lt_iff_of_value (hu : Value u x) (hv : Value v y) (hx : 0 ≤ x) (hy : 0 < y) :
    UnpackedFloat.lt u v = true ↔ x < y := by
  cases hv with
  | zero s' => exact absurd hy (lt_irrefl 0)
  | finite s' m' e' positive' low' high' =>
    have hm' : (0 : ℚ) < m' * 2 ^ e' := by positivity
    cases s' with
    | negative =>
      rw [signOf] at hy
      linarith
    | positive =>
      cases hu with
      | zero s => exact iff_of_true rfl hy
      | finite s m e positive low high =>
        have hm : (0 : ℚ) < m * 2 ^ e := by positivity
        cases s with
        | negative =>
          rw [signOf] at hx
          linarith
        | positive =>
          rw [signOf, one_mul, one_mul, ← finite_lt_iff low high low' high']
          simp [UnpackedFloat.lt, UnpackedFloat.compare]

theorem lt_iff_unpack (a b : Float) :
    a < b ↔ UnpackedFloat.lt a.toModel.unpack b.toModel.unpack = true :=
  decide_eq_true_iff

theorem Value.abs (h : Value u x) : Value u.abs |x| := by
  cases h with
  | zero s =>
    rw [abs_zero]
    exact .zero .positive
  | finite s m e positive low high =>
    have hpos : (0 : ℚ) ≤ m * 2 ^ e := by positivity
    have hsame : |signOf s * (m * 2 ^ e)| = signOf .positive * (m * 2 ^ e) := by
      rw [abs_mul, abs_signOf, abs_of_nonneg hpos, signOf]
    rw [hsame]
    exact .finite .positive m e positive low high

end Make24
