import Mathlib.Algebra.Order.Field.Rat
import Mathlib.Tactic.FieldSimp
import Mathlib.Tactic.GCongr
import Mathlib.Tactic.Linarith
import Mathlib.Tactic.Positivity
import Mathlib.Tactic.Ring

namespace Make24

/-- The second number is the first, up to a relative error of `ε`. -/
def Within (ε x z : ℚ) : Prop :=
  |z - x| ≤ ε * |x|

/-- The relative error that rounding to a mantissa of 53 bits may make. -/
def roundoff : ℚ :=
  1 / 2 ^ 53

namespace Within
variable {ε ε' x y z w : ℚ}

theorem refl (hε : 0 ≤ ε) (x : ℚ) : Within ε x x := by
  rw [Within, sub_self, abs_zero]
  positivity

theorem mono (h : Within ε x z) (hε : ε ≤ ε') : Within ε' x z :=
  le_trans h (mul_le_mul_of_nonneg_right hε (abs_nonneg x))

theorem neg (h : Within ε x z) : Within ε (-x) (-z) := by
  have he : -z - -x = -(z - x) := by ring
  rw [Within, he, abs_neg, abs_neg]
  exact h

theorem abs_le (h : Within ε x z) : |z| ≤ (1 + ε) * |x| := by
  have hz : z = (z - x) + x := by ring
  calc |z| = |(z - x) + x| := by rw [← hz]
    _ ≤ |z - x| + |x| := abs_add_le _ _
    _ ≤ ε * |x| + |x| := by gcongr; exact h
    _ = (1 + ε) * |x| := by ring

theorem le_abs (h : Within ε x z) : (1 - ε) * |x| ≤ |z| := by
  have hx : x = z - (z - x) := by ring
  have hle : |x| ≤ |z| + |z - x| := by
    calc |x| = |z - (z - x)| := by rw [← hx]
      _ ≤ |z| + |z - x| := abs_sub _ _
  unfold Within at h
  linarith

theorem eq_zero_iff (h : Within ε x z) (hε : ε < 1) : z = 0 ↔ x = 0 := by
  have hle := h.le_abs
  constructor
  · rintro rfl
    rw [abs_zero] at hle
    by_contra hx
    have hpos : 0 < (1 - ε) * |x| := mul_pos (by linarith) (abs_pos.mpr hx)
    linarith
  · rintro rfl
    have hz : |z| ≤ 0 := by simpa using h.abs_le
    exact abs_nonpos_iff.mp hz

theorem trans (h : Within ε x z) (h' : Within ε' z w) (hε : 0 ≤ ε') :
    Within (ε + ε' + ε * ε') x w := by
  have he : w - x = (w - z) + (z - x) := by ring
  calc |w - x| = |(w - z) + (z - x)| := by rw [he]
    _ ≤ |w - z| + |z - x| := abs_add_le _ _
    _ ≤ ε' * |z| + ε * |x| := add_le_add h' h
    _ ≤ ε' * ((1 + ε) * |x|) + ε * |x| := by gcongr; exact h.abs_le
    _ = (ε + ε' + ε * ε') * |x| := by ring

theorem mul (h : Within ε x z) (h' : Within ε' y w) (hε : 0 ≤ ε) :
    Within (ε + ε' + ε * ε') (x * y) (z * w) := by
  have he : z * w - x * y = (z - x) * w + x * (w - y) := by ring
  calc |z * w - x * y| = |(z - x) * w + x * (w - y)| := by rw [he]
    _ ≤ |(z - x) * w| + |x * (w - y)| := abs_add_le _ _
    _ = |z - x| * |w| + |x| * |w - y| := by rw [abs_mul, abs_mul]
    _ ≤ (ε * |x|) * ((1 + ε') * |y|) + |x| * (ε' * |y|) := by
      gcongr
      · exact h
      · exact h'.abs_le
      · exact h'
    _ = (ε + ε' + ε * ε') * |x * y| := by rw [abs_mul]; ring

theorem inv (h : Within ε x z) (hε : ε ≤ 1 / 2) : Within (2 * ε) x⁻¹ z⁻¹ := by
  by_cases hx : x = 0
  · have hz : z = 0 := (h.eq_zero_iff (by linarith)).mpr hx
    simp [Within, hx, hz]
  have hz : z ≠ 0 := fun hz => hx ((h.eq_zero_iff (by linarith)).mp hz)
  have hpos : 0 < |z| := abs_pos.mpr hz
  have hxpos : 0 < |x| := abs_pos.mpr hx
  have hhalf : |x| ≤ 2 * |z| := by
    have hle := h.le_abs
    nlinarith
  have he : z⁻¹ - x⁻¹ = -(z - x) * (x⁻¹ * z⁻¹) := by
    field_simp
    ring
  calc |z⁻¹ - x⁻¹| = |z - x| * (|x|⁻¹ * |z|⁻¹) := by
        rw [he, abs_mul, abs_neg, abs_mul, abs_inv, abs_inv]
    _ ≤ (ε * |x|) * (|x|⁻¹ * |z|⁻¹) := by gcongr; exact h
    _ = ε * |z|⁻¹ := by field_simp
    _ ≤ ε * (2 * |x|⁻¹) := by
      have hε' : 0 ≤ ε := by
        by_contra hneg
        have := mul_neg_of_neg_of_pos (not_le.mp hneg) hxpos
        have := abs_nonneg (z - x)
        unfold Within at h
        linarith
      gcongr
      rw [← div_eq_mul_inv, le_div_iff₀ hxpos, inv_mul_le_iff₀ hpos]
      linarith
    _ = 2 * ε * |x⁻¹| := by rw [abs_inv]; ring

theorem div (h : Within ε x z) (h' : Within ε' y w) (hε : 0 ≤ ε) (hε' : ε' ≤ 1 / 2) :
    Within (ε + 2 * ε' + ε * (2 * ε')) (x / y) (z / w) := by
  rw [div_eq_mul_inv, div_eq_mul_inv]
  exact h.mul (h'.inv hε') hε

/-- Sums of opposite numbers keep the absolute error only. -/
theorem abs_add_sub_le (h : Within ε x z) (h' : Within ε y w) :
    |z + w - (x + y)| ≤ ε * (|x| + |y|) := by
  have he : z + w - (x + y) = (z - x) + (w - y) := by ring
  calc |z + w - (x + y)| = |(z - x) + (w - y)| := by rw [he]
    _ ≤ |z - x| + |w - y| := abs_add_le _ _
    _ ≤ ε * |x| + ε * |y| := add_le_add h h'
    _ = ε * (|x| + |y|) := by ring

end Within

end Make24
