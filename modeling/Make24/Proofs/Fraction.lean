import Make24.Proofs.Exact
import Mathlib.Algebra.Order.Field.Basic
import Mathlib.Tactic.FieldSimp
import Mathlib.Tactic.GCongr
import Mathlib.Tactic.Linarith
import Mathlib.Tactic.Positivity
import Mathlib.Tactic.Ring

namespace Make24

/-- A fraction of two whole numbers that are at most `p` and `q` in size. -/
def IsFraction (p q : ℕ) (x : ℚ) : Prop :=
  ∃ a b : ℤ, x = a / b ∧ b ≠ 0 ∧ |a| ≤ p ∧ |b| ≤ q

namespace IsFraction
variable {p q p' q' : ℕ} {x y : ℚ}

theorem mono (h : IsFraction p q x) (hp : p ≤ p') (hq : q ≤ q') : IsFraction p' q' x := by
  obtain ⟨a, b, hx, hb, ha, hbq⟩ := h
  exact ⟨a, b, hx, hb, le_trans ha (by exact_mod_cast hp), le_trans hbq (by exact_mod_cast hq)⟩

theorem natCast (h : n ≤ p) : IsFraction p 1 n :=
  ⟨n, 1, by simp, one_ne_zero, by simpa using h, le_refl 1⟩

theorem abs_le (h : IsFraction p q x) : |x| ≤ p := by
  obtain ⟨a, b, rfl, hb, ha, -⟩ := h
  have hone : (1 : ℚ) ≤ |(b : ℚ)| := by exact_mod_cast Int.one_le_abs hb
  have hap : |(a : ℚ)| ≤ p := by exact_mod_cast ha
  rw [abs_div, div_le_iff₀ (by linarith)]
  exact le_trans hap (le_mul_of_one_le_right (Nat.cast_nonneg p) hone)

/-- A fraction other than zero is no smaller than one part of its denominator. -/
theorem le_abs (h : IsFraction p q x) (hx : x ≠ 0) : 1 / (q : ℚ) ≤ |x| := by
  obtain ⟨a, b, rfl, hb, -, hbq⟩ := h
  have ha : a ≠ 0 := by
    rintro rfl
    simp at hx
  have hone : (1 : ℚ) ≤ |(a : ℚ)| := by exact_mod_cast Int.one_le_abs ha
  have hpos : (0 : ℚ) < |(b : ℚ)| := by exact_mod_cast abs_pos.mpr hb
  rw [abs_div]
  exact div_le_div₀ (abs_nonneg _) hone hpos (by exact_mod_cast hbq)

theorem neg (h : IsFraction p q x) : IsFraction p q (-x) := by
  obtain ⟨a, b, rfl, hb, ha, hbq⟩ := h
  exact ⟨-a, b, by push_cast; ring, hb, by rwa [abs_neg], hbq⟩

theorem add (hx : IsFraction p q x) (hy : IsFraction p' q' y) :
    IsFraction (p * q' + p' * q) (q * q') (x + y) := by
  obtain ⟨a, b, rfl, hb, ha, hbq⟩ := hx
  obtain ⟨a', b', rfl, hb', ha', hbq'⟩ := hy
  refine ⟨a * b' + a' * b, b * b', ?_, mul_ne_zero hb hb', ?_, ?_⟩
  · have hb0 : (b : ℚ) ≠ 0 := by exact_mod_cast hb
    have hb0' : (b' : ℚ) ≠ 0 := by exact_mod_cast hb'
    push_cast
    field_simp
  · calc |a * b' + a' * b| ≤ |a * b'| + |a' * b| := abs_add_le _ _
      _ = |a| * |b'| + |a'| * |b| := by rw [abs_mul, abs_mul]
      _ ≤ p * q' + p' * q := by gcongr
      _ = ((p * q' + p' * q : ℕ) : ℤ) := by push_cast; rfl
  · rw [abs_mul]
    push_cast
    gcongr

theorem sub (hx : IsFraction p q x) (hy : IsFraction p' q' y) :
    IsFraction (p * q' + p' * q) (q * q') (x - y) := by
  rw [sub_eq_add_neg]
  exact hx.add hy.neg

/-- A fraction keeps its distance from every whole number but itself. -/
theorem apart (h : IsFraction p q x) (n : ℕ) (hx : x ≠ n) : 1 / (q : ℚ) ≤ |x - n| := by
  simpa using (h.sub (natCast (le_refl n))).le_abs (sub_ne_zero.mpr hx)

theorem mul (hx : IsFraction p q x) (hy : IsFraction p' q' y) :
    IsFraction (p * p') (q * q') (x * y) := by
  obtain ⟨a, b, rfl, hb, ha, hbq⟩ := hx
  obtain ⟨a', b', rfl, hb', ha', hbq'⟩ := hy
  refine ⟨a * a', b * b', ?_, mul_ne_zero hb hb', ?_, ?_⟩
  · push_cast
    exact div_mul_div_comm _ _ _ _
  · rw [abs_mul]
    push_cast
    gcongr
  · rw [abs_mul]
    push_cast
    gcongr

theorem inv (h : IsFraction p q x) (hx : x ≠ 0) : IsFraction q p x⁻¹ := by
  obtain ⟨a, b, rfl, hb, ha, hbq⟩ := h
  refine ⟨b, a, inv_div _ _, ?_, hbq, ha⟩
  rintro rfl
  simp at hx

theorem div (hx : IsFraction p q x) (hy : IsFraction p' q' y) (h0 : y ≠ 0) :
    IsFraction (p * q') (q * p') (x / y) := by
  rw [div_eq_mul_inv]
  exact hx.mul (hy.inv h0)

theorem rational (op : Operator) (hx : IsFraction p q x) (hy : IsFraction p' q' y)
    (h0 : op = .div → y ≠ 0) (hsum : p * q' + p' * q ≤ n) (hmul : p * p' ≤ n) (hden : q * q' ≤ k)
    (hdiv : q * p' ≤ k) : IsFraction n k (op.rational x y) := by
  cases op with
  | add => exact (hx.add hy).mono hsum hden
  | sub => exact (hx.sub hy).mono hsum hden
  | mul => exact (hx.mul hy).mono hmul hden
  | div => exact (hx.div hy (h0 rfl)).mono (le_trans (Nat.le_add_right _ _) hsum) hdiv

end IsFraction

end Make24
