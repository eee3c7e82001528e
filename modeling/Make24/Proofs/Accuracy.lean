import Make24.Proofs.Double.Floats
import Make24.Proofs.Fraction

namespace Make24

/-- The double is what one operator at most gives for the exact value `x`. -/
structure Fine (x : ℚ) (a : Float) : Prop where
  near : ∃ z, Represents 64 a z ∧ Within roundoff x z
  fraction : IsFraction 81 9 x

/-- The double is what a few operators give for the exact value `x`. Where they cancel, only an
absolute error is bounded. -/
structure Coarse (x : ℚ) (a : Float) : Prop where
  near : ∃ z, Represents 182 a z ∧ |z - x| ≤ (1 + |x|) / 2 ^ 44
  fraction : IsFraction 6561 729 x

theorem playable_bounds (h : isPlayable d = true) : 0 < d ∧ d ≤ 9 := by
  simpa [isPlayable, Nat.succ_le_iff] using h

theorem fraction_digit (h : isPlayable d = true) : IsFraction 9 1 d :=
  .natCast (playable_bounds h).2

theorem digit_ne_zero (h : isPlayable d = true) : (d : ℚ) ≠ 0 := by
  exact_mod_cast (playable_bounds h).1.ne'

theorem digit_bounds (h : isPlayable d = true) : 1 ≤ (d : ℚ) ∧ (d : ℚ) ≤ 9 := by
  obtain ⟨hl, hu⟩ := playable_bounds h
  exact ⟨by exact_mod_cast hl, by exact_mod_cast hu⟩

theorem represents_digit (h : isPlayable d = true) : Represents 5 (Float.ofNat d) d := by
  obtain ⟨hl, hu⟩ := playable_bounds h
  exact represents_ofNat hl (by omega)

theorem fine_digit (h : isPlayable d = true) : Fine d (Float.ofNat d) :=
  ⟨⟨d, (represents_digit h).mono (by norm_num), Within.refl roundoff_nonneg _⟩,
    (fraction_digit h).mono (by norm_num) (by norm_num)⟩

theorem fine_apply (op : Operator) (hd : isPlayable d = true) (he : isPlayable e = true) :
    Fine (op.rational d e) (Arithmetic.float.apply op (Float.ofNat d) (Float.ofNat e)) := by
  have he0 := digit_ne_zero he
  constructor
  · exact represents_apply op (represents_digit hd) (represents_digit he) (by norm_num) fun _ => he0
  · exact (fraction_digit hd).rational op (fraction_digit he) (fun _ => he0) (by norm_num)
      (by norm_num) (by norm_num) (by norm_num)

theorem close_of_within {ε : ℚ} (h : Within ε r w) (hε : ε ≤ 1 / 2 ^ 44) :
    |w - r| ≤ (1 + |r|) / 2 ^ 44 := by
  have hle := h.mono hε
  unfold Within at hle
  have hr := abs_nonneg r
  linarith

/-- A sum of fine values, rounded. -/
theorem close_add (hx : Within roundoff x z) (hy : Within roundoff y v) (hxu : |x| ≤ 81)
    (hyu : |y| ≤ 81) (hw : Within roundoff (z + v) w) : |w - (x + y)| ≤ (1 + |x + y|) / 2 ^ 44 := by
  have hsum := hx.abs_add_sub_le hy
  have hr := abs_nonneg (x + y)
  have hz := hx.abs_le
  have hv := hy.abs_le
  have hzv : |z + v| ≤ 163 := by
    calc |z + v| ≤ |z| + |v| := abs_add_le _ _
      _ ≤ (1 + roundoff) * |x| + (1 + roundoff) * |y| := add_le_add hz hv
      _ ≤ 163 := by unfold roundoff; linarith
  have hsplit : w - (x + y) = (w - (z + v)) + (z + v - (x + y)) := by ring
  unfold Within roundoff at *
  calc |w - (x + y)| = |(w - (z + v)) + (z + v - (x + y))| := by rw [hsplit]
    _ ≤ |w - (z + v)| + |z + v - (x + y)| := abs_add_le _ _
    _ ≤ (1 + |x + y|) / 2 ^ 44 := by linarith

/-- Three roundings are a small error. -/
theorem close_rational (op : Operator) (hx : Within roundoff x z) (hy : Within roundoff y v)
    (hxu : |x| ≤ 81) (hyu : |y| ≤ 81) (hw : Within roundoff (op.rational z v) w) :
    |w - op.rational x y| ≤ (1 + |op.rational x y|) / 2 ^ 44 := by
  cases op with
  | add => exact close_add hx hy hxu hyu hw
  | sub =>
    simp only [Operator.rational] at hw ⊢
    rw [← abs_neg] at hyu
    rw [sub_eq_add_neg z v] at hw
    rw [sub_eq_add_neg x y]
    exact close_add hx hy.neg hxu hyu hw
  | mul =>
    simp only [Operator.rational] at hw ⊢
    have hall := (hx.mul hy roundoff_nonneg).trans hw roundoff_nonneg
    exact close_of_within hall (by norm_num [roundoff])
  | div =>
    simp only [Operator.rational] at hw ⊢
    have hall := (hx.div hy roundoff_nonneg (by norm_num [roundoff])).trans hw roundoff_nonneg
    exact close_of_within hall (by norm_num [roundoff])

theorem coarse_apply (op : Operator) (hx : Fine x a) (hy : Fine y b) (hd : op = .div → y ≠ 0) :
    Coarse (op.rational x y) (Arithmetic.float.apply op a b) := by
  obtain ⟨z, hz, hxz⟩ := hx.near
  obtain ⟨v, hv, hyv⟩ := hy.near
  have hzero : v = 0 ↔ y = 0 := hyv.eq_zero_iff (by norm_num [roundoff])
  obtain ⟨w, hw, hround⟩ := represents_apply op hz hv (by norm_num)
    fun hop h => hd hop (hzero.mp h)
  constructor
  · exact ⟨w, hw, close_rational op hxz hyv hx.fraction.abs_le hy.fraction.abs_le hround⟩
  · exact hx.fraction.rational op hy.fraction hd (by norm_num) (by norm_num) (by norm_num)
      (by norm_num)

theorem Fine.coarse (h : Fine x a) : Coarse x a := by
  obtain ⟨z, hz, hxz⟩ := h.near
  exact ⟨⟨z, hz.mono (by norm_num), close_of_within hxz (by norm_num [roundoff])⟩,
    h.fraction.mono (by norm_num) (by norm_num)⟩

end Make24
