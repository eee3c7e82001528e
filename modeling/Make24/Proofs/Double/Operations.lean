import Make24.Proofs.Double.Packing

namespace Make24
open Float.Model
open Float.Model.UnpackedFloat

/-- A number that is zero, or neither very small nor very large. -/
def Tame (n : ℕ) (x : ℚ) : Prop :=
  x = 0 ∨ 2 ^ (-(n : ℤ)) ≤ |x| ∧ |x| ≤ 2 ^ (n : ℤ)

namespace Tame

theorem mono (h : Tame n x) (hn : n ≤ k) : Tame k x := by
  rcases h with h | ⟨hl, hu⟩
  · exact .inl h
  · refine .inr ⟨le_trans ?_ hl, le_trans hu ?_⟩
    · exact zpow_le_zpow_right₀ (by norm_num) (by omega)
    · exact zpow_le_zpow_right₀ (by norm_num) (by omega)

theorem mul (hx : Tame n x) (hy : Tame k y) : Tame (n + k) (x * y) := by
  rcases hx with rfl | ⟨hxl, hxu⟩
  · exact .inl (zero_mul y)
  rcases hy with rfl | ⟨hyl, hyu⟩
  · exact .inl (mul_zero x)
  right
  have hneg : -((n + k : ℕ) : ℤ) = -n + -k := by omega
  rw [abs_mul, hneg, Nat.cast_add, zpow_add₀ (by norm_num), zpow_add₀ (by norm_num)]
  constructor <;> gcongr

theorem inv (hx : Tame n x) : Tame n x⁻¹ := by
  rcases hx with rfl | ⟨hxl, hxu⟩
  · exact .inl inv_zero
  right
  have hpos : 0 < |x| := lt_of_lt_of_le (by positivity) hxl
  rw [abs_inv, zpow_neg]
  refine ⟨inv_anti₀ hpos hxu, ?_⟩
  rw [inv_le_comm₀ hpos (by positivity), ← zpow_neg]
  exact hxl

theorem div (hx : Tame n x) (hy : Tame k y) : Tame (n + k) (x / y) := by
  rw [div_eq_mul_inv]
  exact hx.mul hy.inv

theorem neg (hx : Tame n x) : Tame n (-x) := by
  rcases hx with rfl | hx
  · exact .inl neg_zero
  · exact .inr (by rwa [abs_neg])

theorem abs (hx : Tame n x) : Tame n |x| := by
  rcases hx with rfl | hx
  · exact .inl abs_zero
  · exact .inr (by rwa [abs_abs])

theorem upper (hx : Tame n x) : |x| ≤ 2 ^ (n : ℤ) := by
  rcases hx with rfl | ⟨-, hxu⟩
  · rw [abs_zero]
    positivity
  · exact hxu

theorem abs_sum_le (hx : Tame n x) (hy : Tame n y) : |x + y| ≤ 2 ^ ((n + 53 : ℕ) : ℤ) := by
  calc |x + y| ≤ |x| + |y| := abs_add_le x y
    _ ≤ 2 ^ (n : ℤ) + 2 ^ (n : ℤ) := add_le_add hx.upper hy.upper
    _ = 2 ^ ((n : ℤ) + 1) := by rw [zpow_add_one₀ (by norm_num)]; ring
    _ ≤ 2 ^ ((n + 53 : ℕ) : ℤ) := zpow_le_zpow_right₀ (by norm_num) (by omega)

theorem of_within (hx : Tame n x) (h : Within roundoff x z) : Tame (n + 1) z := by
  have hsmall : roundoff ≤ 1 / 2 := by norm_num [roundoff]
  rcases hx with rfl | ⟨hxl, hxu⟩
  · exact .inl ((h.eq_zero_iff (by linarith)).mpr rfl)
  right
  have hneg : -((n + 1 : ℕ) : ℤ) = -n - 1 := by omega
  have hpos : 0 ≤ |x| := abs_nonneg x
  rw [hneg, Nat.cast_add, Nat.cast_one, zpow_add₀ (by norm_num), zpow_sub₀ (by norm_num), zpow_one]
  constructor
  · calc (2 : ℚ) ^ (-(n : ℤ)) / 2 ≤ (1 - roundoff) * |x| := by nlinarith
      _ ≤ |z| := h.le_abs
  · calc |z| ≤ (1 + roundoff) * |x| := h.abs_le
      _ ≤ 2 ^ (n : ℤ) * 2 := by nlinarith

end Tame

theorem exponent_of_tame {a b e : ℤ} (s : Sign) (hl : (2 : ℚ) ^ a ≤ v) (hu : v < 2 ^ b)
    (ht : Tame n (signOf s * (v * 2 ^ e))) : -n - b < e ∧ e ≤ n - a := by
  have hv : 0 < v := lt_of_lt_of_le (by positivity) hl
  have hpow : (0 : ℚ) < 2 ^ e := by positivity
  have habs : |signOf s * (v * 2 ^ e)| = v * 2 ^ e := by
    rw [abs_mul, abs_signOf, one_mul, abs_of_pos (mul_pos hv hpow)]
  rcases ht with h | ⟨htl, htu⟩
  · rw [h, abs_zero] at habs
    exact absurd habs.symm (mul_pos hv hpow).ne'
  rw [habs] at htl htu
  constructor
  · have hlt : (2 : ℚ) ^ (-(n : ℤ)) < 2 ^ (b + e) := by
      rw [zpow_add₀ (by norm_num)]
      exact lt_of_le_of_lt htl (mul_lt_mul_of_pos_right hu hpow)
    have := (zpow_lt_zpow_iff_right₀ (by norm_num : (1 : ℚ) < 2)).mp hlt
    omega
  · have hle : (2 : ℚ) ^ (a + e) ≤ 2 ^ (n : ℤ) := by
      rw [zpow_add₀ (by norm_num)]
      exact le_trans (mul_le_mul_of_nonneg_right hl hpow.le) htu
    have := (zpow_le_zpow_iff_right₀ (by norm_num : (1 : ℚ) < 2)).mp hle
    omega

theorem value_pack (h : Value u x) (ht : Tame n x) (hn : n ≤ 900) :
    Value (Float.Model.pack u).unpack x := by
  cases h with
  | zero s =>
    rw [unpack_pack_zero]
    exact .zero s
  | finite s m e positive low high =>
    obtain ⟨hmin, hmax⟩ := exponent_of_tame (a := 52) (b := 53) s (by exact_mod_cast low)
      (by exact_mod_cast high) ht
    rw [unpack_pack_finite s positive low high (by omega) (by omega)]
    exact .finite s m e positive low high

/-- What an operation gives for the exact result `x`, once it is packed. -/
def Computes (n : ℕ) (u : UnpackedFloat) (x : ℚ) : Prop :=
  ∃ z, Value (Float.Model.pack u).unpack z ∧ Tame (n + 1) z ∧ Within roundoff x z

theorem roundoff_nonneg : 0 ≤ roundoff := by
  norm_num [roundoff]

theorem computes_of_value (h : Value u x) (ht : Tame n x) (hn : n ≤ 900) : Computes n u x :=
  ⟨x, value_pack h ht hn, ht.mono (Nat.le_succ n), Within.refl roundoff_nonneg x⟩

theorem computes_roundWithAccuracy {m : ℕ} (s : Sign) (hm : 52 ≤ m.log2) (hf : Leaves acc f)
    (ht : Tame n (signOf s * ((m + f) * 2 ^ e))) (hn : n < 900) :
    Computes n (roundWithAccuracy Format.binary64 s m e acc) (signOf s * ((m + f) * 2 ^ e)) := by
  have hne : m ≠ 0 := by
    rintro rfl
    simp at hm
  have hl : (2 : ℚ) ^ (m.log2 : ℤ) ≤ m + f := by
    have hle : ((2 ^ m.log2 : ℕ) : ℚ) ≤ m := by exact_mod_cast Nat.log2_self_le hne
    rw [zpow_natCast]
    push_cast at hle
    linarith [hf.residue.bounds.1]
  have hu : (m : ℚ) + f < 2 ^ ((m.log2 + 1 : ℕ) : ℤ) := by
    have hle : ((m + 1 : ℕ) : ℚ) ≤ (2 ^ (m.log2 + 1) : ℕ) := by exact_mod_cast Nat.lt_log2_self
    rw [zpow_natCast]
    push_cast at hle
    linarith [hf.residue.bounds.2]
  obtain ⟨hmin, -⟩ := exponent_of_tame s hl hu ht
  obtain ⟨z, hz, hwithin⟩ := value_roundWithAccuracy s hm (e := e) (by omega) hf
  have htame := ht.of_within hwithin
  exact ⟨z, value_pack hz htame (by omega), htame, hwithin⟩

/-- Too short a mantissa is lengthened before it is rounded. -/
theorem computes_round {m : ℕ} {e : ℤ} (s : Sign) (hm : 0 < m)
    (ht : Tame n (signOf s * (m * 2 ^ e))) (hn : n < 900) :
    Computes n (UnpackedFloat.round Format.binary64 s m e) (signOf s * (m * 2 ^ e)) := by
  have hl : (2 : ℚ) ^ (m.log2 : ℤ) ≤ m := by
    rw [zpow_natCast]
    exact_mod_cast Nat.log2_self_le hm.ne'
  have hu : (m : ℚ) < 2 ^ ((m.log2 + 1 : ℕ) : ℤ) := by
    rw [zpow_natCast]
    exact_mod_cast Nat.lt_log2_self
  obtain ⟨hmin, -⟩ := exponent_of_tame s hl hu ht
  have hshift : (e - max (totalExponent m e - 53) (-1074)).toNat = 52 - m.log2 := by
    unfold totalExponent
    omega
  have hlog : 52 ≤ (m <<< (52 - m.log2)).log2 := by
    have hbits : 2 ^ 52 ≤ m * 2 ^ (52 - m.log2) := by
      calc 2 ^ 52 ≤ 2 ^ (m.log2 + (52 - m.log2)) := Nat.pow_le_pow_right (by omega) (by omega)
        _ = 2 ^ m.log2 * 2 ^ (52 - m.log2) := Nat.pow_add 2 _ _
        _ ≤ m * 2 ^ (52 - m.log2) := Nat.mul_le_mul_right _ (Nat.log2_self_le hm.ne')
    rw [Nat.shiftLeft_eq]
    exact (Nat.le_log2 (by omega)).mpr hbits
  have hsame : (((m <<< (52 - m.log2) : ℕ) : ℚ) + 0) * 2 ^ (e - ((52 - m.log2 : ℕ) : ℤ)) =
      m * 2 ^ e := by
    rw [Nat.shiftLeft_eq, zpow_sub₀ (by norm_num), zpow_natCast]
    push_cast
    field_simp
    ring
  simp only [UnpackedFloat.round, decreaseExponent, targetExponent_binary64, hshift]
  rw [← hsame] at ht ⊢
  exact computes_roundWithAccuracy s hlog leaves_exact ht hn

theorem computes_normalize {m e : ℤ} (s : Sign) (ht : Tame n ((m : ℚ) * 2 ^ e)) (hn : n < 900) :
    Computes n (UnpackedFloat.normalize Format.binary64 m e s) (m * 2 ^ e) := by
  unfold UnpackedFloat.normalize
  rcases lt_trichotomy m 0 with hm | rfl | hm
  · rw [Int.compare_eq_lt.mpr hm]
    have hsame : (m : ℚ) * 2 ^ e = signOf .negative * (((-m).toNat : ℕ) * 2 ^ e) := by
      have hcast : (((-m).toNat : ℕ) : ℚ) = -m := by
        exact_mod_cast Int.toNat_of_nonneg (by omega : 0 ≤ -m)
      rw [hcast, signOf]
      ring
    rw [hsame] at ht ⊢
    exact computes_round .negative (by omega) ht hn
  · rw [Int.cast_zero, zero_mul]
    exact computes_of_value (.zero s) (.inl rfl) hn.le
  · rw [Int.compare_eq_gt.mpr hm]
    have hsame : (m : ℚ) * 2 ^ e = signOf .positive * ((m.toNat : ℕ) * 2 ^ e) := by
      have hcast : ((m.toNat : ℕ) : ℚ) = m := by
        exact_mod_cast Int.toNat_of_nonneg hm.le
      rw [hcast, signOf, one_mul]
    rw [hsame] at ht ⊢
    exact computes_round .positive (by omega) ht hn

theorem computes_mul (hu : Value u x) (hv : Value v y) (ht : Tame n (x * y)) (hn : n < 900) :
    Computes n (UnpackedFloat.mul Format.binary64 u v) (x * y) := by
  cases hu with
  | zero s =>
    rw [zero_mul] at ht ⊢
    cases hv with
    | zero s' => exact computes_of_value (.zero _) ht hn.le
    | finite s' m' e' positive' low' high' => exact computes_of_value (.zero _) ht hn.le
  | finite s m e positive low high =>
    cases hv with
    | zero s' =>
      rw [mul_zero] at ht ⊢
      exact computes_of_value (.zero _) ht hn.le
    | finite s' m' e' positive' low' high' =>
      have hsame : signOf s * (m * 2 ^ e) * (signOf s' * (m' * 2 ^ e')) =
          signOf (s * s') * (((m * m' : ℕ) + 0) * 2 ^ (e + e')) := by
        rw [signOf_mul, zpow_add₀ (by norm_num)]
        push_cast
        ring
      have hlog : 52 ≤ (m * m').log2 :=
        (Nat.le_log2 (Nat.mul_pos positive positive').ne').mpr
          (le_trans low (Nat.le_mul_of_pos_right m positive'))
      rw [hsame] at ht ⊢
      exact computes_roundWithAccuracy (s * s') hlog leaves_exact ht hn

/-- The fraction that integer division leaves out. -/
theorem leaves_accuracyOfFraction {num den : ℕ} (h : num < den) :
    Leaves (accuracyOfFraction num den) (num / den) := by
  have hden : (0 : ℚ) < den := by exact_mod_cast Nat.zero_lt_of_lt h
  have hlt : (num : ℚ) < den := by exact_mod_cast h
  unfold accuracyOfFraction
  split
  · next hz =>
    rw [hz, Nat.cast_zero, zero_div]
    exact leaves_exact
  · next hz =>
    have hnum : (0 : ℚ) < num := by exact_mod_cast Nat.pos_of_ne_zero hz
    rcases lt_trichotomy (2 * num) den with ho | ho | ho
    · rw [Nat.compare_eq_lt.mpr ho]
      have hhalf : 2 * (num : ℚ) < den := by exact_mod_cast ho
      refine ⟨by positivity, ?_⟩
      rw [div_lt_iff₀ hden]
      linarith
    · rw [Nat.compare_eq_eq.mpr ho]
      have hhalf : 2 * (num : ℚ) = den := by exact_mod_cast ho
      have hval : (num : ℚ) / den = 1 / 2 := by
        rw [div_eq_iff hden.ne']
        linarith
      exact ⟨hval⟩
    · rw [Nat.compare_eq_gt.mpr ho]
      have hhalf : (den : ℚ) < 2 * num := by exact_mod_cast ho
      refine ⟨?_, by rwa [div_lt_one hden]⟩
      rw [lt_div_iff₀ hden]
      linarith

/-- Full mantissas are divided with 53 bits more. -/
theorem divCore_eq {m m' : ℕ} {e e' : ℤ} (low : 2 ^ 52 ≤ m) (high : m < 2 ^ 53)
    (low' : 2 ^ 52 ≤ m') (high' : m' < 2 ^ 53) (he : -1021 ≤ e - e') :
    divCore Format.binary64 m e m' e' =
      ((m <<< 53) / m', e - e' - 53, accuracyOfFraction ((m <<< 53) % m') m') := by
  have htarget : min (e - e') (max (totalExponent m e - totalExponent m' e' - 53) (-1074)) =
      e - e' - 53 := by
    rw [totalExponent, totalExponent, log2_eq low high, log2_eq low' high']
    omega
  have hshift : (e - e' - (e - e' - 53)).toNat = 53 := by omega
  simp only [divCore, targetExponent_binary64, htarget, hshift]

theorem le_log2_quotient {m m' : ℕ} (low : 2 ^ 52 ≤ m) (high' : m' < 2 ^ 53) (positive' : 0 < m') :
    52 ≤ ((m <<< 53) / m').log2 := by
  have hbits : 2 ^ 52 ≤ (m <<< 53) / m' := by
    rw [Nat.le_div_iff_mul_le positive', Nat.shiftLeft_eq]
    omega
  exact (Nat.le_log2 (lt_of_lt_of_le (by norm_num) hbits).ne').mpr hbits

theorem quotient_add_remainder (m : ℕ) {m' : ℕ} (positive' : 0 < m') :
    (((m <<< 53) / m' : ℕ) : ℚ) + ((m <<< 53) % m' : ℕ) / m' = m * 2 ^ 53 / m' := by
  have hm' : (m' : ℚ) ≠ 0 := by exact_mod_cast positive'.ne'
  have hdiv := Nat.div_add_mod (m <<< 53) m'
  rw [mul_comm, Nat.shiftLeft_eq] at hdiv
  rw [eq_div_iff hm', add_mul, div_mul_cancel₀ _ hm', Nat.shiftLeft_eq]
  exact_mod_cast hdiv

theorem computes_div (hu : Value u x) (hv : Value v y) (hy : y ≠ 0) (ht : Tame n (x / y))
    (hn : n < 900) : Computes n (UnpackedFloat.div Format.binary64 u v) (x / y) := by
  cases hv with
  | zero s' => exact absurd rfl hy
  | finite s' m' e' positive' low' high' =>
    cases hu with
    | zero s =>
      rw [zero_div] at ht ⊢
      exact computes_of_value (.zero _) ht hn.le
    | finite s m e positive low high =>
      have hm' : (0 : ℚ) < m' := by exact_mod_cast positive'
      have hratio : signOf s * (m * 2 ^ e) / (signOf s' * (m' * 2 ^ e')) =
          signOf (s / s') * (m / m' * 2 ^ (e - e')) := by
        rw [signOf_div, zpow_sub₀ (by norm_num), mul_div_mul_comm, mul_div_mul_comm]
      rw [hratio] at ht ⊢
      have hl : (2 : ℚ) ^ (-1 : ℤ) ≤ m / m' := by
        have hle : (m' : ℚ) ≤ 2 * m := by exact_mod_cast (by omega : m' ≤ 2 * m)
        rw [zpow_neg_one, le_div_iff₀ hm']
        linarith
      have hu : (m : ℚ) / m' < 2 ^ (1 : ℤ) := by
        have hlt : (m : ℚ) < 2 * m' := by exact_mod_cast (by omega : m < 2 * m')
        rw [zpow_one, div_lt_iff₀ hm']
        exact hlt
      obtain ⟨hmin, -⟩ := exponent_of_tame (s / s') hl hu ht
      have hsame : (m : ℚ) / m' * (2 : ℚ) ^ (e - e') =
          ((((m <<< 53) / m' : ℕ) : ℚ) + ((m <<< 53) % m' : ℕ) / m') * 2 ^ (e - e' - 53) := by
        rw [quotient_add_remainder m positive', zpow_sub₀ (by norm_num) (e - e')]
        field_simp
      have hexp : -1021 ≤ e - e' := by omega
      have hleaves := leaves_accuracyOfFraction (Nat.mod_lt (m <<< 53) positive')
      have hlog := le_log2_quotient low high' positive'
      rw [hsame] at ht ⊢
      simp only [UnpackedFloat.div, divCore_eq low high low' high' hexp]
      exact computes_roundWithAccuracy (s / s') hlog hleaves ht hn

/-- Mantissas are brought to a common exponent. -/
theorem apply_shiftLeft (s : Sign) (m : ℕ) {e least : ℤ} (h : least ≤ e) :
    ((s.apply ((m <<< (e - least).toNat : ℕ) : ℤ) : ℤ) : ℚ) * 2 ^ least =
      signOf s * (m * 2 ^ e) := by
  have hexp : (2 : ℚ) ^ (e - least).toNat * 2 ^ least = 2 ^ e := by
    rw [← zpow_natCast, ← zpow_add₀ (by norm_num), Int.toNat_of_nonneg (by omega),
      sub_add_cancel]
  rw [← hexp, Nat.shiftLeft_eq]
  cases s <;> simp only [Sign.apply, signOf] <;> push_cast <;> ring

/-- A whole multiple of a power of two is no smaller than that power. -/
theorem tame_of_multiple {n : ℕ} {m e : ℤ} (he : -(n : ℤ) ≤ e)
    (hu : |(m : ℚ) * 2 ^ e| ≤ 2 ^ (n : ℤ)) : Tame n ((m : ℚ) * 2 ^ e) := by
  by_cases hm : m = 0
  · left
    rw [hm, Int.cast_zero, zero_mul]
  · refine .inr ⟨?_, hu⟩
    have hone : (1 : ℚ) ≤ |(m : ℚ)| := by exact_mod_cast Int.one_le_abs hm
    have hpos : (0 : ℚ) < 2 ^ e := by positivity
    calc (2 : ℚ) ^ (-(n : ℤ)) ≤ 2 ^ e := zpow_le_zpow_right₀ (by norm_num) he
      _ ≤ |(m : ℚ)| * 2 ^ e := le_mul_of_one_le_left hpos.le hone
      _ = |(m : ℚ) * 2 ^ e| := by rw [abs_mul, abs_of_pos hpos]

theorem computes_add (hu : Value u x) (hv : Value v y) (hx : Tame n x) (hy : Tame n y)
    (hn : n + 53 < 900) : Computes (n + 53) (UnpackedFloat.add Format.binary64 u v) (x + y) := by
  cases hu with
  | zero s =>
    rw [zero_add]
    cases hv with
    | zero s' =>
      simp only [UnpackedFloat.add]
      split
      · exact computes_of_value (.zero _) (.inl rfl) hn.le
      · exact computes_of_value (.zero _) (.inl rfl) hn.le
    | finite s' m' e' positive' low' high' =>
      exact computes_of_value (.finite s' m' e' positive' low' high') (hy.mono (by omega)) hn.le
  | finite s m e positive low high =>
    cases hv with
    | zero s' =>
      rw [add_zero]
      exact computes_of_value (.finite s m e positive low high) (hx.mono (by omega)) hn.le
    | finite s' m' e' positive' low' high' =>
      -- On the smaller exponent the sum is exact, and a whole multiple of a power of two.
      have hsum : ((s.apply ((m <<< (e - min e e').toNat : ℕ) : ℤ) +
          s'.apply ((m' <<< (e' - min e e').toNat : ℕ) : ℤ) : ℤ) : ℚ) * 2 ^ min e e' =
            signOf s * (m * 2 ^ e) + signOf s' * (m' * 2 ^ e') := by
        rw [Int.cast_add, add_mul, apply_shiftLeft s m (min_le_left e e'),
          apply_shiftLeft s' m' (min_le_right e e')]
      obtain ⟨hmin, -⟩ := exponent_of_tame (a := 52) (b := 53) s (by exact_mod_cast low)
        (by exact_mod_cast high) hx
      obtain ⟨hmin', -⟩ := exponent_of_tame (a := 52) (b := 53) s' (by exact_mod_cast low')
        (by exact_mod_cast high') hy
      have hu := hx.abs_sum_le hy
      rw [← hsum] at hu ⊢
      exact computes_normalize .positive (tame_of_multiple (by omega) hu) hn

theorem Value.neg (h : Value u x) : Value u.neg (-x) := by
  cases h with
  | zero s =>
    rw [neg_zero]
    exact .zero (-s)
  | finite s m e positive low high =>
    rw [← neg_mul, ← signOf_neg]
    exact .finite (-s) m e positive low high

/-- A difference is the sum with the opposite number. -/
theorem sub_eq_add_neg_unpacked (u v : UnpackedFloat) :
    UnpackedFloat.sub Format.binary64 u v = UnpackedFloat.add Format.binary64 u v.neg := by
  have happly (s : Sign) (m : ℤ) : (-s).apply m = -s.apply m := by
    cases s with
    | negative => exact (Int.neg_neg m).symm
    | positive => rfl
  cases u <;> cases v <;> try rfl
  simp only [UnpackedFloat.sub, UnpackedFloat.add, UnpackedFloat.neg, happly, Int.sub_eq_add_neg]

end Make24
