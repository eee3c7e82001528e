import Make24.Proofs.Accuracy
import Make24.Proofs.Tolerance

namespace Make24

/-- The number `w`, computed for the exact value `r`, is close to 24 or far from it just as `r` is
24 or not. -/
structure Decided (r w : ℚ) : Prop where
  near : r = 24 → |w - 24| ≤ 9 / 10 ^ 10
  far : r ≠ 24 → 2 / 10 ^ 9 ≤ |w - 24|

theorem Decided.reachesTarget_iff (h : Decided r w) (ha : Represents n a w) (hn : n ≤ 420)
    (h5 : 5 ≤ n) : reachesTarget a = true ↔ r = 24 := by
  constructor
  · intro hr
    by_contra hne
    exact not_reachesTarget_of_far ha hn h5 (h.far hne) hr
  · intro hr
    exact reachesTarget_of_near ha hn h5 (h.near hr)

/-- One more rounding does not matter where the exact value is a fraction of some size. -/
theorem decided_of_close (hr : IsFraction 59049 6561 r) (hfar : |z - r| ≤ 1 / 10 ^ 6)
    (hnear : r = 24 → |z - r| ≤ 8 / 10 ^ 10) (hw : Within roundoff z w) : Decided r w := by
  have hzr : |z| ≤ |r| + |z - r| := by
    calc |z| = |r + (z - r)| := by rw [add_sub_cancel]
      _ ≤ |r| + |z - r| := abs_add_le _ _
  unfold Within roundoff at hw
  constructor
  · rintro rfl
    have hclose := hnear rfl
    rw [abs_of_pos (by norm_num : (0 : ℚ) < 24)] at hzr
    calc |w - 24| ≤ |w - z| + |z - 24| := abs_sub_le _ _ _
      _ ≤ 9 / 10 ^ 10 := by linarith
  · intro hne
    have hapart : 1 / ((6561 : ℕ) : ℚ) ≤ |r - (24 : ℕ)| := hr.apart 24 (by exact_mod_cast hne)
    have hru : |r| ≤ (59049 : ℕ) := hr.abs_le
    have hsplit : |r - 24| ≤ |r - z| + |z - w| + |w - 24| := by
      calc |r - 24| ≤ |r - w| + |w - 24| := abs_sub_le _ _ _
        _ ≤ |r - z| + |z - w| + |w - 24| := by gcongr; exact abs_sub_le _ _ _
    rw [abs_sub_comm r z, abs_sub_comm z w] at hsplit
    push_cast at hapart hru
    linarith

theorem Coarse.decided (h : Coarse x a) : ∃ w, Represents 182 a w ∧ Decided x w := by
  obtain ⟨z, hz, hclose⟩ := h.near
  have hxu : |x| ≤ (6561 : ℕ) := h.fraction.abs_le
  push_cast at hxu
  refine ⟨z, hz, decided_of_close (h.fraction.mono (by norm_num) (by norm_num)) (by linarith) ?_
    (Within.refl roundoff_nonneg z)⟩
  rintro rfl
  rw [abs_of_pos (by norm_num : (0 : ℚ) < 24)] at hclose
  linarith

/-- An operator that takes the error at most nine times keeps the decision. -/
theorem decided_of_close_mul (hx : IsFraction 6561 729 x) (hclose : |z - x| ≤ (1 + |x|) / 2 ^ 44)
    (hr : IsFraction 59049 6561 r) (hv : |v - r| ≤ 9 * |z - x|) (h24 : r = 24 → |x| ≤ 216)
    (hw : Within roundoff v w) : Decided r w := by
  have hxu : |x| ≤ (6561 : ℕ) := hx.abs_le
  push_cast at hxu
  refine decided_of_close hr (by linarith) ?_ hw
  intro he
  have := h24 he
  linarith

section digit
variable {d : ℚ} (hl : 1 ≤ d) (hu : d ≤ 9)
include hl hu

theorem rational_right_close (op : Operator) (x z : ℚ) :
    |op.rational z d - op.rational x d| ≤ 9 * |z - x| := by
  have hzx := abs_nonneg (z - x)
  have hd : |d| = d := abs_of_pos (by linarith)
  cases op with
  | add =>
    have he : z + d - (x + d) = z - x := by ring
    rw [Operator.rational, he]
    linarith
  | sub =>
    have he : z - d - (x - d) = z - x := by ring
    rw [Operator.rational, he]
    linarith
  | mul =>
    have he : z * d - x * d = d * (z - x) := by ring
    rw [Operator.rational, he, abs_mul, hd]
    gcongr
  | div =>
    have he : z / d - x / d = (z - x) / d := by ring
    rw [Operator.rational, he, abs_div, hd, div_le_iff₀ (by linarith)]
    nlinarith

theorem rational_left_close (op : Operator) (hop : op ≠ .div) (x z : ℚ) :
    |op.rational d z - op.rational d x| ≤ 9 * |z - x| := by
  have hright := rational_right_close hl hu op x z
  cases op with
  | add =>
    simp only [Operator.rational] at hright ⊢
    rwa [add_comm d z, add_comm d x]
  | sub =>
    have he : d - z - (d - x) = -(z - d - (x - d)) := by ring
    simp only [Operator.rational] at hright ⊢
    rwa [he, abs_neg]
  | mul =>
    simp only [Operator.rational] at hright ⊢
    rwa [mul_comm d z, mul_comm d x]
  | div => exact absurd rfl hop

theorem abs_le_of_rational_right (op : Operator) (x : ℚ) (h : op.rational x d = 24) :
    |x| ≤ 216 := by
  cases op with
  | add =>
    have hx : x = 24 - d := by simp only [Operator.rational] at h; linarith
    rw [hx, abs_le]
    constructor <;> linarith
  | sub =>
    have hx : x = 24 + d := by simp only [Operator.rational] at h; linarith
    rw [hx, abs_le]
    constructor <;> linarith
  | mul =>
    simp only [Operator.rational] at h
    rw [abs_le]
    constructor <;> nlinarith
  | div =>
    have hx : x = 24 * d := (div_eq_iff (by linarith)).mp h
    rw [hx, abs_le]
    constructor <;> linarith

theorem abs_le_of_rational_left (op : Operator) (hop : op ≠ .div) (x : ℚ)
    (h : op.rational d x = 24) : |x| ≤ 216 := by
  cases op with
  | add =>
    have hx : x = 24 - d := by simp only [Operator.rational] at h; linarith
    rw [hx, abs_le]
    constructor <;> linarith
  | sub =>
    have hx : x = d - 24 := by simp only [Operator.rational] at h; linarith
    rw [hx, abs_le]
    constructor <;> linarith
  | mul =>
    simp only [Operator.rational] at h
    rw [abs_le]
    constructor <;> nlinarith
  | div => exact absurd rfl hop

end digit

theorem Coarse.decided_right (op : Operator) (h : Coarse x a) (hd : isPlayable d = true) :
    ∃ w, Represents 418 (Arithmetic.float.apply op a (Float.ofNat d)) w ∧
      Decided (op.rational x d) w := by
  obtain ⟨z, hz, hclose⟩ := h.near
  have hd0 := digit_ne_zero hd
  obtain ⟨hl, hu⟩ := digit_bounds hd
  obtain ⟨w, hw, hround⟩ := represents_apply op hz ((represents_digit hd).mono (by norm_num))
    (by norm_num) fun _ => hd0
  have hr : IsFraction 59049 6561 (op.rational x d) :=
    h.fraction.rational op (fraction_digit hd) (fun _ => hd0) (by norm_num) (by norm_num)
      (by norm_num) (by norm_num)
  exact ⟨w, hw, decided_of_close_mul h.fraction hclose hr (rational_right_close hl hu op x z)
    (abs_le_of_rational_right hl hu op x) hround⟩

theorem Coarse.decided_left (op : Operator) (hop : op ≠ .div) (h : Coarse x a)
    (hd : isPlayable d = true) :
    ∃ w, Represents 418 (Arithmetic.float.apply op (Float.ofNat d) a) w ∧
      Decided (op.rational d x) w := by
  obtain ⟨z, hz, hclose⟩ := h.near
  obtain ⟨hl, hu⟩ := digit_bounds hd
  obtain ⟨w, hw, hround⟩ := represents_apply op ((represents_digit hd).mono (by norm_num)) hz
    (by norm_num) fun h => absurd h hop
  have hr : IsFraction 59049 6561 (op.rational d x) :=
    (fraction_digit hd).rational op h.fraction (fun h => absurd h hop) (by norm_num) (by norm_num)
      (by norm_num) (by norm_num)
  exact ⟨w, hw, decided_of_close_mul h.fraction hclose hr (rational_left_close hl hu op hop x z)
    (abs_le_of_rational_left hl hu op hop x) hround⟩

/-- Dividing by a value with an error is safe where the quotient is 24, since the value is not small
there. -/
theorem near_div {d z w : ℚ} (hl : 1 ≤ d) (hclose : |z - d / 24| ≤ (1 + |d / 24|) / 2 ^ 44)
    (hw : Within roundoff (d / z) w) : |w - 24| ≤ 9 / 10 ^ 10 := by
  rw [abs_of_pos (by linarith : (0 : ℚ) < d / 24)] at hclose
  obtain ⟨hzl, hzu⟩ := abs_le.mp hclose
  have hz : 1 / 25 ≤ z := by linarith
  have hquot : |d / z - 24| ≤ 5 / 10 ^ 10 := by
    have he : d / z - 24 = 24 * (d / 24 - z) / z := by
      field_simp
    rw [he, abs_div, abs_mul, abs_sub_comm, abs_of_pos (by linarith : 0 < z),
      abs_of_pos (by norm_num : (0 : ℚ) < 24), div_le_iff₀ (by linarith)]
    linarith
  have hround : |w - d / z| ≤ 1 / 10 ^ 10 := by
    obtain ⟨-, hq⟩ := abs_le.mp hquot
    have hpos : 0 < d / z := div_pos (by linarith) (by linarith)
    unfold Within roundoff at hw
    rw [abs_of_pos hpos] at hw
    linarith
  calc |w - 24| ≤ |w - d / z| + |d / z - 24| := abs_sub_le _ _ _
    _ ≤ 9 / 10 ^ 10 := by linarith

theorem bounds_of_close (hx : IsFraction 6561 729 x) (hx0 : x ≠ 0)
    (hclose : |z - x| ≤ (1 + |x|) / 2 ^ 44) : 1 / 730 ≤ |z| ∧ |z| ≤ 6562 := by
  have hxl : 1 / ((729 : ℕ) : ℚ) ≤ |x| := hx.le_abs hx0
  have hxu : |x| ≤ (6561 : ℕ) := hx.abs_le
  have hlow : |x| ≤ |z| + |z - x| := by
    calc |x| = |z - (z - x)| := by rw [sub_sub_cancel]
      _ ≤ |z| + |z - x| := abs_sub _ _
  have hhigh : |z| ≤ |x| + |z - x| := by
    calc |z| = |x + (z - x)| := by rw [add_sub_cancel]
      _ ≤ |x| + |z - x| := abs_add_le _ _
  push_cast at hxl hxu
  constructor <;> linarith

/-- Where 24 times the divisor is not the digit, the two differ by a part of the denominator. -/
theorem product_apart {d : ℕ} {x z : ℚ} (hx : IsFraction 6561 729 x) (hx0 : x ≠ 0)
    (hne : d / x ≠ 24) (hclose : |z - x| ≤ (1 + |x|) / 2 ^ 44) : 1 / 730 ≤ |24 * z - d| := by
  have hxu : |x| ≤ (6561 : ℕ) := hx.abs_le
  have hapart : 1 / ((1 * 729 : ℕ) : ℚ) ≤ |(24 : ℕ) * x - d| := by
    refine ((IsFraction.natCast (le_refl 24)).mul hx).apart d ?_
    intro he
    apply hne
    rw [← he]
    field_simp
    norm_num
  have hle : |24 * x - d| ≤ |24 * x - 24 * z| + |24 * z - d| := abs_sub_le _ _ _
  have he : |24 * x - 24 * z| = 24 * |z - x| := by
    rw [← mul_sub, abs_mul, abs_sub_comm, abs_of_pos (by norm_num : (0 : ℚ) < 24)]
  push_cast at hxu hapart
  linarith

/-- Where the quotient is not 24, it is far from it. -/
theorem far_div {d : ℕ} {x z w : ℚ} (hd : (d : ℚ) ≤ 9) (hx : IsFraction 6561 729 x) (hx0 : x ≠ 0)
    (hne : d / x ≠ 24) (hclose : |z - x| ≤ (1 + |x|) / 2 ^ 44) (hw : Within roundoff (d / z) w) :
    2 / 10 ^ 9 ≤ |w - 24| := by
  obtain ⟨hzl, hzu⟩ := bounds_of_close hx hx0 hclose
  have hz0 : z ≠ 0 := by
    rintro rfl
    rw [abs_zero] at hzl
    linarith
  have hquot : 2 / 10 ^ 7 ≤ |d / z - 24| := by
    have he : d / z - 24 = -(24 * z - d) / z := by
      field_simp
      ring
    have hdiff := product_apart hx hx0 hne hclose
    rw [he, abs_div, abs_neg, le_div_iff₀ (by linarith)]
    linarith
  have hround : |w - d / z| ≤ 1 / 10 ^ 9 := by
    have hsize : |(d : ℚ) / z| ≤ 6570 := by
      rw [abs_div, Nat.abs_cast, div_le_iff₀ (by linarith)]
      linarith
    unfold Within roundoff at hw
    linarith
  have hle : |d / z - 24| ≤ |d / z - w| + |w - 24| := abs_sub_le _ _ _
  rw [abs_sub_comm (d / z) w] at hle
  linarith

theorem eq_zero_of_close (hx : IsFraction 6561 729 x) (hclose : |0 - x| ≤ (1 + |x|) / 2 ^ 44) :
    x = 0 := by
  by_contra hx0
  obtain ⟨hzl, -⟩ := bounds_of_close hx hx0 hclose
  rw [abs_zero] at hzl
  linarith

/-- Dividing by what should be zero gives far too much. -/
theorem far_div_of_zero {d z w : ℚ} (hl : 1 ≤ d) (hz0 : z ≠ 0) (hclose : |z| ≤ 1 / 2 ^ 44)
    (hw : Within roundoff (d / z) w) : 2 / 10 ^ 9 ≤ |w - 24| := by
  have hz : 0 < |z| := abs_pos.mpr hz0
  have hquot : 2 ^ 44 ≤ |d / z| := by
    rw [abs_div, abs_of_pos (by linarith : 0 < d), le_div_iff₀ hz]
    linarith
  have hw' : 100 ≤ |w| := by
    have hle := hw.le_abs
    unfold roundoff at hle
    linarith
  have hle : |w| ≤ |w - 24| + 24 := by
    calc |w| = |(w - 24) + 24| := by rw [sub_add_cancel]
      _ ≤ |w - 24| + |24| := abs_add_le _ _
      _ = |w - 24| + 24 := by rw [abs_of_pos (by norm_num : (0 : ℚ) < 24)]
  linarith

/-- An exact value, and what the doubles make of it. A division by zero leaves them without a
number. -/
def Rough : Option ℚ → Float → Prop
  | some x, a => Coarse x a
  | none, a => Wild a.toModel.unpack

theorem rough_apply (op : Operator) (hx : Fine x a) (hy : Fine y b) :
    Rough (Arithmetic.exact.apply op (some x) (some y)) (Arithmetic.float.apply op a b) := by
  by_cases hd : op = .div ∧ y = 0
  · obtain ⟨rfl, rfl⟩ := hd
    obtain ⟨z, hz, -⟩ := hx.near
    obtain ⟨v, hv, hround⟩ := hy.near
    obtain rfl : v = 0 := (hround.eq_zero_iff (by norm_num [roundoff])).mpr rfl
    rw [exact_apply_div_zero]
    exact wild_div_zero hz hv
  · have hy0 : op = .div → y ≠ 0 := fun hop h => hd ⟨hop, h⟩
    rw [exact_apply_some hy0]
    exact coarse_apply op hx hy hy0

namespace Rough

theorem reachesTarget_iff (h : Rough x a) : reachesTarget a = true ↔ x = some 24 := by
  cases x with
  | none => exact iff_of_false (not_reachesTarget_of_astray (Wild.astray h)) (by simp)
  | some x =>
    obtain ⟨w, hw, hdec⟩ := Coarse.decided h
    rw [hdec.reachesTarget_iff hw (by norm_num) (by norm_num), Option.some.injEq]

theorem reachesTarget_right (op : Operator) (h : Rough x a) (hd : isPlayable d = true) :
    reachesTarget (Arithmetic.float.apply op a (Float.ofNat d)) = true ↔
      Arithmetic.exact.apply op x (some (d : ℚ)) = some 24 := by
  cases x with
  | none =>
    have hastray := astray_apply_left op h (represents_digit hd) (digit_ne_zero hd)
    exact iff_of_false (not_reachesTarget_of_astray hastray) (by simp)
  | some x =>
    obtain ⟨w, hw, hdec⟩ := Coarse.decided_right op h hd
    rw [exact_apply_some fun _ => digit_ne_zero hd, Option.some.injEq,
      hdec.reachesTarget_iff hw (by norm_num) (by norm_num)]

/-- A digit divided by a value that was computed. -/
theorem reachesTarget_div (h : Coarse x a) (hd : isPlayable d = true) :
    reachesTarget (Arithmetic.float.apply .div (Float.ofNat d) a) = true ↔
      Arithmetic.exact.apply .div (some (d : ℚ)) (some x) = some 24 := by
  obtain ⟨z, hz, hclose⟩ := h.near
  obtain ⟨hl, hu⟩ := digit_bounds hd
  have hdig := (represents_digit hd).mono (by norm_num : 5 ≤ 182)
  -- A divisor that is zero exactly may come out as a tiny double, but no other becomes zero.
  by_cases hz0 : z = 0
  · subst hz0
    have hastray := (wild_div_zero hdig hz).astray
    rw [eq_zero_of_close h.fraction hclose, exact_apply_div_zero]
    exact iff_of_false (not_reachesTarget_of_astray hastray) (by simp)
  obtain ⟨w, hw, hround⟩ := represents_apply .div hdig hz (by norm_num) fun _ => hz0
  by_cases hx0 : x = 0
  · subst hx0
    rw [sub_zero, abs_zero, add_zero] at hclose
    rw [exact_apply_div_zero]
    exact iff_of_false (not_reachesTarget_of_far hw (by norm_num) (by norm_num)
      (far_div_of_zero hl hz0 hclose hround)) (by simp)
  · rw [exact_apply_some fun _ => hx0, Option.some.injEq]
    have hdec : Decided (d / x) w := by
      constructor
      · intro he
        have hx : x = d / 24 := by
          rw [← he, div_div_cancel₀ (digit_ne_zero hd)]
        rw [hx] at hclose
        exact near_div hl hclose hround
      · intro hne
        exact far_div hu h.fraction hx0 hne hclose hround
    exact hdec.reachesTarget_iff hw (by norm_num) (by norm_num)

theorem reachesTarget_left (op : Operator) (h : Rough x a) (hd : isPlayable d = true) :
    reachesTarget (Arithmetic.float.apply op (Float.ofNat d) a) = true ↔
      Arithmetic.exact.apply op (some (d : ℚ)) x = some 24 := by
  cases x with
  | none =>
    have hastray := astray_apply_right op (represents_digit hd) (digit_ne_zero hd) h
    exact iff_of_false (not_reachesTarget_of_astray hastray) (by simp)
  | some x =>
    by_cases hop : op = .div
    · subst hop
      exact reachesTarget_div h hd
    · obtain ⟨w, hw, hdec⟩ := Coarse.decided_left op hop h hd
      rw [exact_apply_some fun he => absurd he hop, Option.some.injEq,
        hdec.reachesTarget_iff hw (by norm_num) (by norm_num)]

end Rough

end Make24
