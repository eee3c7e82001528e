import Make24.Proofs.Double.Operations
import Make24.Proofs.Exact

namespace Make24
open Float.Model
open Float.Model.UnpackedFloat

/-- The double stands for the number `x`, which is zero or of a size that `n` bounds. -/
structure Represents (n : ℕ) (a : Float) (x : ℚ) : Prop where
  value : Value a.toModel.unpack x
  tame : Tame n x

theorem Represents.mono (h : Represents n a x) (hn : n ≤ k) : Represents k a x :=
  ⟨h.value, h.tame.mono hn⟩

/-- An operator on doubles gives the exact result but for one rounding. -/
theorem represents_apply (op : Operator) (ha : Represents n a x) (hb : Represents n b y)
    (hn : n ≤ 420) (hd : op = .div → y ≠ 0) :
    ∃ z, Represents (2 * n + 54) (Arithmetic.float.apply op a b) z ∧
      Within roundoff (op.rational x y) z := by
  cases op with
  | add =>
    obtain ⟨z, hz, ht, hw⟩ := computes_add ha.value hb.value ha.tame hb.tame (by omega)
    exact ⟨z, ⟨hz, ht.mono (by omega)⟩, hw⟩
  | sub =>
    obtain ⟨z, hz, ht, hw⟩ := computes_add ha.value hb.value.neg ha.tame hb.tame.neg (by omega)
    rw [← sub_eq_add_neg_unpacked] at hz
    rw [← sub_eq_add_neg] at hw
    exact ⟨z, ⟨hz, ht.mono (by omega)⟩, hw⟩
  | mul =>
    obtain ⟨z, hz, ht, hw⟩ := computes_mul ha.value hb.value (ha.tame.mul hb.tame) (by omega)
    exact ⟨z, ⟨hz, ht.mono (by omega)⟩, hw⟩
  | div =>
    obtain ⟨z, hz, ht, hw⟩ := computes_div ha.value hb.value (hd rfl) (ha.tame.div hb.tame)
      (by omega)
    exact ⟨z, ⟨hz, ht.mono (by omega)⟩, hw⟩

theorem Value.eq_zero (h : Value u 0) : ∃ s, u = .zero s := by
  generalize hx : (0 : ℚ) = x at h
  cases h with
  | zero s => exact ⟨s, rfl⟩
  | finite s m e positive low high =>
    have hpos : (0 : ℚ) < |signOf s * (m * 2 ^ e)| := by
      rw [abs_mul, abs_signOf, one_mul]
      positivity
    rw [← hx, abs_zero] at hpos
    exact absurd hpos (lt_irrefl 0)

theorem Value.eq_finite (h : Value u x) (hx : x ≠ 0) :
    ∃ s m e positive, u = .finite s m e positive := by
  cases h with
  | zero s => exact absurd rfl hx
  | finite s m e positive low high => exact ⟨s, m, e, positive, rfl⟩

/-- An infinity or a NaN. -/
def Wild : UnpackedFloat → Prop
  | .infinity _ | .notANumber => True
  | _ => False

/-- An infinity or a NaN, or the zero that is left when something is divided by an infinity. -/
def Astray : UnpackedFloat → Prop
  | .finite .. => False
  | _ => True

theorem Wild.astray (h : Wild u) : Astray u := by
  cases u <;> trivial

theorem wild_pack (h : Wild u) : Wild (Float.Model.pack u).unpack := by
  cases u with
  | infinity s => rwa [unpack_pack_infinity]
  | notANumber => rwa [unpack_pack_notANumber]
  | zero s => cases h
  | finite s m e positive => cases h

theorem astray_pack (h : Astray u) : Astray (Float.Model.pack u).unpack := by
  cases u with
  | zero s => rwa [unpack_pack_zero]
  | infinity s => rwa [unpack_pack_infinity]
  | notANumber => rwa [unpack_pack_notANumber]
  | finite s m e positive => cases h

def Operator.unpacked : Operator → UnpackedFloat → UnpackedFloat → UnpackedFloat
  | .add => UnpackedFloat.add Format.binary64
  | .sub => UnpackedFloat.sub Format.binary64
  | .mul => UnpackedFloat.mul Format.binary64
  | .div => UnpackedFloat.div Format.binary64

theorem unpack_apply (op : Operator) (a b : Float) :
    (Arithmetic.float.apply op a b).toModel.unpack =
      (Float.Model.pack (op.unpacked a.toModel.unpack b.toModel.unpack)).unpack := by
  cases op <;> rfl

/-- Dividing by zero gives no number. -/
theorem wild_div_zero (ha : Represents n a x) (hb : Represents n b 0) :
    Wild (Arithmetic.float.apply .div a b).toModel.unpack := by
  rw [unpack_apply]
  apply wild_pack
  obtain ⟨s', hv⟩ := hb.value.eq_zero
  have hu := ha.value
  generalize a.toModel.unpack = u at hu
  rw [hv]
  cases hu <;> trivial

/-- From what is no number, one more operator gives none either, or else zero. -/
theorem astray_apply_left (op : Operator) (ha : Wild a.toModel.unpack) (hb : Represents n b y)
    (hy : y ≠ 0) : Astray (Arithmetic.float.apply op a b).toModel.unpack := by
  rw [unpack_apply]
  apply astray_pack
  obtain ⟨s, m, e, positive, hv⟩ := hb.value.eq_finite hy
  generalize a.toModel.unpack = u at ha
  rw [hv]
  cases u <;> cases op <;> trivial

theorem astray_apply_right (op : Operator) (ha : Represents n a x) (hx : x ≠ 0)
    (hb : Wild b.toModel.unpack) : Astray (Arithmetic.float.apply op a b).toModel.unpack := by
  rw [unpack_apply]
  apply astray_pack
  obtain ⟨s, m, e, positive, hu⟩ := ha.value.eq_finite hx
  generalize b.toModel.unpack = v at hb
  rw [hu]
  cases v <;> cases op <;> trivial

theorem unpack_ofNat (hpos : 0 < d) (h : d ≤ 24) :
    (Float.ofNat d).toModel.unpack =
      .finite .positive (d * 2 ^ (52 - d.log2)) (d.log2 - 52)
        (Nat.mul_pos hpos (Nat.two_pow_pos _)) := by
  interval_cases d <;> rfl

/-- Small whole numbers are doubles. -/
theorem represents_ofNat (hpos : 0 < d) (h : d ≤ 24) : Represents 5 (Float.ofNat d) d := by
  have hlog : d.log2 < 52 := (Nat.log2_lt hpos.ne').mpr (lt_of_le_of_lt h (by norm_num))
  have hexp : 2 ^ d.log2 * 2 ^ (52 - d.log2) = 2 ^ 52 := by
    rw [← Nat.pow_add, Nat.add_sub_cancel' hlog.le]
  have hlow : 2 ^ 52 ≤ d * 2 ^ (52 - d.log2) := by
    rw [← hexp]
    exact Nat.mul_le_mul_right _ (Nat.log2_self_le hpos.ne')
  have hhigh : d * 2 ^ (52 - d.log2) < 2 ^ 53 := by
    have hlt : d * 2 ^ (52 - d.log2) < 2 ^ (d.log2 + 1) * 2 ^ (52 - d.log2) :=
      Nat.mul_lt_mul_of_pos_right Nat.lt_log2_self (by positivity)
    rw [pow_succ', mul_assoc, hexp] at hlt
    omega
  have hsame : (d : ℚ) =
      signOf .positive * ((d * 2 ^ (52 - d.log2) : ℕ) * 2 ^ ((d.log2 : ℤ) - 52)) := by
    have hneg : (d.log2 : ℤ) - 52 = -((52 - d.log2 : ℕ) : ℤ) := by omega
    rw [hneg, zpow_neg, zpow_natCast, signOf, one_mul]
    push_cast
    field_simp
  refine ⟨?_, .inr ?_⟩
  · rw [unpack_ofNat hpos h, hsame]
    exact .finite .positive _ _ _ hlow hhigh
  · have hone : (1 : ℚ) ≤ d := by exact_mod_cast hpos
    have hall : (d : ℚ) ≤ 24 := by exact_mod_cast h
    rw [abs_of_pos (by linarith)]
    norm_num
    constructor <;> linarith

end Make24
