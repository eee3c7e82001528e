import Make24.Proofs.Double.Rounding

namespace Make24
open Float.Model
open Float.Model.UnpackedFloat

theorem toNat_one_append (m : BitVec 52) : (1#1 ++ m).toNat = 2 ^ 52 + m.toNat := by
  rw [BitVec.toNat_append, ← Nat.shiftLeft_add_eq_or_of_lt m.isLt]
  rfl

/-- What is read from the bits of a double that is neither subnormal nor special. -/
theorem unpack_normal (s : Sign) {e : BitVec 11} (hlow : e ≠ 0#11) (hhigh : e ≠ -1#11)
    (m : BitVec 52) :
    UnpackedFloat.unpack Format.binary64 (packComponents Format.binary64 s e m) =
      .finite s (2 ^ 52 + m.toNat) (e.toNat - 1075) (by omega) := by
  simp only [UnpackedFloat.unpack, unpackMantissa_packComponents, unpackExponent_packComponents,
    unpackSign_packComponents, Sign.ofBitVec_toBitVec, hlow, hhigh, ↓reduceIte, toNat_one_append]
  rfl

@[simp] theorem unpack_pack_notANumber :
    (Float.Model.pack .notANumber).unpack = .notANumber := rfl

@[simp] theorem unpack_pack_infinity (s : Sign) :
    (Float.Model.pack (.infinity s)).unpack = .infinity s := by
  cases s <;> rfl

@[simp] theorem unpack_pack_zero (s : Sign) :
    (Float.Model.pack (.zero s)).unpack = .zero s := by
  cases s <;> rfl

/-- Packing keeps a full mantissa whose exponent fits. -/
theorem unpack_pack_finite {m : ℕ} {e : ℤ} (s : Sign) (positive : 0 < m) (hl : 2 ^ 52 ≤ m)
    (hu : m < 2 ^ 53) (hmin : -1074 ≤ e) (hmax : e ≤ 971) :
    (Float.Model.pack (.finite s m e positive)).unpack = .finite s m e positive := by
  obtain ⟨biased, hb⟩ : ∃ biased : ℕ, (biased : ℤ) = e + 1075 := ⟨(e + 1075).toNat, by omega⟩
  have hbiased : (e + (Format.binary64.exponentBias : ℤ) +
      (Format.binary64.mantissaBitsWithoutImplicit : ℤ)).toNat = biased := by
    change (e + 1023 + 52).toNat = biased
    omega
  have hpack : UnpackedFloat.pack Format.binary64 (.finite s m e positive) =
      packComponents Format.binary64 s (BitVec.ofNat 11 biased) (BitVec.ofNat 52 m) := by
    have hfits : ¬2 ^ Format.binary64.exponentBits ≤ biased + 1 := by
      change ¬2 ^ 11 ≤ biased + 1
      omega
    have hfull : m.log2 + 1 = Format.binary64.mantissaBits := by
      rw [log2_eq hl hu]
      rfl
    simp only [UnpackedFloat.pack, hbiased, hfits, hfull, ↓reduceIte]
  have hexp : (BitVec.ofNat 11 biased).toNat = biased := Nat.mod_eq_of_lt (by omega)
  have hne (n : ℕ) (hn : n < 2 ^ 11) (h : biased ≠ n) :
      BitVec.ofNat 11 biased ≠ BitVec.ofNat 11 n := by
    intro he
    have hnat := congrArg BitVec.toNat he
    rw [hexp, BitVec.toNat_ofNat, Nat.mod_eq_of_lt hn] at hnat
    exact h hnat
  have hmant : 2 ^ 52 + (BitVec.ofNat 52 m).toNat = m := by
    rw [BitVec.toNat_ofNat]
    omega
  change UnpackedFloat.unpack Format.binary64
    (UnpackedFloat.pack Format.binary64 (.finite s m e positive)) = _
  rw [hpack, unpack_normal s (hne 0 (by omega) (by omega)) (hne 2047 (by omega) (by omega))]
  simp only [hexp, hmant, hb]
  congr 1
  omega

end Make24
