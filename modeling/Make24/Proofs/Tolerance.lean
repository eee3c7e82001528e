import Make24.Proofs.Double.Comparison
import Make24.Proofs.Double.Floats
import Make24.Verdict

namespace Make24
open Float.Model
open Float.Model.UnpackedFloat

/-- The tolerance is the double next to `1e-9`. -/
def exactTolerance : ℚ :=
  4835703278458517 * 2 ^ (-82 : ℤ)

theorem value_tolerance : Value tolerance.toModel.unpack exactTolerance := by
  have hunpack : tolerance.toModel.unpack =
      .finite .positive 4835703278458517 (-82) (by norm_num) := rfl
  have hsame : exactTolerance = signOf .positive * ((4835703278458517 : ℕ) * 2 ^ (-82 : ℤ)) := by
    rw [exactTolerance, signOf, one_mul]
    norm_num
  rw [hunpack, hsame]
  exact .finite .positive _ _ _ (by norm_num) (by norm_num)

theorem reachesTarget_iff_unpack (a : Float) :
    reachesTarget a = true ↔
      UnpackedFloat.lt (Float.Model.pack (Float.Model.pack (UnpackedFloat.sub Format.binary64
        a.toModel.unpack target.toModel.unpack)).unpack.abs).unpack
          tolerance.toModel.unpack = true := by
  rw [reachesTarget, decide_eq_true_iff]
  exact lt_iff_unpack _ _

/-- The target is reached if the rounded distance to it is below the tolerance. -/
theorem reachesTarget_iff (ha : Represents n a z) (hn : n ≤ 420) (h5 : 5 ≤ n) :
    ∃ w, Within roundoff (z - 24) w ∧ (reachesTarget a = true ↔ |w| < exactTolerance) := by
  have htarget := (represents_ofNat (by norm_num) (le_refl 24)).mono h5
  obtain ⟨w, hw, hwithin⟩ := represents_apply .sub ha htarget hn (by simp)
  refine ⟨w, hwithin, ?_⟩
  have hdist := value_pack hw.value.abs hw.tame.abs (by omega)
  rw [reachesTarget_iff_unpack,
    ← lt_iff_of_value hdist value_tolerance (abs_nonneg w) (by norm_num [exactTolerance])]
  exact Iff.rfl

theorem reachesTarget_of_near (ha : Represents n a z) (hn : n ≤ 420) (h5 : 5 ≤ n)
    (hz : |z - 24| ≤ 9 / 10 ^ 10) : reachesTarget a = true := by
  obtain ⟨w, hw, hiff⟩ := reachesTarget_iff ha hn h5
  rw [hiff]
  calc |w| ≤ (1 + roundoff) * |z - 24| := hw.abs_le
    _ ≤ (1 + roundoff) * (9 / 10 ^ 10) := by gcongr; norm_num [roundoff]
    _ < exactTolerance := by norm_num [roundoff, exactTolerance]

theorem not_reachesTarget_of_far (ha : Represents n a z) (hn : n ≤ 420) (h5 : 5 ≤ n)
    (hz : 2 / 10 ^ 9 ≤ |z - 24|) : ¬reachesTarget a = true := by
  obtain ⟨w, hw, hiff⟩ := reachesTarget_iff ha hn h5
  rw [hiff, not_lt]
  calc exactTolerance ≤ (1 - roundoff) * (2 / 10 ^ 9) := by norm_num [roundoff, exactTolerance]
    _ ≤ (1 - roundoff) * |z - 24| := by gcongr; norm_num [roundoff]
    _ ≤ |w| := hw.le_abs

theorem not_reachesTarget_of_astray (h : Astray a.toModel.unpack) : ¬reachesTarget a = true := by
  rw [reachesTarget_iff_unpack]
  generalize a.toModel.unpack = u at h
  cases u with
  | zero s => cases s <;> exact Bool.false_ne_true
  | infinity s => cases s <;> exact Bool.false_ne_true
  | notANumber => exact Bool.false_ne_true
  | finite s m e positive => cases h

end Make24
