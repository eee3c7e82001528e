import Make24.Proofs.Acceptance
import Make24.Proofs.Target
import Make24.Proofs.Values

namespace Make24

namespace Tree

theorem eq_leaf_of_length {t : Tree} (h : t.leaves.length ≤ 1) : ∃ d, t = .leaf d := by
  cases t with
  | leaf d => exact ⟨d, rfl⟩
  | node op l r =>
    have hl := l.length_leaves_pos
    have hr := r.length_leaves_pos
    rw [leaves, List.length_append] at h
    omega

/-- One operator at most. -/
theorem fine_of_length {t : Tree} (hd : ∀ d ∈ t.leaves, isPlayable d = true)
    (h : t.leaves.length ≤ 2) : ∃ x, t.value .exact = some x ∧ Fine x (t.value .float) := by
  cases t with
  | leaf d => exact ⟨d, rfl, fine_digit (hd d (by simp [leaves]))⟩
  | node op l r =>
    have hl := l.length_leaves_pos
    have hr := r.length_leaves_pos
    rw [leaves, List.length_append] at h
    obtain ⟨d, rfl⟩ := eq_leaf_of_length (t := l) (by omega)
    obtain ⟨e, rfl⟩ := eq_leaf_of_length (t := r) (by omega)
    have hpd := hd d (by simp [leaves])
    have hpe := hd e (by simp [leaves])
    exact ⟨op.rational d e, exact_apply_some fun _ => digit_ne_zero hpe, fine_apply op hpd hpe⟩

theorem rough_node (op : Operator) {l r : Tree}
    (hd : ∀ d ∈ (node op l r).leaves, isPlayable d = true) (hl : l.leaves.length ≤ 2)
    (hr : r.leaves.length ≤ 2) :
    Rough ((node op l r).value .exact) ((node op l r).value .float) := by
  obtain ⟨x, hx, hfx⟩ := fine_of_length (fun d hm => hd d (by simp [leaves, hm])) hl
  obtain ⟨y, hy, hfy⟩ := fine_of_length (fun d hm => hd d (by simp [leaves, hm])) hr
  rw [value, value, hx, hy]
  exact rough_apply op hfx hfy

theorem rough_of_length {t : Tree} (hd : ∀ d ∈ t.leaves, isPlayable d = true)
    (h : t.leaves.length ≤ 3) : Rough (t.value .exact) (t.value .float) := by
  cases t with
  | leaf d => exact (fine_digit (hd d (by simp [leaves]))).coarse
  | node op l r =>
    have hl := l.length_leaves_pos
    have hr := r.length_leaves_pos
    rw [leaves, List.length_append] at h
    exact rough_node op hd (by omega) (by omega)

/-- A value over four digits reaches the target exactly if its exact value is 24. -/
theorem reachesTarget_value_iff {t : Tree} (hd : ∀ d ∈ t.leaves, isPlayable d = true)
    (h : t.leaves.length = 4) :
    reachesTarget (t.value .float) = true ↔ t.value .exact = some 24 := by
  cases t with
  | leaf d => cases h
  | node op l r =>
    have hl := l.length_leaves_pos
    have hr := r.length_leaves_pos
    have hdl : ∀ d ∈ l.leaves, isPlayable d = true := fun d hm => hd d (by simp [leaves, hm])
    have hdr : ∀ d ∈ r.leaves, isPlayable d = true := fun d hm => hd d (by simp [leaves, hm])
    rw [leaves, List.length_append] at h
    -- Four digits are split three to one, one to three or two to two.
    by_cases hl1 : l.leaves.length = 1
    · obtain ⟨d, rfl⟩ := eq_leaf_of_length hl1.le
      exact (rough_of_length hdr (by omega)).reachesTarget_left op (hdl d (by simp [leaves]))
    by_cases hr1 : r.leaves.length = 1
    · obtain ⟨d, rfl⟩ := eq_leaf_of_length hr1.le
      exact (rough_of_length hdl (by omega)).reachesTarget_right op (hdr d (by simp [leaves]))
    exact (rough_node op hd (by omega) (by omega)).reachesTarget_iff

end Tree

theorem Verdict.ofResult_eq_correct_iff {result : Except Fault Float} :
    ofResult result = .correct ↔ ∃ value, result = .ok value ∧ reachesTarget value = true := by
  cases result with
  | error fault => simp [ofResult]
  | ok value => by_cases h : reachesTarget value = true <;> simp [ofResult, h]

/-- An accepted answer to four digits reaches the target exactly if its exact value is 24. -/
theorem Spells.reachesTarget_iff {deal : Deal} (h : Spells 0 t (dense text))
    (hok : (evaluate .float ⟨deal.toList⟩ text).result = .ok value) :
    reachesTarget value = true ↔ t.value .exact = some 24 := by
  obtain ⟨hp, rfl⟩ := h.of_accepted hok
  exact Tree.reachesTarget_value_iff h.playable (hp.length_eq.trans deal.length_toList)

/-- Exactly those answers are correct that are accepted and whose exact value is 24: rounding
neither spoils one nor lets another through. An accepted answer that divides by zero is incorrect,
whatever the doubles make of it. -/
theorem judge_correct_iff {deal : Deal} (hd : ∀ d ∈ deal.toList, isPlayable d = true) :
    ∃ round, (Round.start deal).value = .ok round ∧ ∀ answer,
      ((round.judge answer).value = .correct ↔
        (∃ value, (evaluate .float round.hand answer).result = .ok value) ∧
          ∃ t, Spells 0 t (dense answer) ∧ t.value .exact = some 24) ∧
      ∀ t value, (evaluate .float round.hand answer).result = .ok value →
        Spells 0 t (dense answer) → t.value .exact = none →
          (round.judge answer).value = .incorrect value := by
  refine ⟨⟨deal, ⟨deal.toList⟩⟩, value_start hd, fun answer => ⟨⟨?_, ?_⟩, ?_⟩⟩
  · intro h
    rw [value_judge, Verdict.ofResult_eq_correct_iff] at h
    obtain ⟨value, hok, hreach⟩ := h
    obtain ⟨t, ht⟩ := (sentence_of_evaluate hok).1.exists_spells
    have hspells := ht.lower (Nat.zero_le 1)
    exact ⟨⟨value, hok⟩, t, hspells, (hspells.reachesTarget_iff hok).mp hreach⟩
  · rintro ⟨⟨value, hok⟩, t, ht, hexact⟩
    rw [value_judge, Verdict.ofResult_eq_correct_iff]
    exact ⟨value, hok, (ht.reachesTarget_iff hok).mpr hexact⟩
  · intro t value hok ht hnone
    have hmiss : ¬reachesTarget value = true := by
      rw [ht.reachesTarget_iff hok, hnone]
      simp
    rw [value_judge, hok, Verdict.ofResult, if_neg hmiss]

theorem judge_correct_iff_fraction :
    (∀ d ∈ (#v[3, 3, 8, 8] : Deal).toList, isPlayable d = true) ∧
      ∃ round, (Round.start #v[3, 3, 8, 8]).value = .ok round ∧
        (round.judge "8 / ((3) - 8/3)").value = .correct := by
  have hd : ∀ d ∈ (#v[3, 3, 8, 8] : Deal).toList, isPlayable d = true := by decide
  have hleaves : fractionTree.leaves.Perm (#v[3, 3, 8, 8] : Deal).toList := by decide
  have hexact : fractionTree.value .exact = some 24 := by
    norm_num [fractionTree, Tree.value, Arithmetic.exact, Operator.rational]
  obtain ⟨round, hstart, hall⟩ := judge_correct_iff hd
  obtain rfl := Except.ok.inj ((value_start hd).symm.trans hstart)
  obtain ⟨steps, -, he⟩ := spells_fractionTree.evaluate_eq hleaves .float
  have hok : (evaluate .float ⟨(#v[3, 3, 8, 8] : Deal).toList⟩ "8 / ((3) - 8/3)").result =
      .ok (fractionTree.value .float) := congrArg Outcome.result he
  exact ⟨hd, _, hstart,
    (hall _).1.mpr ⟨⟨_, hok⟩, fractionTree, spells_fractionTree, hexact⟩⟩

end Make24
