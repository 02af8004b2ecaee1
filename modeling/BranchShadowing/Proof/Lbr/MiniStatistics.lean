import BranchShadowing.Spec.LbrStats

/-!
# The mean is right, the deviation is not

Whatever the values are, `stddev` adds 2 for each of them, so that it takes the root of 2
(`radicand_ofVals`), as long as there are so few that their count does not wrap.
-/

namespace BS.MiniStatistics

variable {vs : List ℝ}

/-- What adding some values does. -/
theorem foldl_add (vs : List ℝ) (s : MiniStatistics ℝ) :
    vs.foldl add s = ⟨s.vals ++ vs, s.count + BitVec.ofNat 32 vs.length, s.total + vs.sum⟩ := by
  induction vs generalizing s with
  | nil => simp
  | cons v vs ih =>
    have hcount : s.count + 1 + BitVec.ofNat 32 vs.length =
        s.count + BitVec.ofNat 32 (vs.length + 1) := by
      rw [BitVec.ofNat_add, BitVec.add_comm (BitVec.ofNat 32 vs.length), ← BitVec.add_assoc]
      rfl
    rw [List.foldl_cons, ih]
    simp only [add, List.append_assoc, List.cons_append, List.nil_append, List.length_cons,
      List.sum_cons, mk.injEq, true_and]
    exact ⟨hcount, add_assoc ..⟩

theorem ofVals_eq (vs : List ℝ) : ofVals vs = ⟨vs, BitVec.ofNat 32 vs.length, vs.sum⟩ := by
  unfold ofVals
  rw [foldl_add]
  simp [empty]

/-- The loop of `stddev` does not look at the values. -/
theorem sdiffs_eq (s : MiniStatistics ℝ) : s.sdiffs = 2 * s.vals.length := by
  unfold sdiffs
  have h : ∀ (l : List ℝ) (d : ℝ), l.foldl (fun d _ => d + 2) d = d + 2 * l.length := by
    intro l
    induction l with
    | nil => simp
    | cons x l ih =>
      intro d
      rw [List.foldl_cons, ih, List.length_cons]
      push_cast
      ring
  rw [h, zero_add]

/-- A sum over the count, which is a number of 32 bits. -/
theorem perCount_ofVals (vs : List ℝ) (x : ℝ) :
    (ofVals vs).perCount x =
      if vs.length % 2 ^ 32 = 0 then none else some (x / (vs.length % 2 ^ 32 : ℕ)) := by
  have hzero : BitVec.ofNat 32 vs.length = 0 ↔ vs.length % 2 ^ 32 = 0 := by
    rw [← BitVec.toNat_inj, BitVec.toNat_ofNat]
    rfl
  rw [ofVals_eq]
  unfold perCount
  dsimp only
  by_cases h : vs.length % 2 ^ 32 = 0
  · rw [if_pos h, if_pos (hzero.mpr h)]
  · rw [if_neg h, if_neg (h ∘ hzero.mp), BitVec.toNat_ofNat]

theorem mean_ofVals (vs : List ℝ) :
    (ofVals vs).mean =
      if vs.length % 2 ^ 32 = 0 then none else some (vs.sum / (vs.length % 2 ^ 32 : ℕ)) := by
  unfold mean
  rw [perCount_ofVals, ofVals_eq]

theorem radicand_ofVals (vs : List ℝ) :
    (ofVals vs).radicand =
      if vs.length % 2 ^ 32 = 0 then none
      else some ((2 * vs.length : ℝ) / (vs.length % 2 ^ 32 : ℕ)) := by
  unfold radicand
  rw [perCount_ofVals, sdiffs_eq, ofVals_eq]

/-- The numbers over which a sum that is not 0 is the mean. -/
theorem div_mod_eq_mean_iff (hne : vs ≠ []) (hmod : vs.length % 2 ^ 32 ≠ 0) :
    vs.sum / (vs.length % 2 ^ 32 : ℕ) = BS.mean vs ↔ vs.sum = 0 ∨ vs.length < 2 ^ 32 := by
  have hlen : (vs.length : ℝ) ≠ 0 := by simpa using hne
  have hmod' : ((vs.length % 2 ^ 32 : ℕ) : ℝ) ≠ 0 := by exact_mod_cast hmod
  unfold BS.mean
  rw [div_eq_div_iff hmod' hlen, mul_eq_mul_left_iff, Nat.cast_inj, or_comm]
  refine or_congr_right ⟨fun h => ?_, fun h => (Nat.mod_eq_of_lt h).symm⟩
  rw [h]
  exact Nat.mod_lt _ (by decide)

/-- The statistics are right just for values whose variance is what the code makes of any. -/
theorem ofVals_describes_iff (hne : vs ≠ []) :
    Describes vs ↔
      vs.length % 2 ^ 32 ≠ 0 ∧ (vs.sum = 0 ∨ vs.length < 2 ^ 32) ∧
        variance vs = 2 * vs.length / (vs.length % 2 ^ 32 : ℕ) := by
  constructor
  · intro ⟨hmean, hrad, _, _⟩
    rw [mean_ofVals] at hmean
    rw [radicand_ofVals] at hrad
    by_cases hmod : vs.length % 2 ^ 32 = 0
    · rw [if_pos hmod] at hmean
      exact absurd hmean (by simp)
    · rw [if_neg hmod, Option.some_inj] at hmean hrad
      exact ⟨hmod, (div_mod_eq_mean_iff hne hmod).mp hmean, hrad.symm⟩
  · intro ⟨hmod, hsum, hvar⟩
    have hrad : (ofVals vs).radicand = some (variance vs) := by
      rw [radicand_ofVals, if_neg hmod, hvar]
    refine ⟨?_, hrad, fun heq => ?_, fun c => ?_⟩
    · rw [mean_ofVals, if_neg hmod, (div_mod_eq_mean_iff hne hmod).mpr hsum]
    · rw [hrad, (variance_eq_zero_iff hne).mpr heq]
    · rw [radicand_ofVals, radicand_ofVals, List.length_map]

/-- The variance of the numbers from 1 to 5 happens to be 2. -/
theorem ofVals_describes_five : Describes [1, 2, 3, 4, 5] :=
  (ofVals_describes_iff (List.cons_ne_nil _ _)).mpr
    ⟨by decide, .inr (by decide), by norm_num [variance, sqDev, BS.mean]⟩

/-- One value does not deviate from itself, but the code says by √2. -/
theorem one_not_describes : ¬ Describes [1] := by
  intro h
  have hrad := h.equal (by simp)
  rw [radicand_ofVals] at hrad
  norm_num at hrad

end BS.MiniStatistics
