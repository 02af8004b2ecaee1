import BranchShadowing.Spec.RunEnclaveJne
import Mathlib.Tactic.FieldSimp
import Mathlib.Tactic.Linarith

/-!
# What the statistics are

The second loop of `collect_results` takes in the results that the first one leaves
out: a result that was not found, or whose following branch was not seen, counts with
its -1. And `get_diff_stddev` divides standard deviations where it should divide
variances. So the spreads reported are right only where nothing is missing and the
standard deviations happen to do (`reported_iff`).
-/

namespace BS.RunEnclaveJne

variable {res : List Result} {i : Fin 2} {testNum : Int}

/-! ## `run_once` -/

/-- The scan has seen no branch, or has cycles for the last one it saw. -/
def Scan.Ok (s : Scan) : Prop :=
  s.notFound = true ∧ s.isFollowing = false ∧ s.hit = false ∧ s.time = -1 ∧ s.followingCycles = -1 ∨
    s.notFound = false ∧ 0 ≤ s.time

theorem Scan.Ok.line {s : Scan} (h : s.Ok) (addr : String) (l : LogLine) : (s.line addr l).Ok := by
  unfold Scan.line
  split
  · exact .inr ⟨rfl, Int.natCast_nonneg _⟩
  · split
    · rename_i hf
      rcases h with ⟨-, hf', -⟩ | h
      · rw [hf'] at hf
        cases hf
      · exact .inr h
    · exact h

theorem runOnce_observed (addr : String) (victimInput : Int) (log : List LogLine) :
    (runOnce addr victimInput log).Observed := by
  have h : (log.foldl (Scan.line addr) {}).Ok := by
    have hstart : Scan.Ok {} := .inl ⟨rfl, rfl, rfl, rfl, rfl⟩
    generalize ({} : Scan) = s at hstart ⊢
    induction log generalizing s with
    | nil => exact hstart
    | cons l log ih => exact ih _ (hstart.line addr l)
  rcases h with ⟨hn, -, hh, ht, hf⟩ | ⟨hn, ht⟩
  · exact ⟨fun _ => ⟨hh, ht, hf⟩, fun h => absurd (hn.symm.trans h) (by decide)⟩
  · exact ⟨fun h => absurd (hn.symm.trans h) (by decide), fun _ => ht⟩

/-! ## The two loops -/

/-- The results with an input. -/
def withInput (res : List Result) (i : Fin 2) : List Result := res.filter fun r => r.input = i

theorem foundIn_eq (res : List Result) (i : Fin 2) :
    foundIn res i = (withInput res i).filter fun r => r.notFound = false := by
  rw [foundIn, withInput, List.filter_filter]
  refine List.filter_congr fun r _ => ?_
  simp [Bool.and_comm]

theorem followedIn_eq (res : List Result) (i : Fin 2) :
    followedIn res i = (withInput res i).filter fun r => r.notFound = false ∧ 0 ≤ r.fcycles := by
  rw [followedIn, foundIn_eq, List.filter_filter]
  refine List.filter_congr fun r _ => ?_
  simp [Bool.and_comm]

/-- The first loop sums over the results found. -/
theorem foldl_sums (res : List Result) (i : Fin 2) :
    (res.foldl (Sums.add i) {}).hits = ((foundIn res i).map fun r => r.hit.toInt).sum ∧
      (res.foldl (Sums.add i) {}).cycles = ((foundIn res i).map Result.cycles).sum ∧
      (res.foldl (Sums.add i) {}).count = (foundIn res i).length ∧
      (res.foldl (Sums.add i) {}).fcycles = ((followedIn res i).map Result.fcycles).sum ∧
      (res.foldl (Sums.add i) {}).fcount = (followedIn res i).length := by
  induction res using List.reverseRecOn with
  | nil => exact ⟨rfl, rfl, rfl, rfl, rfl⟩
  | append_singleton res r ih =>
    obtain ⟨h₁, h₂, h₃, h₄, h₅⟩ := ih
    rw [List.foldl_append, List.foldl_cons, List.foldl_nil]
    generalize res.foldl (Sums.add i) {} = s at h₁ h₂ h₃ h₄ h₅ ⊢
    simp only [foundIn, followedIn, List.filter_append] at h₁ h₂ h₃ h₄ h₅ ⊢
    unfold Sums.add
    by_cases hi : r.input = i
    · cases hn : r.notFound
      · by_cases hf : 0 ≤ r.fcycles <;> simp [hi, hn, hf, h₁, h₂, h₃, h₄, h₅]
      · simp [hi, hn, h₁, h₂, h₃, h₄, h₅]
    · simp [hi, h₁, h₂, h₃, h₄, h₅]

/-- The second loop over all with the input. -/
theorem foldl_deviations (res : List Result) (i : Fin 2) (h c f : ℝ) :
    res.foldl (Deviations.add i h c f) ⟨0, 0, 0⟩ =
      ⟨sqDev c (cyclesOf (withInput res i)), sqDev f (fcyclesOf (withInput res i)),
        sqDev h (hitsOf (withInput res i))⟩ := by
  induction res using List.reverseRecOn with
  | nil => simp [withInput, sqDev, cyclesOf, fcyclesOf, hitsOf]
  | append_singleton res r ih =>
    rw [List.foldl_append, List.foldl_cons, List.foldl_nil, ih]
    by_cases hi : r.input = i
    · simp [Deviations.add, withInput, sqDev, cyclesOf, fcyclesOf, hitsOf, hi]
    · simp [Deviations.add, withInput, hi]

theorem average_eq (f : Result → Int) (rs : List Result) :
    (average (rs.map f).sum rs.length : ℝ) = mean (rs.map fun r => (f r : ℝ)) := by
  have hsum : (((rs.map f).sum : Int) : ℝ) = (rs.map fun r => (f r : ℝ)).sum := by
    induction rs with
    | nil => simp
    | cons r rs ih => simp [ih]
  rw [average, mean, hsum, List.length_map]
  split
  · rfl
  · rename_i h
    rw [not_not] at h
    simp [h]

/-- What is reported as the spread of a metric, squared: the deviations of all results with
the input, over the number averaged. -/
noncomputable def reportedSq (f : Result → Int) (all rs : List Result) : ℝ :=
  sqDev (mean (rs.map fun r => (f r : ℝ))) (all.map fun r => (f r : ℝ)) / rs.length

theorem reportedSq_nonneg (f : Result → Int) (all rs : List Result) : 0 ≤ reportedSq f all rs :=
  div_nonneg (sqDev_nonneg _ _) (Nat.cast_nonneg _)

theorem collectResults_count (testNum : Int) (res : List Result) (i : Fin 2) :
    (collectResults Real.sqrt testNum res i).count = (foundIn res i).length :=
  (foldl_sums res i).2.2.1

theorem collectResults_hStd (testNum : Int) (h : 2 < (foundIn res i).length) :
    (collectResults Real.sqrt testNum res i).hStd =
      √(reportedSq (fun r => r.hit.toInt) (withInput res i) (foundIn res i)) := by
  obtain ⟨h₁, h₂, h₃, h₄, h₅⟩ := foldl_sums res i
  simp only [collectResults, collectInput, h₁, h₂, h₃, h₄, h₅, foldl_deviations, if_pos h,
    average_eq]
  rfl

theorem collectResults_cStd (testNum : Int) (h : 2 < (foundIn res i).length) :
    (collectResults Real.sqrt testNum res i).cStd =
      √(reportedSq Result.cycles (withInput res i) (foundIn res i)) := by
  obtain ⟨h₁, h₂, h₃, h₄, h₅⟩ := foldl_sums res i
  simp only [collectResults, collectInput, h₁, h₂, h₃, h₄, h₅, foldl_deviations, if_pos h,
    average_eq]
  rfl

theorem collectResults_fStd (testNum : Int) (h : 2 < (followedIn res i).length) :
    (collectResults Real.sqrt testNum res i).fStd =
      √(reportedSq Result.fcycles (withInput res i) (followedIn res i)) := by
  obtain ⟨h₁, h₂, h₃, h₄, h₅⟩ := foldl_sums res i
  simp only [collectResults, collectInput, h₁, h₂, h₃, h₄, h₅, foldl_deviations, if_pos h,
    average_eq]
  rfl

/-! ## The spread of one metric -/

/-- It is the variance of those averaged only if all others are at the mean. -/
theorem reportedSq_eq_variance_iff (f : Result → Int) (all : List Result) (p : Result → Prop)
    [DecidablePred p] (hpos : 0 < (all.filter p).length) :
    reportedSq f all (all.filter p) = variance ((all.filter p).map fun r => (f r : ℝ)) ↔
      ∀ r ∈ all, ¬ p r → (f r : ℝ) = mean ((all.filter p).map fun r => (f r : ℝ)) := by
  have hn : ((all.filter p).length : ℝ) ≠ 0 := by
    exact_mod_cast hpos.ne'
  rw [reportedSq, variance, List.length_map, div_left_inj' hn, sqDev_filter (fun r => (f r : ℝ)) p,
    add_eq_left, sqDev_eq_zero_iff]
  simp only [List.mem_map, List.mem_filter, decide_eq_true_eq]
  refine ⟨fun h r hr hp => h _ ⟨r, ⟨hr, hp⟩, rfl⟩, ?_⟩
  rintro h _ ⟨r, ⟨hr, hp⟩, rfl⟩
  exact h r hr hp

theorem mem_withInput {r : Result} : r ∈ withInput res i ↔ r ∈ res ∧ r.input = i := by
  simp [withInput]

theorem mean_cycles_nonneg (hres : ∀ r ∈ res, r.Observed) (i : Fin 2) :
    0 ≤ mean (cyclesOf (foundIn res i)) := by
  refine mean_nonneg fun x hx => ?_
  obtain ⟨r, hr, rfl⟩ := List.mem_map.mp hx
  simp only [foundIn, List.mem_filter, decide_eq_true_eq] at hr
  exact_mod_cast (hres r hr.1).found hr.2.2

theorem mean_fcycles_nonneg (res : List Result) (i : Fin 2) :
    0 ≤ mean (fcyclesOf (followedIn res i)) := by
  refine mean_nonneg fun x hx => ?_
  obtain ⟨r, hr, rfl⟩ := List.mem_map.mp hx
  simp only [followedIn, List.mem_filter, decide_eq_true_eq] at hr
  exact_mod_cast hr.2

/-- The cycles of a result that was not found are below any mean. -/
theorem cycles_reported_iff (hres : ∀ r ∈ res, r.Observed) (h : 2 < (foundIn res i).length) :
    reportedSq Result.cycles (withInput res i) (foundIn res i) =
        variance (cyclesOf (foundIn res i)) ↔
      ∀ r ∈ res, r.input = i → r.notFound = false := by
  have hmean := mean_cycles_nonneg hres i
  unfold cyclesOf at hmean ⊢
  rw [foundIn_eq] at h hmean ⊢
  rw [reportedSq_eq_variance_iff _ _ _ (by omega)]
  refine ⟨fun hall r hr hi => ?_, fun hall r hr hn => ?_⟩
  · by_contra hn
    have hc := hall r (mem_withInput.mpr ⟨hr, hi⟩) hn
    rw [((hres r hr).missed (by simpa using hn)).2.1] at hc
    rw [← hc] at hmean
    norm_num at hmean
  · have hr := mem_withInput.mp hr
    exact absurd (hall r hr.1 hr.2) hn

theorem fcycles_reported_iff (hres : ∀ r ∈ res, r.Observed) (h : 2 < (followedIn res i).length) :
    reportedSq Result.fcycles (withInput res i) (followedIn res i) =
        variance (fcyclesOf (followedIn res i)) ↔
      ∀ r ∈ res, r.input = i → 0 ≤ r.fcycles := by
  have hmean := mean_fcycles_nonneg res i
  unfold fcyclesOf at hmean ⊢
  rw [followedIn_eq] at h hmean ⊢
  rw [reportedSq_eq_variance_iff _ _ _ (by omega)]
  refine ⟨fun hall r hr hi => ?_, fun hall r hr hn => ?_⟩
  · by_contra hf
    have hc := hall r (mem_withInput.mpr ⟨hr, hi⟩) fun hp => hf hp.2
    rw [← hc] at hmean
    exact hf (by exact_mod_cast hmean)
  · have hr := mem_withInput.mp hr
    have hf := hall r hr.1 hr.2
    refine absurd ⟨?_, hf⟩ hn
    by_contra hnot
    rw [((hres r hr.1).missed (by simpa using hnot)).2.2] at hf
    exact absurd hf (by decide)

/-- With none missing the hits are those of all. -/
theorem hits_reported (h : 2 < (foundIn res i).length)
    (hall : ∀ r ∈ res, r.input = i → r.notFound = false) :
    reportedSq (fun r => r.hit.toInt) (withInput res i) (foundIn res i) =
      variance (hitsOf (foundIn res i)) := by
  unfold hitsOf
  rw [foundIn_eq] at h ⊢
  rw [reportedSq_eq_variance_iff _ _ _ (by omega)]
  intro r hr hn
  have hr := mem_withInput.mp hr
  exact absurd (hall r hr.1 hr.2) hn

theorem followedIn_eq_foundIn (hall : ∀ r ∈ res, r.input = i → 0 ≤ r.fcycles) :
    followedIn res i = foundIn res i := by
  refine List.filter_eq_self.mpr fun r hr => ?_
  simp only [foundIn, List.mem_filter, decide_eq_true_eq] at hr ⊢
  exact hall r hr.1 hr.2.1

/-! ## The difference of the means -/

/-- The standard deviations over the counts add up as the variances do. -/
theorem balanced_iff (xs : Fin 2 → List ℝ) :
    √(variance (xs 0)) / (xs 0).length + √(variance (xs 1)) / (xs 1).length = diffVariance xs ↔
      Balanced xs := by
  have hsq : ∀ k, variance (xs k) = √(variance (xs k)) * √(variance (xs k)) := fun k =>
    (Real.mul_self_sqrt (variance_nonneg _)).symm
  unfold diffVariance Balanced
  rw [Fin.sum_univ_two, Fin.sum_univ_two, hsq 0, hsq 1, Real.sqrt_mul_self (Real.sqrt_nonneg _),
    Real.sqrt_mul_self (Real.sqrt_nonneg _)]
  constructor <;> intro h
  · linear_combination h
  · linear_combination h

theorem getDiffStddev_sq {out : Fin 2 → Output ℝ} {type : Output ℝ → ℝ} {xs : Fin 2 → List ℝ}
    (hstd : ∀ k, type (out k) = √(variance (xs k))) (hcount : ∀ k, (out k).count = (xs k).length)
    (hpos : ∀ k, 0 < (xs k).length) :
    getDiffStddev Real.sqrt out type ^ 2 = diffVariance xs ↔ Balanced xs := by
  have h0 := hpos 0
  have h1 := hpos 1
  unfold getDiffStddev
  rw [hcount, hcount, if_neg (by omega), hstd, hstd, Real.sq_sqrt (by positivity), balanced_iff]

/-- Hits are 0 or 1, and so their standard deviations are below 1. -/
theorem balanced_hits_iff (hpos : ∀ k, 2 < (foundIn res k).length) :
    (Balanced fun k => hitsOf (foundIn res k)) ↔
      ∀ k, ∀ r ∈ foundIn res k, ∀ r' ∈ foundIn res k, r.hit = r'.hit := by
  have hlen : ∀ k, (0 : ℝ) < (hitsOf (foundIn res k)).length := by
    intro k
    rw [hitsOf, List.length_map]
    exact_mod_cast (show 0 < (foundIn res k).length by have := hpos k; omega)
  have hlt : ∀ k, √(variance (hitsOf (foundIn res k))) < 1 := by
    intro k
    rw [Real.sqrt_lt' one_pos, one_pow]
    refine variance_lt_one fun x hx => ?_
    obtain ⟨r, -, rfl⟩ := List.mem_map.mp hx
    cases r.hit
    · exact .inl (by simp)
    · exact .inr (by simp)
  have hzero : ∀ k, √(variance (hitsOf (foundIn res k))) = 0 ↔
      ∀ r ∈ foundIn res k, ∀ r' ∈ foundIn res k, r.hit = r'.hit := by
    intro k
    rw [Real.sqrt_eq_zero (variance_nonneg _), variance_eq_zero_iff
      (List.ne_nil_of_length_pos (by exact_mod_cast hlen k))]
    refine ⟨fun h r hr r' hr' => ?_, fun h x hx y hy => ?_⟩
    · have hint : r.hit.toInt = r'.hit.toInt := by
        exact_mod_cast h _ (List.mem_map_of_mem hr) _ (List.mem_map_of_mem hr')
      cases hr : r.hit <;> cases hr' : r'.hit <;> simp_all
    · obtain ⟨r, hr, rfl⟩ := List.mem_map.mp hx
      obtain ⟨r', hr', rfl⟩ := List.mem_map.mp hy
      rw [h r hr r' hr']
  rw [← forall_congr' hzero]
  have hnonneg : ∀ k, 0 ≤ √(variance (hitsOf (foundIn res k))) := fun k => Real.sqrt_nonneg _
  have hle : ∀ k, 0 ≤ √(variance (hitsOf (foundIn res k))) *
      (1 - √(variance (hitsOf (foundIn res k)))) / (hitsOf (foundIn res k)).length := fun k =>
    div_nonneg (mul_nonneg (hnonneg k) (sub_nonneg.mpr (hlt k).le)) (hlen k).le
  unfold Balanced
  rw [Finset.sum_eq_zero_iff_of_nonneg fun k _ => hle k]
  refine forall_congr' fun k => ?_
  rw [forall_prop_of_true (Finset.mem_univ k), div_eq_zero_iff, or_iff_left (hlen k).ne', mul_eq_zero,
    or_iff_left (sub_ne_zero.mpr (hlt k).ne')]

/-! ## All that is reported -/

theorem reportedSq_sqrt (f : Result → Int) (all rs : List Result) :
    √(reportedSq f all rs) ^ 2 = reportedSq f all rs :=
  Real.sq_sqrt (reportedSq_nonneg f all rs)

theorem map_foundIn_length (testNum : Int) (f : Result → ℝ) (i : Fin 2) :
    (collectResults Real.sqrt testNum res i).count = ((foundIn res i).map f).length := by
  rw [collectResults_count, List.length_map]

theorem map_foundIn_pos (f : Result → ℝ) (h : ∀ i : Fin 2, 2 < (foundIn res i).length) (i : Fin 2) :
    0 < ((foundIn res i).map f).length := by
  rw [List.length_map]
  exact Nat.lt_of_le_of_lt (Nat.zero_le _) (h i)

theorem hitsDiff_iff (testNum : Int) (h : ∀ i : Fin 2, 2 < (foundIn res i).length)
    (hall : ∀ i : Fin 2, ∀ r ∈ res, r.input = i → r.notFound = false) :
    getDiffStddev Real.sqrt (collectResults Real.sqrt testNum res) Output.hStd ^ 2 =
        diffVariance (fun i => hitsOf (foundIn res i)) ↔
      ∀ i, ∀ r ∈ foundIn res i, ∀ r' ∈ foundIn res i, r.hit = r'.hit := by
  rw [← balanced_hits_iff h]
  refine getDiffStddev_sq (fun i => ?_) (map_foundIn_length testNum _) (map_foundIn_pos _ h)
  rw [collectResults_hStd _ (h i), hits_reported (h i) (hall i)]

theorem cyclesDiff_iff (testNum : Int) (hres : ∀ r ∈ res, r.Observed)
    (h : ∀ i : Fin 2, 2 < (foundIn res i).length)
    (hall : ∀ i : Fin 2, ∀ r ∈ res, r.input = i → r.notFound = false) :
    getDiffStddev Real.sqrt (collectResults Real.sqrt testNum res) Output.cStd ^ 2 =
        diffVariance (fun i => cyclesOf (foundIn res i)) ↔
      Balanced fun i => cyclesOf (foundIn res i) := by
  refine getDiffStddev_sq (fun i => ?_) (map_foundIn_length testNum _) (map_foundIn_pos _ h)
  rw [collectResults_cStd _ (h i), (cycles_reported_iff hres (h i)).mpr (hall i)]

/-- It is divided by the number found, which is that of the branches that follow. -/
theorem fcyclesDiff_iff (testNum : Int) (hres : ∀ r ∈ res, r.Observed)
    (h : ∀ i : Fin 2, 2 < (foundIn res i).length)
    (hf : ∀ i : Fin 2, 2 < (followedIn res i).length)
    (hall : ∀ i : Fin 2, ∀ r ∈ res, r.input = i → 0 ≤ r.fcycles) :
    getDiffStddev Real.sqrt (collectResults Real.sqrt testNum res) Output.fStd ^ 2 =
        diffVariance (fun i => fcyclesOf (followedIn res i)) ↔
      Balanced fun i => fcyclesOf (followedIn res i) := by
  refine getDiffStddev_sq (fun i => ?_) (fun i => ?_) (fun i => ?_)
  · rw [collectResults_fStd _ (hf i), (fcycles_reported_iff hres (hf i)).mpr (hall i)]
  · rw [followedIn_eq_foundIn (hall i)]
    exact map_foundIn_length testNum _ i
  · rw [followedIn_eq_foundIn (hall i)]
    exact map_foundIn_pos _ h i

/-- The spreads reported are right on these results and on no others. -/
theorem reported_iff (testNum : Int) (res : List Result) (hres : ∀ r ∈ res, r.Observed) :
    Reported (collectResults Real.sqrt testNum res) res ↔ SpreadsAgree res := by
  constructor
  · intro hr
    have hfound : ∀ i, 2 < (foundIn res i).length → ∀ r ∈ res, r.input = i → r.notFound = false := by
      intro i hi
      have hc := hr.cycles i hi
      rw [collectResults_cStd _ hi, reportedSq_sqrt] at hc
      exact (cycles_reported_iff hres hi).mp hc
    have hfollowed : ∀ i, 2 < (foundIn res i).length → 2 < (followedIn res i).length →
        ∀ r ∈ res, r.input = i → 0 ≤ r.fcycles := by
      intro i hi hf
      have hc := hr.fcycles i hi hf
      rw [collectResults_fStd _ hf, reportedSq_sqrt] at hc
      exact (fcycles_reported_iff hres hf).mp hc
    exact
      { found := hfound
        followed := hfollowed
        hits := fun h => (hitsDiff_iff testNum h fun i => hfound i (h i)).mp (hr.hitsDiff h)
        cycles := fun h =>
          (cyclesDiff_iff testNum hres h fun i => hfound i (h i)).mp (hr.cyclesDiff h)
        fcycles := fun h hf =>
          (fcyclesDiff_iff testNum hres h hf fun i => hfollowed i (h i) (hf i)).mp
            (hr.fcyclesDiff h hf) }
  · intro hs
    refine
      { hits := fun i h => ?_
        cycles := fun i h => ?_
        fcycles := fun i h hf => ?_
        hitsDiff := fun h => (hitsDiff_iff testNum h fun i => hs.found i (h i)).mpr (hs.hits h)
        cyclesDiff := fun h =>
          (cyclesDiff_iff testNum hres h fun i => hs.found i (h i)).mpr (hs.cycles h)
        fcyclesDiff := fun h hf =>
          (fcyclesDiff_iff testNum hres h hf fun i => hs.followed i (h i) (hf i)).mpr
            (hs.fcycles h hf) }
    · rw [collectResults_hStd _ h, reportedSq_sqrt]
      exact hits_reported h (hs.found i h)
    · rw [collectResults_cStd _ h, reportedSq_sqrt]
      exact (cycles_reported_iff hres h).mpr (hs.found i h)
    · rw [collectResults_fStd _ hf, reportedSq_sqrt]
      exact (fcycles_reported_iff hres hf).mpr (hs.followed i h hf)

/-- Two runs with each input twice: one hits in 3 or 5 cycles, the other misses in 14 or 16. -/
def spreadByOne : List Result :=
  [⟨0, true, false, 3, 8⟩, ⟨1, false, false, 14, 9⟩, ⟨0, true, false, 5, 10⟩,
    ⟨1, false, false, 16, 7⟩, ⟨0, true, false, 3, 10⟩, ⟨1, false, false, 16, 9⟩,
    ⟨0, true, false, 5, 8⟩, ⟨1, false, false, 14, 7⟩]

theorem foundIn_spreadByOne : foundIn spreadByOne 0 = [⟨0, true, false, 3, 8⟩,
      ⟨0, true, false, 5, 10⟩, ⟨0, true, false, 3, 10⟩, ⟨0, true, false, 5, 8⟩] ∧
    foundIn spreadByOne 1 = [⟨1, false, false, 14, 9⟩, ⟨1, false, false, 16, 7⟩,
      ⟨1, false, false, 16, 9⟩, ⟨1, false, false, 14, 7⟩] := by
  decide

/-- A standard deviation of 1 is its own square. -/
theorem balanced_of_variance_one {xs : Fin 2 → List ℝ} (h : ∀ i, variance (xs i) = 1) :
    Balanced xs :=
  Finset.sum_eq_zero fun i _ => by rw [h i, Real.sqrt_one, sub_self, mul_zero, zero_div]

/-- The cycles of each input spread by 1 around a mean, and so do those that follow. -/
theorem reported_iff_spreadByOne :
    Reported (collectResults Real.sqrt 1 spreadByOne) spreadByOne := by
  obtain ⟨h₀, h₁⟩ := foundIn_spreadByOne
  refine (reported_iff 1 _ ?_).mpr ⟨by decide, by decide, fun _ => by decide, fun _ => ?_, fun _ _ => ?_⟩
  · have hobserved : ∀ r ∈ spreadByOne, r.notFound = false ∧ 0 ≤ r.cycles := by decide
    exact fun r hr => ⟨fun hn => by simp [(hobserved r hr).1] at hn, fun _ => (hobserved r hr).2⟩
  · refine balanced_of_variance_one fun i => ?_
    fin_cases i
    · simp only [Fin.zero_eta, h₀]
      norm_num [cyclesOf, variance, sqDev, mean]
    · simp only [Fin.mk_one, h₁]
      norm_num [cyclesOf, variance, sqDev, mean]
  · refine balanced_of_variance_one fun i => ?_
    fin_cases i
    · simp only [Fin.zero_eta, followedIn, h₀]
      norm_num [fcyclesOf, variance, sqDev, mean]
    · simp only [Fin.mk_one, followedIn, h₁]
      norm_num [fcyclesOf, variance, sqDev, mean]

/-- A branch that was always hit in 4 cycles. -/
def alwaysHit : Result := ⟨0, true, false, 4, 9⟩

/-- One run that is not in the LBR widens the spread of three that agree. -/
theorem missing_not_reported :
    ¬ Reported (collectResults Real.sqrt 1 [alwaysHit, alwaysHit, alwaysHit, ⟨0, false, true, -1, -1⟩])
      [alwaysHit, alwaysHit, alwaysHit, ⟨0, false, true, -1, -1⟩] := by
  intro h
  have hr : ∀ r ∈ [alwaysHit, alwaysHit, alwaysHit, ⟨0, false, true, -1, -1⟩], r.Observed := by
    intro r hr
    simp only [List.mem_cons, List.not_mem_nil, or_false] at hr
    rcases hr with rfl | rfl | rfl | rfl <;> exact ⟨by decide, by decide⟩
  have hf : 2 < (foundIn [alwaysHit, alwaysHit, alwaysHit, ⟨0, false, true, -1, -1⟩] 0).length := by
    decide
  have hc := h.cycles 0 hf
  rw [collectResults_cStd _ hf, reportedSq_sqrt] at hc
  exact absurd ((cycles_reported_iff hr hf).mp hc) (by decide)

end BS.RunEnclaveJne
