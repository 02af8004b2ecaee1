import BranchShadowing.Proof.RunEnclaveJne
import BranchShadowing.Proof.RunOrder

/-!
# A test accounts for all its runs

A test dies at the first run whose address is bad (`testLoop?_isSome`). If there is none, each
of its runs is in one row of what `print_res` prints, as found or as not found, and the averages
are those of the runs that were found.
-/

namespace BS.RunEnclaveJne

variable {res : List Result} {i : Fin 2} {rand : Nat → Bool} {runs : Nat → String × List LogLine}
  {count : Int}

/-- The results of a loop are those of `run_once`. -/
theorem testLoop_observed (k : Nat) (ones zeros : Int) :
    ∀ r ∈ testLoop rand runs count k ones zeros, r.Observed := by
  induction hr : (2 * count - k).toNat generalizing k ones zeros with
  | zero =>
    rw [testLoop, if_neg (by omega)]
    exact List.forall_mem_nil _
  | succ n ih =>
    rw [testLoop, if_pos (by omega)]
    exact List.forall_mem_cons.mpr ⟨runOnce_observed .., ih (k + 1) _ _ (by omega)⟩

/-- The loop gets through where every address that it comes to is good. -/
theorem testLoop?_isSome (k : Nat) (ones zeros : Int) :
    (testLoop? rand runs count k ones zeros).isSome ↔
      ∀ j : Nat, k ≤ j → (j : Int) < 2 * count → goodAddress (runs j).1 := by
  induction hr : (2 * count - k).toNat generalizing k ones zeros with
  | zero =>
    rw [testLoop?, if_neg (by omega)]
    exact iff_of_true rfl fun j hj hlt => by omega
  | succ n ih =>
    rw [testLoop?, if_pos (by omega)]
    dsimp only
    unfold runOnce?
    by_cases hgood : goodAddress (runs k).1
    · simp only [hgood, if_true, Option.isSome_map, ih (k + 1) _ _ (by omega)]
      refine ⟨fun h j hj hlt => ?_, fun h j hj hlt => h j (by omega) hlt⟩
      rcases Nat.eq_or_lt_of_le hj with rfl | hlt'
      · exact hgood
      · exact h j hlt' hlt
    · simp only [hgood, Bool.false_eq_true, if_false, Option.isSome_none, false_iff]
      exact fun h => hgood (h k (Nat.le_refl k) (by omega))

/-- Then it makes the results of the loop that does not check. -/
theorem testLoop?_eq {k : Nat} {ones zeros : Int} {res : List Result}
    (h : testLoop? rand runs count k ones zeros = some res) :
    res = testLoop rand runs count k ones zeros := by
  induction hr : (2 * count - k).toNat generalizing k ones zeros res with
  | zero =>
    rw [testLoop?, if_neg (by omega)] at h
    rw [testLoop, if_neg (by omega)]
    exact (Option.some.inj h).symm
  | succ n ih =>
    rw [testLoop?, if_pos (by omega)] at h
    rw [testLoop, if_pos (by omega)]
    dsimp only at h ⊢
    unfold runOnce? at h
    by_cases hgood : goodAddress (runs k).1
    · simp only [hgood, if_true] at h
      obtain ⟨rest, hrest, rfl⟩ := Option.map_eq_some_iff.mp h
      rw [← ih hrest (by omega)]
    · simp [hgood] at h

/-- The first loop counts the results that were not found. -/
theorem foldl_notFound (res : List Result) (i : Fin 2) :
    (res.foldl (Sums.add i) {}).notFound = ((withInput res i).filter Result.notFound).length := by
  induction res using List.reverseRecOn with
  | nil => rfl
  | append_singleton res r ih =>
    rw [List.foldl_append, List.foldl_cons, List.foldl_nil]
    generalize res.foldl (Sums.add i) {} = s at ih ⊢
    simp only [withInput, List.filter_append] at ih ⊢
    unfold Sums.add
    by_cases hi : r.input = i
    · cases hn : r.notFound
      · by_cases hf : 0 ≤ r.fcycles <;> simp [hi, hn, hf, ih]
      · simp [hi, hn, ih]
    · simp [hi, ih]

theorem length_foundIn (res : List Result) (i : Fin 2) :
    (foundIn res i).length + ((withInput res i).filter Result.notFound).length =
      (withInput res i).length := by
  rw [foundIn_eq, List.length_eq_length_filter_add (l := withInput res i) Result.notFound,
    Nat.add_comm]
  simp

theorem sum_hits (rs : List Result) :
    (rs.map fun r => r.hit.toInt).sum = (rs.filter Result.hit).length := by
  induction rs with
  | nil => rfl
  | cons r rs ih =>
    rw [List.map_cons, List.sum_cons, ih, List.filter_cons]
    cases r.hit with
    | true => simp [Bool.toInt, Int.add_comm]
    | false => simp [Bool.toInt]

/-- The share of a part. -/
theorem mean_hits_le_one (rs : List Result) : mean (hitsOf rs) ≤ 1 := by
  rw [hitsOf, ← average_eq, average, sum_hits]
  split
  · refine div_le_one_of_le₀ ?_ (Nat.cast_nonneg _)
    exact_mod_cast List.length_filter_le Result.hit rs
  · exact zero_le_one

theorem mean_hits_nonneg (rs : List Result) : 0 ≤ mean (hitsOf rs) := by
  refine mean_nonneg fun x hx => ?_
  obtain ⟨r, -, rfl⟩ := List.mem_map.mp hx
  cases r.hit <;> simp [Bool.toInt]

/-- The row of an input, if no run dies. -/
theorem runTestWithShadowInput_row (testNum : Int) (rand : Nat → Bool)
    (runs : Nat → String × List LogLine) (hcount : 0 ≤ count) (i : Fin 2) :
    let res := runTestWithShadowInput rand runs count
    Accounts count res i (collectResults Real.sqrt testNum res i) := by
  intro res
  have hobserved : ∀ r ∈ res, r.Observed := testLoop_observed 0 count count
  have hlength : ((withInput res i).length : Int) = count := by
    have h : count + count = 2 * count - (0 : Nat) := by omega
    obtain ⟨-, h₁, h₀⟩ := @testLoop_balanced rand runs count 0 count count h (by omega)
    have hdue : due count count = count := by
      unfold due
      omega
    match i with
    | 0 => exact h₀.trans hdue
    | 1 => exact h₁.trans hdue
  obtain ⟨hhits, hcycles, hfound, hfcycles, hfollowed⟩ := foldl_sums res i
  have hAvg : (collectResults Real.sqrt testNum res i).hAvg = mean (hitsOf (foundIn res i)) := by
    simp only [collectResults, collectInput, hhits, hfound]
    exact average_eq (fun r => r.hit.toInt) _
  have cAvg : (collectResults Real.sqrt testNum res i).cAvg = mean (cyclesOf (foundIn res i)) := by
    simp only [collectResults, collectInput, hcycles, hfound]
    exact average_eq Result.cycles _
  have fAvg : (collectResults Real.sqrt testNum res i).fAvg =
      mean (fcyclesOf (followedIn res i)) := by
    simp only [collectResults, collectInput, hfcycles, hfollowed]
    exact average_eq Result.fcycles _
  have hruns : (((res.foldl (Sums.add i) {}).count : Nat) : Int) +
      (res.foldl (Sums.add i) {}).notFound = count := by
    rw [hfound, foldl_notFound, ← hlength]
    exact_mod_cast length_foundIn res i
  exact {
    input := rfl
    found := hfound
    runs := hruns
    hits := hhits.trans (sum_hits _)
    hAvg := hAvg
    cAvg := cAvg
    fAvg := fAvg
    share := by rw [hAvg]; exact ⟨mean_hits_nonneg _, mean_hits_le_one _⟩
    cycles := by
      rw [cAvg, fAvg]
      exact ⟨mean_cycles_nonneg hobserved i, mean_fcycles_nonneg res i⟩ }

/-- A test prints its rows if no run is given a bad address, and only then; and what it prints
accounts for all its runs. -/
theorem runTestWithShadowInput_accounts (testNum : Int) (rand : Nat → Bool)
    (runs : Nat → String × List LogLine) (hcount : 0 ≤ count) :
    ((runTestWithShadowInput? rand runs count).isSome ↔
        ∀ j : Nat, (j : Int) < 2 * count → goodAddress (runs j).1) ∧
      ∀ res, runTestWithShadowInput? rand runs count = some res → ∀ i : Fin 2,
        Accounts count res i (collectResults Real.sqrt testNum res i) := by
  refine ⟨(testLoop?_isSome 0 count count).trans ⟨fun h j => h j (Nat.zero_le j),
    fun h j _ => h j⟩, fun res hres i => ?_⟩
  rw [testLoop?_eq hres]
  exact runTestWithShadowInput_row testNum rand runs hcount i

/-- Two runs with each input, which all find the branch. -/
theorem runTestWithShadowInput_accounts_two :
    ∃ res, runTestWithShadowInput? (fun i => i < 3) jneRuns 2 = some res ∧
      ∀ i : Fin 2, Accounts 2 res i (collectResults Real.sqrt 1 res i) := by
  obtain ⟨hprints, haccounts⟩ :=
    runTestWithShadowInput_accounts 1 (fun i => i < 3) jneRuns (show (0 : Int) ≤ 2 by decide)
  have hgood : goodAddress "7f00004005d0" = true := by decide
  obtain ⟨res, hres⟩ := Option.isSome_iff_exists.mp (hprints.mpr fun _ _ => hgood)
  exact ⟨res, hres, haccounts res hres⟩

end BS.RunEnclaveJne
