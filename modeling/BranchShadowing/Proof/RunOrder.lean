import BranchShadowing.Impl.RunEnclaveJne

/-!
# The order of the runs is balanced

A counter that is used up hands over to the other input, and goes on counting down: what
it is below zero are the runs of the other that it has taken over (`due`).
-/

namespace BS.RunEnclaveJne

variable {rand : Nat → Bool} {runs : Nat → String × List LogLine} {count : Int}

/-- The runs with an input that are still to come, from its counter and the other. -/
def due (own other : Int) : Int := max own 0 + min other 0

/-- A run is one of those that are due. -/
theorem due_chooseInput (b : Bool) {ones zeros : Int} (h : 0 < ones + zeros) :
    ((chooseInput b ones zeros).1 = 1 ∧
        due (chooseInput b ones zeros).2.1 (chooseInput b ones zeros).2.2 = due ones zeros - 1 ∧
        due (chooseInput b ones zeros).2.2 (chooseInput b ones zeros).2.1 = due zeros ones ∨
      (chooseInput b ones zeros).1 = 0 ∧
        due (chooseInput b ones zeros).2.1 (chooseInput b ones zeros).2.2 = due ones zeros ∧
        due (chooseInput b ones zeros).2.2 (chooseInput b ones zeros).2.1 = due zeros ones - 1) ∧
      (chooseInput b ones zeros).2.1 + (chooseInput b ones zeros).2.2 = ones + zeros - 1 := by
  unfold chooseInput due
  by_cases hb : b
  · rw [if_pos hb]
    by_cases ho : 0 < ones
    · rw [if_pos ho]
      refine ⟨.inl ⟨rfl, ?_, ?_⟩, ?_⟩ <;> dsimp only <;> omega
    · rw [if_neg ho]
      refine ⟨.inr ⟨rfl, ?_, ?_⟩, ?_⟩ <;> dsimp only <;> omega
  · rw [if_neg hb]
    by_cases hz : 0 < zeros
    · rw [if_pos hz]
      refine ⟨.inr ⟨rfl, ?_, ?_⟩, ?_⟩ <;> dsimp only <;> omega
    · rw [if_neg hz]
      refine ⟨.inl ⟨rfl, ?_, ?_⟩, ?_⟩ <;> dsimp only <;> omega

/-- The runs with input `v`. -/
def runsWith (res : List Result) (v : Int) : List Result := res.filter fun r => r.input = v

theorem runsWith_cons (addr : String) (log : List LogLine) (input v : Int) (res : List Result) :
    ((runsWith (runOnce addr input log :: res) v).length : Int) =
      (runsWith res v).length + if input = v then 1 else 0 := by
  have hinput : (runOnce addr input log).input = input := rfl
  unfold runsWith
  rw [List.filter_cons, hinput]
  by_cases h : input = v
  · simp [h]
  · simp [h]

/-- From any point of the loop on, the runs that are due are performed. -/
theorem testLoop_balanced (i : Nat) (ones zeros : Int) (h : ones + zeros = 2 * count - i)
    (hi : (i : Int) ≤ 2 * count) :
    ((testLoop rand runs count i ones zeros).length : Int) = 2 * count - i ∧
      ((runsWith (testLoop rand runs count i ones zeros) 1).length : Int) = due ones zeros ∧
      ((runsWith (testLoop rand runs count i ones zeros) 0).length : Int) = due zeros ones := by
  induction hr : (2 * count - i).toNat generalizing i ones zeros with
  | zero =>
    rw [testLoop, if_neg (by omega)]
    simp only [runsWith, due, List.filter_nil, List.length_nil]
    omega
  | succ r ih =>
    obtain ⟨hchoice, hsum⟩ := due_chooseInput (rand i) (show 0 < ones + zeros by omega)
    rw [testLoop, if_pos (by omega)]
    generalize chooseInput (rand i) ones zeros = chosen at hchoice hsum ⊢
    obtain ⟨input, ones', zeros'⟩ := chosen
    dsimp only at hchoice hsum ⊢
    obtain ⟨hlen, h₁, h₀⟩ := ih (i + 1) ones' zeros' (by omega) (by omega) (by omega)
    rw [List.length_cons, runsWith_cons, runsWith_cons, h₁, h₀]
    rcases hchoice with ⟨rfl, h₁', h₀'⟩ | ⟨rfl, h₁', h₀'⟩
    · rw [if_pos rfl, if_neg (by decide)]
      omega
    · rw [if_neg (by decide), if_pos rfl]
      omega

/-- There are `2 * count` runs, half of them with each input. -/
theorem runTestWithShadowInput_balanced (rand : Nat → Bool) (runs : Nat → String × List LogLine)
    (hcount : 0 ≤ count) :
    ((runTestWithShadowInput rand runs count).length : Int) = 2 * count ∧
      ((runsWith (runTestWithShadowInput rand runs count) 1).length : Int) = count ∧
      ((runsWith (runTestWithShadowInput rand runs count) 0).length : Int) = count := by
  have h : count + count = 2 * count - (0 : Nat) := by omega
  obtain ⟨hlen, h₁, h₀⟩ := @testLoop_balanced rand runs count 0 count count h (by omega)
  unfold due at h₁ h₀
  unfold runTestWithShadowInput
  omega

/-- A branch that is in the LBR in every round, mispredicted in the first, and the one that
follows. -/
def jneRuns (i : Nat) : String × List LogLine :=
  ("7f00004005d0", [⟨"7f00004005d0", 4 + i, i = 0⟩, ⟨"7f0000400604", 9, false⟩])

/-- Three runs in a row draw a one, though there are only two. -/
theorem runTestWithShadowInput_balanced_two :
    ((runTestWithShadowInput (fun i => i < 3) jneRuns 2).length : Int) = 2 * 2 ∧
      ((runsWith (runTestWithShadowInput (fun i => i < 3) jneRuns 2) 1).length : Int) = 2 ∧
      ((runsWith (runTestWithShadowInput (fun i => i < 3) jneRuns 2) 0).length : Int) = 2 :=
  runTestWithShadowInput_balanced _ _ (by decide)

end BS.RunEnclaveJne
