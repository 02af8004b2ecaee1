import BranchShadowing.Framework.Variance
import BranchShadowing.Impl.RunEnclaveJne

/-!
# What the statistics should be

The reported spread is that of the results whose average is reported (`Reported`):
those found, and for the cycles of the following branch those where one was seen.
-/

namespace BS.RunEnclaveJne

/-- A result of `run_once`: -1 stands for cycles not seen. -/
structure Result.Observed (r : Result) : Prop where
  missed : r.notFound → r.hit = false ∧ r.cycles = -1 ∧ r.fcycles = -1
  found : r.notFound = false → 0 ≤ r.cycles

/-- The results that the averages are taken over. -/
def foundIn (res : List Result) (i : Fin 2) : List Result :=
  res.filter fun r => r.input = i ∧ r.notFound = false

/-- Of these, those where the branch that follows was seen. -/
def followedIn (res : List Result) (i : Fin 2) : List Result :=
  (foundIn res i).filter fun r => 0 ≤ r.fcycles

noncomputable section

def hitsOf (rs : List Result) : List ℝ := rs.map fun r => r.hit.toInt
def cyclesOf (rs : List Result) : List ℝ := rs.map fun r => r.cycles
def fcyclesOf (rs : List Result) : List ℝ := rs.map fun r => r.fcycles

/-- The squared standard error of the difference of the means of two samples. -/
def diffVariance (xs : Fin 2 → List ℝ) : ℝ :=
  ∑ i, variance (xs i) / (xs i).length

/-- All spreads reported are those of the results averaged over, for inputs with more than
two found. -/
structure Reported (out : Fin 2 → Output ℝ) (res : List Result) : Prop where
  hits : ∀ i, 2 < (foundIn res i).length → (out i).hStd ^ 2 = variance (hitsOf (foundIn res i))
  cycles : ∀ i, 2 < (foundIn res i).length → (out i).cStd ^ 2 = variance (cyclesOf (foundIn res i))
  fcycles : ∀ i, 2 < (foundIn res i).length → 2 < (followedIn res i).length →
    (out i).fStd ^ 2 = variance (fcyclesOf (followedIn res i))
  hitsDiff : (∀ i, 2 < (foundIn res i).length) →
    getDiffStddev Real.sqrt out Output.hStd ^ 2 = diffVariance fun i => hitsOf (foundIn res i)
  cyclesDiff : (∀ i, 2 < (foundIn res i).length) →
    getDiffStddev Real.sqrt out Output.cStd ^ 2 = diffVariance fun i => cyclesOf (foundIn res i)
  fcyclesDiff : (∀ i, 2 < (foundIn res i).length) → (∀ i, 2 < (followedIn res i).length) →
    getDiffStddev Real.sqrt out Output.fStd ^ 2 = diffVariance fun i => fcyclesOf (followedIn res i)

/-- The standard deviations of two samples are 0 or 1, or one is below 1 and the other so
far above that the differences to their squares cancel. -/
def Balanced (xs : Fin 2 → List ℝ) : Prop :=
  ∑ i, √(variance (xs i)) * (1 - √(variance (xs i))) / (xs i).length = 0

/-- The results on which the script reports these spreads: for inputs with more than two
found, none is missing, and the hits agree. -/
structure SpreadsAgree (res : List Result) : Prop where
  found : ∀ i, 2 < (foundIn res i).length → ∀ r ∈ res, r.input = i → r.notFound = false
  followed : ∀ i, 2 < (foundIn res i).length → 2 < (followedIn res i).length →
    ∀ r ∈ res, r.input = i → 0 ≤ r.fcycles
  hits : (∀ i, 2 < (foundIn res i).length) → ∀ i,
    ∀ r ∈ foundIn res i, ∀ r' ∈ foundIn res i, r.hit = r'.hit
  cycles : (∀ i, 2 < (foundIn res i).length) →
    Balanced fun i => cyclesOf (foundIn res i)
  fcycles : (∀ i, 2 < (foundIn res i).length) →
    (∀ i, 2 < (followedIn res i).length) →
    Balanced fun i => fcyclesOf (followedIn res i)

/-! ## Accounts -/

/-- The row of an input accounts for all its runs: each was found or not, and the averages are
those of the runs that were found. -/
structure Accounts (count : Int) (res : List Result) (i : Fin 2) (out : Output ℝ) : Prop where
  input : out.vInput = i
  found : out.count = (foundIn res i).length
  runs : (out.count : Int) + out.notFound = count
  hits : out.hits = ((foundIn res i).filter Result.hit).length
  hAvg : out.hAvg = mean (hitsOf (foundIn res i))
  cAvg : out.cAvg = mean (cyclesOf (foundIn res i))
  fAvg : out.fAvg = mean (fcyclesOf (followedIn res i))
  share : 0 ≤ out.hAvg ∧ out.hAvg ≤ 1
  cycles : 0 ≤ out.cAvg ∧ 0 ≤ out.fAvg

end

end BS.RunEnclaveJne
