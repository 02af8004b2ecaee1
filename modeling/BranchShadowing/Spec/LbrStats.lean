import BranchShadowing.Framework.Variance
import BranchShadowing.Impl.Lbr.Stats
import BranchShadowing.Impl.RunEnclaveJne

/-!
# What the statistics of the LBR should be

A dump is measured by the last record of the branch (`LbrStats.Measures`), which is what
the script reads off the lines that are printed of it (`Line.logged`). The statistics of
a list are its mean and variance (`MiniStatistics.Describes`).
-/

namespace BS

noncomputable section

open LbrReader

/-! ## Records -/

/-- The address that the branch is at: 48 bits of the register. -/
def LbrReader.LbrData.fromAddress (d : LbrData) : BitVec 48 := (d.dxf ++ d.axf).extractLsb' 0 48

/-- The highest bit of the register. -/
def LbrReader.LbrData.mispredicted (d : LbrData) : Bool := d.infoD.msb

/-- The lowest 16 bits of the register. -/
def LbrReader.LbrData.cycleCount (d : LbrData) : BitVec 16 := d.infoA.extractLsb' 0 16

/-- The records of a dump that are of the branch at `src`. -/
def recordsOf (data : Mem Byte) (src : BitVec 64) : List LbrData :=
  ((List.range lbrCount).map (record data)).filter fun d => d.fromAddress.setWidth 64 = src

/-! ## Lines -/

/-- An address as the script sees it: without the zeros that lead. -/
def hex (a : BitVec 64) : String := String.ofList (Nat.toDigits 16 a.toNat)

/-- A printed line, as `run_once` matches it. -/
def LbrReader.Line.logged (l : Line) : RunEnclaveJne.LogLine where
  addr := hex l.src
  cycles := l.cycles.toNat
  miss := l.mispred = "MISS"

/-- What the script makes of a dump. -/
def readByScript (data : Mem Byte) (src : BitVec 64) (victimInput : Int) : RunEnclaveJne.Result :=
  RunEnclaveJne.runOnce (hex src) victimInput ((printLbrData data).map Line.logged)

/-! ## Statistics -/

/-- The statistics gain the last record of the branch, if there is one, and that is what the
script makes of the dump. -/
structure LbrStats.Measures {K : Type*} [Field K] (data : Mem Byte) (src : BitVec 64)
    (s : LbrStats K) : Prop where
  none : recordsOf data src = [] → s.addFromLbrData data src = s
  last : ∀ d, (recordsOf data src).getLast? = some d →
    s.addFromLbrData data src = s.addMeasurement (!d.mispredicted) (d.cycleCount.setWidth 32)
  script : ∀ victimInput, let r := readByScript data src victimInput
    s.addFromLbrData data src =
      if r.notFound then s else s.addMeasurement r.hit (BitVec.ofInt 32 r.cycles)

/-- The statistics of some values, added one after the other. -/
def MiniStatistics.ofVals (vs : List ℝ) : MiniStatistics ℝ := vs.foldl MiniStatistics.add .empty

/-- The statistics of some values are their mean and the root of their variance, which is 0
for equal values and does not change when they all grow by a constant. -/
structure MiniStatistics.Describes (vs : List ℝ) : Prop where
  mean : (ofVals vs).mean = some (BS.mean vs)
  radicand : (ofVals vs).radicand = some (variance vs)
  equal : (∀ x ∈ vs, ∀ y ∈ vs, x = y) → (ofVals vs).radicand = some 0
  shift : ∀ c, (ofVals (vs.map (· + c))).radicand = (ofVals vs).radicand

end

end BS
