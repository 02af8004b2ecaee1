import BranchShadowing.Impl.Lbr.Reader
import Mathlib.Algebra.Field.Defs

/-!
# The statistics of the LBR

`MiniStatistics`, `LbrStats`, the accessors of a record in `lbr_tools.h`, the lines of
`LbrReader::print_lbr_data`, and `finish_attack` from its ioctl to the statistics. A `double` is
an element of a field; there is none to return where C++ divides by zero. The colours and the
logging are left out.
-/

namespace BS

structure MiniStatistics (K : Type*) where
  vals : List K
  count : BitVec 32
  total : K

namespace MiniStatistics

variable {K : Type*} [Field K]

/-- `MiniStatistics()`. -/
def empty : MiniStatistics K := ⟨[], 0, 0⟩

def add (s : MiniStatistics K) (newVal : K) : MiniStatistics K where
  count := s.count + 1
  vals := s.vals ++ [newVal]
  total := s.total + newVal

/-- A number over `m_count`. -/
def perCount (s : MiniStatistics K) (x : K) : Option K :=
  if s.count = 0 then none else some (x / (s.count.toNat : K))

def mean (s : MiniStatistics K) : Option K := s.perCount s.total

/-- The loop of `stddev`: what it adds is the second operand of a comma. -/
def sdiffs (s : MiniStatistics K) : K := s.vals.foldl (fun sdiffs _ => sdiffs + 2) 0

/-- The number of which `stddev` takes the root. -/
def radicand (s : MiniStatistics K) : Option K := s.perCount s.sdiffs

def stddev (sqrt : K → K) (s : MiniStatistics K) : Option K := s.radicand.map sqrt

end MiniStatistics

namespace LbrReader

def addr64Mask : BitVec 64 := (1 <<< 48) - 1
def mispred32Mask : BitVec 64 := 1 <<< 31
def cycles32Mask : BitVec 64 := (1 <<< 16) - 1

def lbrDataGetFrom (d : LbrData) : BitVec 64 :=
  addr64Mask &&& ((d.dxf.setWidth 64 <<< 32) + d.axf.setWidth 64)

def lbrDataGetTo (d : LbrData) : BitVec 64 :=
  addr64Mask &&& ((d.dxt.setWidth 64 <<< 32) + d.axt.setWidth 64)

def lbrDataGetMispred (d : LbrData) : BitVec 32 :=
  (mispred32Mask &&& d.infoD.setWidth 64).setWidth 32

def lbrDataGetCycleCount (d : LbrData) : BitVec 32 :=
  (cycles32Mask &&& d.infoA.setWidth 64).setWidth 32

/-- What `print_lbr_data` prints of a record. -/
structure Line where
  src : BitVec 64
  dst : BitVec 64
  mispred : String
  cycles : BitVec 32
  deriving DecidableEq, Repr

def LbrData.printed (d : LbrData) : Line where
  src := lbrDataGetFrom d
  dst := lbrDataGetTo d
  mispred := if lbrDataGetMispred d ≠ 0 then "MISS" else "____"
  cycles := lbrDataGetCycleCount d

def printLbrData (data : Mem Byte) : List Line :=
  (List.range lbrCount).map fun i => (record data i).printed

end LbrReader

structure LbrStats (K : Type*) where
  hits : MiniStatistics K
  cycles : MiniStatistics K
  count : Int

namespace LbrStats

open LbrReader

variable {K : Type*} [Field K]

def addMeasurement (hit : Bool) (cycles : BitVec 32) (s : LbrStats K) : LbrStats K where
  hits := s.hits.add (if hit then 1 else 0)
  cycles := s.cycles.add (cycles.toNat : K)
  count := s.count + 1

/-- The variables of the loop of `add_from_lbr_data`. -/
structure Search where
  found : Bool := false
  hit : Bool := false
  cycles : BitVec 32 := 0

def Search.record (srcAddress : BitVec 64) (s : Search) (d : LbrData) : Search :=
  if lbrDataGetFrom d = srcAddress then
    { found := true, hit := lbrDataGetMispred d ≠ 0, cycles := lbrDataGetCycleCount d }
  else s

def addFromLbrData (data : Mem Byte) (srcAddress : BitVec 64) (s : LbrStats K) : LbrStats K :=
  let search := ((List.range lbrCount).map (LbrReader.record data)).foldl (Search.record srcAddress) {}
  if search.found then s.addMeasurement search.hit search.cycles else s

end LbrStats

/-- `finish_attack` behind its ioctl, up to the statistics; `none` where `read_lbr` aborts or
there are no data. -/
def Lbr.finishAttack {K : Type*} [Field K] (malloc : Option (Mem Byte)) (r : LbrReader)
    (dev : Lbr.Module) (shadowSrc : BitVec 64) (stats : LbrStats K) :
    Option (LbrReader × Lbr.Module × LbrStats K) :=
  (LbrReader.readLbr malloc r dev).bind fun (r, dev) =>
    r.lbrData.map fun data => (r, dev, stats.addFromLbrData data shadowSrc)

end BS
