import BranchShadowing.Framework.Ring
import BranchShadowing.Impl.Lbr.Dumper

/-!
# The LBR of a CPU

The registers that the module uses, as the manual of the processor has them. A branch that
retires is recorded where bit 0 of `DEBUGCTL` is set and no bit of `LBR_SELECT` keeps it out
(`Cpu.records`); then the top of the stack moves on to the next of 32 slots, which takes it.
-/

namespace BS.Lbr

/-- A branch: its record, and the bits of `LBR_SELECT` that keep it out. -/
structure Branch where
  src : BitVec 64
  dst : BitVec 64
  info : BitVec 64
  kinds : BitVec 64
  deriving DecidableEq, Repr

/-- Bit 0 is about the branches that end in ring 0. -/
def Branch.endsInKernel (b : Branch) : Bool := b.kinds.getLsbD 0

/-- The address that the record gives for the branch. -/
def Branch.address (b : Branch) : BitVec 64 := (b.src.setWidth 48).setWidth 64

/-- The highest bit of the information. -/
def Branch.mispredicted (b : Branch) : Bool := b.info.msb

def Branch.cycles (b : Branch) : BitVec 32 := (b.info.extractLsb' 0 16).setWidth 32

structure Cpu where
  debugctl : BitVec 64
  select : BitVec 64
  lbr : Ring Branch 32

namespace Cpu

def records (c : Cpu) (b : Branch) : Bool :=
  c.debugctl.getLsbD 0 && (c.select &&& b.kinds) == 0

def retire (c : Cpu) (b : Branch) : Cpu :=
  if c.records b then { c with lbr := c.lbr.push b } else c

def wrmsr (c : Cpu) (msr : Int) (v : BitVec 64) : Cpu :=
  if msr = msrIa32Debugctlmsr then { c with debugctl := v }
  else if msr = msrLbrSelect then { c with select := v }
  else c

/-- The register in question. -/
def msr (c : Cpu) (m : Int) : BitVec 64 :=
  if m = msrLbrTos then BitVec.ofNat 64 c.lbr.top
  else if m = msrIa32Debugctlmsr then c.debugctl
  else if m = msrLbrSelect then c.select
  else if msrLbrNhmFrom ≤ m ∧ m < msrLbrNhmFrom + 32 then
    (c.lbr.slots (m - msrLbrNhmFrom).toNat).src
  else if msrLbrNhmTo ≤ m ∧ m < msrLbrNhmTo + 32 then (c.lbr.slots (m - msrLbrNhmTo).toNat).dst
  else if msrLbrInfo0 ≤ m ∧ m < msrLbrInfo0 + 32 then (c.lbr.slots (m - msrLbrInfo0).toNat).info
  else 0

/-- What RDMSR leaves in EAX and EDX. -/
def rdmsr (c : Cpu) : Msrs := fun m =>
  ((c.msr m).extractLsb' 0 32, (c.msr m).extractLsb' 32 32)

end Cpu

/-- The record of a branch in a slot. -/
def Branch.inSlot (b : Branch) (i : Nat) : LbrData where
  axf := b.src.extractLsb' 0 32
  dxf := b.src.extractLsb' 32 32
  axt := b.dst.extractLsb' 0 32
  dxt := b.dst.extractLsb' 32 32
  infoA := b.info.extractLsb' 0 32
  infoD := b.info.extractLsb' 32 32
  msrf := BitVec.ofInt 32 (msrLbrNhmFrom + i)
  msrt := BitVec.ofInt 32 (msrLbrNhmTo + i)

/-- The records of a ring, oldest first. -/
def recordsIn (r : Ring Branch 32) : List LbrData :=
  (List.range 32).map fun k => (r.slots (r.slot k)).inSlot (r.slot k)

end BS.Lbr
