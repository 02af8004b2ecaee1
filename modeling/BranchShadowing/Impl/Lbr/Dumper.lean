import BranchShadowing.Framework.Mem
import Mathlib.Logic.Function.Iterate

/-!
# The LBR device

The kernel module of `lbr_dumper.c`, with `dump_LBR` of `lbr_tools.c` and the records
of `lbr_tools.h`. The handlers of the device share `lbr_data`, a buffer that may not
have been allocated, and `lbr_data_index`, the position of the next read in it. Of
every byte of the buffer it is known whether a dump has written it; only the proofs
ask for that.

The printing, the enabling and disabling of the LBR and the arguments that no handler
looks at are left out.
-/

namespace BS.Lbr

/-- `struct lbr_data` of the module. -/
structure LbrData where
  msrf : BitVec 32
  msrt : BitVec 32
  axf : BitVec 32
  dxf : BitVec 32
  axt : BitVec 32
  dxt : BitVec 32
  infoA : BitVec 32
  infoD : BitVec 32
  deriving DecidableEq, Repr

def sizeofLbrData : Nat := 32
def lbrCount : Nat := 32
def lbrDataSize : Nat := sizeofLbrData * lbrCount

def msrLbrNhmFrom : Int := 0x680
def msrLbrNhmTo : Int := 0x6c0
def msrLbrInfo0 : Int := 0xdc0
def msrLbrSelect : Int := 0x1c8
def msrLbrTos : Int := 0x1c9
def msrIa32Debugctlmsr : Int := 0x1d9

/-- The record in memory. -/
def LbrData.bytes (d : LbrData) : List Byte :=
  [d.msrf, d.msrt, d.axf, d.dxf, d.axt, d.dxt, d.infoA, d.infoD].flatMap fun w => toLE 4 w.toNat

/-- What RDMSR leaves in EAX and EDX. -/
abbrev Msrs := Int → BitVec 32 × BitVec 32

def readLbrTos (rdmsr : Msrs) : Int := (rdmsr msrLbrTos).1.toInt

def readLbrEntry (rdmsr : Msrs) (f t i : Int) : LbrData where
  axf := (rdmsr f).1
  dxf := (rdmsr f).2
  axt := (rdmsr t).1
  dxt := (rdmsr t).2
  infoA := (rdmsr (msrLbrInfo0 + i)).1
  infoD := (rdmsr (msrLbrInfo0 + i)).2
  msrf := BitVec.ofInt 32 f
  msrt := BitVec.ofInt 32 t

/-- A byte of the buffer, and whether a dump has written it. -/
structure Cell where
  value : Byte
  dumped : Bool
  deriving DecidableEq, Repr

/-- `read_next` of `read_lbr`, on the buffer and the variables `i` and `o`. -/
def readNext (rdmsr : Msrs) : Mem Cell × Int × Nat → Mem Cell × Int × Nat
  | (data, i, o) =>
    (data.write (sizeofLbrData * o)
        ((readLbrEntry rdmsr (msrLbrNhmFrom + i) (msrLbrNhmTo + i) i).bytes.map (⟨·, true⟩)),
      (i + 1).tmod lbrCount, (o + 1) % lbrCount)

/-- `dump_LBR`: the 32 steps of `read_lbr`. -/
def dumpLBR (rdmsr : Msrs) (data : Mem Cell) : Mem Cell :=
  ((readNext rdmsr)^[32] (data, readLbrTos rdmsr, lbrCount - 1)).1

/-- The globals of the module. -/
structure Module where
  lbrData : Option (Mem Cell)
  lbrDataIndex : Nat

/-- `start_function`, given what `register_chrdev` returns and the memory that `kmalloc`
finds. -/
def startFunction (majorNum : Int) (kmalloc : Option (Mem Byte)) : Int × Module :=
  if majorNum < 0 then (majorNum, ⟨none, 0⟩)
  else (0, ⟨kmalloc.map fun m x => ⟨m x, false⟩, 0⟩)

def deviceIoctl (rdmsr : Msrs) (st : Module) : Module :=
  let st := match st.lbrData with
    | some data => { st with lbrData := some (dumpLBR rdmsr data) }
    | none => st
  { st with lbrDataIndex := 0 }

/-- A byte that is copied to user space: from the buffer, or from so far behind the
null pointer. -/
inductive Load
  | buffer (index : Nat) (c : Cell)
  | null (index : Nat)
  deriving DecidableEq, Repr

def load (lbrData : Option (Mem Cell)) (index : Nat) : Load :=
  match lbrData with
  | some data => .buffer index (data index)
  | none => .null index

/-- The loop of `device_read`, with the bytes it copies and the index it ends at. -/
def copyLoop (lbrData : Option (Mem Cell)) : Nat → Nat → List Load × Nat
  | 0, index => ([], index)
  | length + 1, index =>
    if index < lbrDataSize then
      let (loads, index') := copyLoop lbrData length (index + 1)
      (load lbrData index :: loads, index')
    else ([], index)

/-- `device_read`: the bytes copied, as many as it returns. -/
def deviceRead (length : Nat) (st : Module) : List Load × Module :=
  let index := if st.lbrDataIndex = lbrDataSize then 0 else st.lbrDataIndex
  let (loads, index') := copyLoop st.lbrData length index
  (loads, { st with lbrDataIndex := index' })

/-! ## Runs -/

/-- A call of user space. -/
inductive Call
  | open
  | release
  | read (length : Nat)
  | write (length : Nat)
  | ioctl (rdmsr : Msrs)

def Call.run : Call → Module → List Load × Module
  | .open, st | .release, st | .write _, st => ([], st)
  | .read length, st => deviceRead length st
  | .ioctl rdmsr, st => ([], deviceIoctl rdmsr st)

/-- The state after some calls. -/
def runCalls (calls : List Call) (st : Module) : Module :=
  calls.foldl (fun st call => (call.run st).2) st

end BS.Lbr
