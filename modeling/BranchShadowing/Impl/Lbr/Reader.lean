import BranchShadowing.Impl.Lbr.Dumper

/-!
# Reading the LBR

`LbrReader` of the user program, which has a record of its own (`lbr_tools.h` under
`misc/`) and fills an array of them by one `read` each.
-/

namespace BS.LbrReader

/-- The packed `struct lbr_data` of the user program. -/
structure LbrData where
  msrf : BitVec 32
  msrt : BitVec 32
  axf : BitVec 32
  dxf : BitVec 32
  axt : BitVec 32
  dxt : BitVec 32
  infoA : BitVec 32
  infoD : BitVec 32
  deriving DecidableEq, Repr

def sizeofLbrData : Nat := 32
def lbrCount : Nat := 32

/-- The record that bytes in memory stand for. -/
def LbrData.ofBytes (bs : List Byte) : LbrData :=
  let word (k : Nat) := BitVec.ofNat 32 (ofLE ((bs.drop (4 * k)).take 4))
  ⟨word 0, word 1, word 2, word 3, word 4, word 5, word 6, word 7⟩

end LbrReader

open Lbr

/-- The byte that the user gets, where one is copied from the buffer. -/
def Lbr.Load.value : Load → Option Byte
  | .buffer _ c => some c.value
  | .null _ => none

structure LbrReader where
  fdLbr : Int
  lbrData : Option (Mem Byte)

namespace LbrReader

/-- The loop of `read_lbr`, `n` records from the `i`-th on. -/
def readRecords : Nat → Nat → Module → Mem Byte → Module × Mem Byte
  | 0, _, dev, data => (dev, data)
  | n + 1, i, dev, data =>
    let (loads, dev) := deviceRead sizeofLbrData dev
    readRecords n (i + 1) dev (data.write (sizeofLbrData * i) (loads.filterMap Load.value))

/-- `read_lbr`, given the memory that `malloc` finds; `none` where it aborts. What it
returns is left out: after the loop it has no `return`. -/
def readLbr (malloc : Option (Mem Byte)) (r : LbrReader) (dev : Module) :
    Option (LbrReader × Module) :=
  if r.fdLbr < 1 then some (r, dev)
  else
    match r.lbrData.or malloc with
    | none => none
    | some data =>
      let (dev, data) := readRecords lbrCount 0 dev data
      some ({ r with lbrData := some data }, dev)

/-- `m_lbr_data[i]`. -/
def record (data : Mem Byte) (i : Nat) : LbrData :=
  .ofBytes (data.read (sizeofLbrData * i) sizeofLbrData)

end LbrReader

end BS
