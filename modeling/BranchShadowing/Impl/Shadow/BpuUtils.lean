import BranchShadowing.Impl.Shadow.Shadow

/-!
# The jump slide

`BpuUtils::do_sequential_jumps`, which fills the branch target buffer with jumps that
follow one another. Logging is left out.
-/

namespace BS.ShadowCode.BpuUtils

/-- The macro `lbr_entry_bits`. -/
def lbrEntryBits : Nat := 32

/-- Three jumps of two bytes, the first over the second to the third, which goes back to
the second; and a return. -/
def jumpGroup : List Byte := [0xeb, 0x02, 0xeb, 0x02, 0xeb, 0xfc, 0xc3]

/-- The inner loop, with an `int` as index. -/
def fillSlide (jumpSlide : Ptr) (jumpSize : BitVec 64) (i : Nat) (m : Mem Byte) :
    Except Failure (Mem Byte) :=
  if BitVec.ofNat 64 i < jumpSize - 6 then
    if i + 6 < 2 ^ 31 then do
      let m ← Shadow.memcpy (jumpSlide + BitVec.ofNat 64 i) jumpGroup 7 m
      fillSlide jumpSlide jumpSize (i + 6) m
    else .error .overflow
  else return m
termination_by 2 ^ 31 - i

/-- The calls of `enter_the_slide`, one for each offset: the entry, and the memory then. -/
def rounds (jumpSlide : Ptr) (jumpSize : BitVec 64) :
    List Nat → Mem Byte → Except Failure (List (Ptr × Mem Byte))
  | [], _ => return []
  | offset :: offsets, m => do
    let m ← fillSlide jumpSlide jumpSize offset m
    -- the slide is executed here, and writes nothing
    let calls ← rounds jumpSlide jumpSize offsets m
    return (jumpSlide + BitVec.ofNat 64 offset, m) :: calls

/-- `do_sequential_jumps`, where `mmap` returns `mapped`. -/
def doSequentialJumps (entries : BitVec 64) (target mapped : Ptr) (m : Mem Byte) :
    Except Failure (List (Ptr × Mem Byte)) := do
  let jumpSize := entries * 6
  let (ok, mem) ← (AlignedMem.make target (jumpSize + 20) lbrEntryBits).allocate mapped
  if ok = false then .error .abort
  let jumpSlide ← mem.asPtr
  rounds jumpSlide jumpSize [0, 1] m

end BS.ShadowCode.BpuUtils
