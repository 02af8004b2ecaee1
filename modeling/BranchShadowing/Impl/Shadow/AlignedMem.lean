/-!
# Pointers and the memory that is mapped

`Pointers` and `AlignedMem` of `shadow_code`. A pointer is a 64-bit number, as
`uintptr_t` has it. What `mmap` returns is an argument; unmapping and the logging are
left out.
-/

namespace BS.ShadowCode

abbrev Ptr := BitVec 64

def nullptr : Ptr := 0

/-- How the program ends early. -/
inductive Failure
  | assertion (text : String)
  | abort
  | badAlloc
  | overflow
  | fault
  deriving DecidableEq, Repr

/-- `assert`. -/
def ensure (p : Prop) [Decidable p] (text : String) : Except Failure Unit :=
  if p then .ok () else .error (.assertion text)

namespace Pointers

def getMask (bits : Nat) : Ptr := 1#64 <<< bits - 1

def getDiff (a b : Ptr) : Except Failure Ptr := do
  ensure (a ≠ nullptr) "a != nullptr"
  ensure (b ≠ nullptr) "b != nullptr"
  return a - b

def addOffset (ptr offset : Ptr) : Except Failure Ptr := do
  ensure (ptr ≠ nullptr) "ptr != nullptr"
  return ptr + offset

def applyMask (ptr mask : Ptr) : Except Failure Ptr := do
  ensure (ptr ≠ nullptr) "ptr != nullptr"
  return ptr &&& mask

def applyRmask (ptr mask : Ptr) : Except Failure Ptr := do
  ensure (ptr ≠ nullptr) "ptr != nullptr"
  return ptr &&& ~~~mask

def setMaskedBase (ptr base mask : Ptr) : Except Failure Ptr := do
  let ptrMasked ← applyMask ptr mask
  let baseMasked ← applyRmask base mask
  return ptrMasked ||| baseMasked

end Pointers

structure AlignedMem where
  mem : Ptr
  entry : Ptr
  targetEntry : Ptr
  size : BitVec 64
  alignBits : Nat
  deriving DecidableEq, Repr

namespace AlignedMem

/-- The constructor. -/
def make (entry : Ptr) (size : BitVec 64) (alignBits : Nat) : AlignedMem where
  mem := nullptr
  entry := nullptr
  targetEntry := entry
  size := 1#64 <<< alignBits + size
  alignBits := alignBits

/-- `allocate`, where `mmap` returns `mapped`. -/
def allocate (a : AlignedMem) (mapped : Ptr) : Except Failure (Bool × AlignedMem) := do
  ensure (a.mem = nullptr) "mem == nullptr"
  let mask := 1#64 <<< a.alignBits - 1
  let a := { a with mem := mapped }
  if a.mem = nullptr then return (false, a)
  let entry := (a.mem &&& ~~~mask) + (a.targetEntry &&& mask)
  let entry := if entry < a.mem then entry + mask else entry
  return (true, { a with entry := entry })

def asPtr (a : AlignedMem) : Except Failure Ptr := do
  ensure (a.mem ≠ nullptr) "trying to get pointer before allocation"
  return a.entry

end AlignedMem

end BS.ShadowCode
