import BranchShadowing.Framework.Mem
import BranchShadowing.Impl.Shadow.AlignedMem

/-!
# The segments of a shadow

`ShadowSegment` and its subclasses, which differ in the bytes they make when they are
finalized. A `shared_ptr` to a segment is a number, and a heap has a segment for
every number. The cells that `Pointers::get_indirect_pointer` allocates are numbered
as well: each is a pointer to a word.
-/

namespace BS.ShadowCode

/-- The subclasses, with their members. -/
inductive SegKind
  | eaxAndOne
  | eaxAndOneIndir
  | eaxWrite (val : BitVec 32)
  | jneEaxZero (jumpTarget : Nat)
  | jump (jumpTarget : Nat)
  | jumpR13
  | longJump (jumpTarget : Nat)
  | nop (nopCount : BitVec 64)
  | retq (nops : BitVec 64)
  | setPosInReg (jumpTarget : Option Nat) (targetPtr : Nat) (register : Byte)
  deriving DecidableEq, Repr

/-- The size that each passes to the constructor of `ShadowSegment`. -/
def SegKind.size : SegKind → BitVec 64
  | .eaxAndOne => 3
  | .eaxAndOneIndir => 6
  | .eaxWrite _ => 5
  | .jneEaxZero _ => 4
  | .jump _ => 2
  | .jumpR13 => 4
  | .longJump _ => 5
  | .nop nopCount => 1 * nopCount
  | .retq nops => 1 + nops * 1
  | .setPosInReg .. => 10

structure ShadowSegment where
  kind : SegKind
  pos : Ptr
  hex : List Byte := []
  deriving DecidableEq, Repr

namespace ShadowSegment

def getSize (s : ShadowSegment) : BitVec 64 := s.kind.size

def hasPos (s : ShadowSegment) : Bool := s.pos ≠ nullptr

def getEnd (s : ShadowSegment) : Ptr := s.pos + s.getSize

def setPos (s : ShadowSegment) (ptr offset : Ptr) : Except Failure ShadowSegment := do
  ensure (ptr &&& 0xff000000000000 = 0) "pointer is valid"
  return { s with pos := ptr + offset }

def setEnd (s : ShadowSegment) (ptr offset : Ptr) : ShadowSegment :=
  { s with pos := ptr - s.getSize + offset }

/-- `apply_base`, with the offset it returns. -/
def applyBase (s : ShadowSegment) (ptr mask : Ptr) : Ptr × ShadowSegment :=
  let pos := (s.pos &&& mask) ||| (ptr &&& ~~~mask)
  (pos - s.pos, { s with pos := pos })

def applyOffset (s : ShadowSegment) (offset : Ptr) : ShadowSegment :=
  { s with pos := s.pos + offset }

end ShadowSegment

def SegJneEaxZero.jneOffset : Ptr := 2

/-- `make` of the subclasses that take a position. -/
def SegKind.make (kind : SegKind) (pos : Ptr) : Except Failure ShadowSegment :=
  match kind with
  | .jneEaxZero _ => do
    return { kind := kind, pos := ← Pointers.addOffset pos (-SegJneEaxZero.jneOffset) }
  | _ => return { kind := kind, pos := pos }

/-- `make` without a position. -/
def SegKind.makeLoose (kind : SegKind) : ShadowSegment := { kind := kind, pos := nullptr }

abbrev Heap := Nat → ShadowSegment

/-- A pointer to a word, and the word. -/
structure Cell where
  inner : Ptr
  value : BitVec 64
  deriving DecidableEq, Repr

abbrev Cells := Nat → Cell

/-! ## `finalize` -/

/-- `size` bytes of `malloc`, that a loop with an `int` index fills. -/
def fillHex (size : BitVec 64) (b : Byte) : Except Failure (List Byte) :=
  if size.toNat < 2 ^ 31 then .ok (List.replicate size.toNat b) else .error .overflow

def SegEaxWrite.hex (val : BitVec 32) : List Byte := 0xb8 :: toLE 4 val.toNat

def SegNop.finalize (nopCount : BitVec 64) : Except Failure (List Byte) :=
  fillHex (1 + nopCount) 0x90

def SegRetq.finalize (nops : BitVec 64) : Except Failure (List Byte) := do
  let size : BitVec 64 := 1 + nops * 1
  let hex ← fillHex size 0x90
  -- the byte before the buffer would be written
  if size = 0 then .error .fault
  return hex.set (size.toNat - 1) 0xc3

def SegJneEaxZero.finalize (target segEnd : Ptr) : Except Failure (List Byte) := do
  let jump ← Pointers.getDiff target segEnd
  return [0x85, 0xc0, 0x75, jump.setWidth 8]

def SegJump.finalize (target segEnd : Ptr) : Except Failure (List Byte) := do
  let diff ← Pointers.getDiff target segEnd
  ensure (-128 < diff.toInt ∧ diff.toInt < 128) "jump distance is withing jmp limits"
  return [0xeb, diff.setWidth 8]

def SegLongJump.finalize (target segEnd : Ptr) : Except Failure (List Byte) := do
  let diff ← Pointers.getDiff target segEnd
  return 0xe9 :: toLE 4 diff.toNat

def SegSetPosInReg.hex (inner : Ptr) (register : Byte) : List Byte :=
  0x49 :: (0xb0 ||| register) :: toLE 8 inner.toNat

/-- What `get_content` points to after `finalize`. -/
def ShadowSegment.makeHex (heap : Heap) (cells : Cells) (s : ShadowSegment) :
    Except Failure (List Byte) :=
  match s.kind with
  | .eaxAndOne => return [0x83, 0xe0, 0x01]
  | .eaxAndOneIndir => return [0x41, 0x8b, 0x06, 0x83, 0xe0, 0x01]
  | .eaxWrite val => return SegEaxWrite.hex val
  | .jneEaxZero t => SegJneEaxZero.finalize (heap t).pos s.getEnd
  | .jump t => SegJump.finalize (heap t).pos s.getEnd
  | .jumpR13 => return [0x41, 0xff, 0x65, 0x00]
  | .longJump t => SegLongJump.finalize (heap t).pos s.getEnd
  | .nop nopCount => SegNop.finalize nopCount
  | .retq nops => SegRetq.finalize nops
  | .setPosInReg _ c register => return SegSetPosInReg.hex (cells c).inner register

/-- `set_indirect_pointer_value`, which only `SegSetPosInReg::finalize` calls. -/
def ShadowSegment.setTarget (heap : Heap) (cells : Cells) (s : ShadowSegment) : Cells :=
  match s.kind with
  | .setPosInReg (some t) c _ => Function.update cells c { cells c with value := (heap t).pos }
  | _ => cells

/-- `finalize`, with the cells afterwards. -/
def ShadowSegment.finalize (heap : Heap) (cells : Cells) (s : ShadowSegment) :
    Except Failure (List Byte × Cells) := do
  let cells := s.setTarget heap cells
  return (← s.makeHex heap cells, cells)

end BS.ShadowCode
