import Mathlib.Data.BitVec
import Mathlib.Data.List.Basic
import BranchShadowing.Impl.Shadow.Segment

/-!
# The shadow

The class `Shadow`: segments are added one by one, those without a position wait as
loose ones until the next that has one is placed, and `finalize` moves them all to
the memory that is mapped and writes them there.
-/

namespace BS.ShadowCode

structure Shadow where
  heap : Heap
  segments : List Nat := []
  looseSegments : List Nat := []
  entrySegment : Option Nat := none
  finalized : Bool := false
  alignBits : Nat

namespace Shadow

def segmentSpacing : Ptr := 2

/-- The number of segments from which `std::list` throws. -/
def maxSize : Nat := 2 ^ 58

def mask (s : Shadow) : Ptr := Pointers.getMask s.alignBits

def getPos (s : Shadow) (i : Nat) : Ptr := (s.heap i).pos

def getEnd (s : Shadow) (i : Nat) : Ptr := (s.heap i).getEnd

/-- The loop of `place_segment`, on the loose segments from the last to the first. -/
def placeLoose (spacing : Ptr) : List Nat → Nat → Heap → Heap
  | [], _, heap => heap
  | i :: rest, prev, heap =>
    placeLoose spacing rest i (Function.update heap i ((heap i).setEnd (heap prev).pos (-spacing)))

/-- The space between loose segments that are to be placed in front of one with a position. -/
def spacing (s : Shadow) (segment : Nat) : Except Failure Ptr :=
  match s.segments.getLast? with
  | none => return segmentSpacing
  | some back => do
    let space := s.getPos segment - s.getEnd back
    let totalSize := (s.looseSegments.map fun i => (s.heap i).getSize).sum
    ensure (totalSize.sle space) "elements fit into available space"
    return (space - totalSize) / BitVec.ofNat 64 s.looseSegments.length

def placeSegment (s : Shadow) (segment : Nat) : Except Failure Shadow := do
  ensure (s.finalized = false) "!m_finalized"
  if s.looseSegments = [] then
    return { s with segments := s.segments ++ [segment] }
  let spacing ← s.spacing segment
  ensure (spacing.slt 10000) "spacing is within sane range"
  return { s with
    heap := placeLoose spacing s.looseSegments.reverse segment s.heap
    segments := s.segments ++ s.looseSegments ++ [segment]
    looseSegments := [] }

def addSegment (s : Shadow) (segment : Nat) : Except Failure Shadow := do
  ensure (s.finalized = false) "!m_finalized"
  ensure (∀ back ∈ s.segments.getLast?, s.getPos segment = nullptr ∨
    s.getPos back < s.getPos segment) "segment order is correct"
  if (s.heap segment).hasPos then s.placeSegment segment
  else if s.looseSegments.length < maxSize then
    return { s with looseSegments := s.looseSegments ++ [segment] }
  else .error .badAlloc

def addEntry (s : Shadow) (segment : Nat) : Except Failure Shadow := do
  ensure (s.entrySegment = none) "m_entry_segment == nullptr"
  { s with entrySegment := some segment }.addSegment segment

/-! ## `finalize` -/

/-- The loop over the segments that are still loose. -/
def placeRest : List Nat → Nat → Shadow → Except Failure Shadow
  | [], _, s => return s
  | i :: rest, prev, s => do
    let seg ← (s.heap i).setPos (s.getEnd prev) segmentSpacing
    placeRest rest i
      { s with heap := Function.update s.heap i seg, segments := s.segments ++ [i] }

/-- All segments have a position then. -/
def placeAll (s : Shadow) : Except Failure Shadow :=
  if s.looseSegments = [] then return s
  else
    match s.segments.getLast? with
    | none => .error .abort
    | some prev => placeRest s.looseSegments prev s

def getSize (s : Shadow) (front back : Nat) : BitVec 64 := s.getPos back - s.getEnd front

/-- The memory for the segments from `front` to `back`. -/
def alignedMem (s : Shadow) (front back : Nat) : AlignedMem :=
  AlignedMem.make (s.getPos front) (s.getSize front back) s.alignBits

/-- Moves the first segment to `base`, and the others by as much. -/
def relocate (base mask : Ptr) (front : Nat) (rest : List Nat) (heap : Heap) : Heap :=
  let (offset, first) := (heap front).applyBase base mask
  rest.foldl (fun heap i => Function.update heap i ((heap i).applyOffset offset))
    (Function.update heap front first)

/-- `fill_with_nops`, which does not come to an end below its start. -/
def fillWithNops (start stop : Ptr) (m : Mem Byte) : Except Failure (Mem Byte) :=
  if start ≠ nullptr ∧ start ≤ stop then
    return m.write start.toNat (List.replicate (stop.toNat - start.toNat) 0x90)
  else .error .fault

def finalizeSegments : List Nat → Heap → Cells → Except Failure (Heap × Cells)
  | [], heap, cells => return (heap, cells)
  | i :: rest, heap, cells => do
    let (hex, cells) ← (heap i).finalize heap cells
    finalizeSegments rest (Function.update heap i { heap i with hex := hex }) cells

/-- `memcpy`, from a buffer that is long enough to below the end of the address space. -/
def memcpy (dst : Ptr) (src : List Byte) (size : BitVec 64) (m : Mem Byte) :
    Except Failure (Mem Byte) :=
  if size.toNat ≤ src.length ∧ dst.toNat + size.toNat ≤ 2 ^ 64 then
    return m.write dst.toNat (src.take size.toNat)
  else .error .fault

def writeSegments (heap : Heap) : List Nat → Ptr → Mem Byte → Except Failure (Mem Byte)
  | [], _, m => return m
  | i :: rest, lastEnd, m => do
    ensure (lastEnd ≤ (heap i).pos) "last_end <= s->get_pos()"
    let m ← memcpy (heap i).pos (heap i).hex (heap i).getSize m
    writeSegments heap rest (heap i).pos m

/-- What `finalize` leaves: the shadow, the bytes in memory and the cells. -/
structure Finalized where
  shadow : Shadow
  mem : Mem Byte
  cells : Cells

/-- `finalize`, once all segments have a position. -/
def finish (s : Shadow) (mapped : Ptr) (m : Mem Byte) (cells : Cells) : Except Failure Finalized :=
  match s.segments with
  | [] => .error .fault
  | front :: rest => do
    let back := (front :: rest).getLast (List.cons_ne_nil _ _)
    let (ok, mem) ← (s.alignedMem front back).allocate mapped
    if ok = false then .error .abort
    let base ← mem.asPtr
    let heap := relocate base s.mask front rest s.heap
    let m ← fillWithNops (heap front).pos (heap back).getEnd m
    let (heap, cells) ← finalizeSegments s.segments heap cells
    let m ← writeSegments heap s.segments nullptr m
    return { shadow := { s with heap := heap, finalized := true }, mem := m, cells := cells }

/-- `finalize`, where `mmap` returns `mapped`. -/
def finalize (s : Shadow) (mapped : Ptr) (m : Mem Byte) (cells : Cells) :
    Except Failure Finalized := do
  ensure (s.finalized = false) "!m_finalized"
  ensure (s.entrySegment ≠ none) "add_entry must be called exactly once before finalize"
  (← s.placeAll).finish mapped m cells

/-! ## Access -/

def getAlignedPtr (s : Shadow) (unaligned : Ptr) : Except Failure Ptr := do
  ensure (s.finalized = true) "m_finalized"
  match s.segments.head?, s.segments.getLast?, s.entrySegment with
  | some front, some back, some entry =>
    let start := s.getPos front
    let stop := s.getEnd back
    let aligned ← Pointers.setMaskedBase unaligned (s.getPos entry) s.mask
    let aligned ← if aligned < start then Pointers.addOffset aligned (s.mask + 1) else pure aligned
    return if aligned < start ∨ stop < aligned then nullptr else aligned
  | _, _, _ => .error .fault

/-! ## Building -/

/-- A call that adds a segment. -/
inductive Call
  | addEntry
  | addSegment
  deriving DecidableEq, Repr

/-- The calls in a row, where the first adds segment `i` and each other one the next. -/
def addAll : List Call → Nat → Shadow → Except Failure Shadow
  | [], _, s => return s
  | .addEntry :: calls, i, s => do addAll calls (i + 1) (← s.addEntry i)
  | .addSegment :: calls, i, s => do addAll calls (i + 1) (← s.addSegment i)

/-- A shadow with the segments of a heap, in their order. -/
def build (alignBits : Nat) (heap : Heap) (calls : List Call) : Except Failure Shadow :=
  addAll calls 0 { heap := heap, alignBits := alignBits }

end Shadow

end BS.ShadowCode
