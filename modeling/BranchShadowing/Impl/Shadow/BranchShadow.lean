import BranchShadowing.Impl.Shadow.BpuUtils

/-!
# The three shadows

`setup_jne_shadow`, `setup_jmp_shadow` and `setup_jmp_shadow_rev` of `BranchShadow`,
each with a forward and a backward layout. The segments of a layout are numbered in the
order in which they are added. Logging and flushing are left out.
-/

namespace BS.ShadowCode

open Shadow (Call Finalized)

/-- The members that the shadows are made from. The two cells are numbers. -/
structure BranchShadow where
  src : Ptr
  dst : Ptr
  useIndirectTargets : Bool
  indirectShadowInput : Nat
  indirectTargetPtr : Nat
  deriving DecidableEq, Repr

namespace BranchShadow

/-- `prepare_attack`, where `malloc` returns `inputInner` and `targetInner` for the words of
the two cells. -/
def prepareAttack (src dst : Ptr) (shadowInput : BitVec 32) (useIndirectTargets : Bool)
    (inputInner targetInner : Ptr) : Except Failure (BranchShadow × Cells) := do
  ensure (src ≠ nullptr) "src != nullptr"
  ensure (dst ≠ nullptr) "dst != nullptr"
  return (⟨src, dst, useIndirectTargets, 0, 1⟩,
    fun c => if c = 0 then ⟨inputInner, shadowInput.signExtend 64⟩ else ⟨targetInner, 0⟩)

/-- A segment that is made, at a position or at the null pointer, and added. -/
structure Added where
  call : Call
  kind : SegKind
  pos : Ptr
  deriving DecidableEq, Repr

/-- What setting up a shadow leaves. -/
structure Setup where
  entry : Ptr
  shadowSrc : Ptr
  finalized : Finalized

/-- The segments that are made. -/
def make : List Added → Except Failure (List ShadowSegment)
  | [] => return []
  | a :: rest => do
    let segment ← a.kind.make a.pos
    return segment :: (← make rest)

/-- `get_entry_ptr`. -/
def getEntryPtr (s : Shadow) : Except Failure Ptr :=
  match s.entrySegment with
  | none => .error .fault
  | some entry => return s.getPos entry

/-- The segments made, added in a row and finalized. -/
def construct (layout : List Added) (mapped : Ptr) (m : Mem Byte) (cells : Cells) :
    Except Failure Finalized := do
  let segments ← make layout
  let s ← Shadow.build BpuUtils.lbrEntryBits (fun i => segments.getD i (SegKind.nop 0).makeLoose)
    (layout.map Added.call)
  s.finalize mapped m cells

variable (b : BranchShadow)

def forward : Prop := b.src < b.dst

instance : Decidable b.forward := inferInstanceAs (Decidable (b.src < b.dst))

/-! ## The jmp shadow -/

/-- The segments at the entry and at the source, with jump target `t`. -/
def jmpEntry (t : Nat) : SegKind :=
  if b.useIndirectTargets then .setPosInReg (some t) b.indirectTargetPtr 13 else .nop 1

def jmpSrc (t : Nat) : SegKind := if b.useIndirectTargets then .jumpR13 else .jump t

def jmpForward : List Added :=
  let elseSeg := 4
  let endIfSeg := 6
  let endElseSeg := 7
  [⟨.addEntry, b.jmpEntry elseSeg, nullptr⟩, ⟨.addSegment, b.jmpSrc elseSeg, b.src⟩,
    ⟨.addSegment, .eaxWrite 1, nullptr⟩, ⟨.addSegment, .longJump endIfSeg, nullptr⟩,
    ⟨.addSegment, .eaxWrite 2, b.dst⟩, ⟨.addSegment, .longJump endElseSeg, nullptr⟩,
    ⟨.addSegment, .retq 120, nullptr⟩, ⟨.addSegment, .retq 120, nullptr⟩]

def jmpBackward : List Added :=
  let elseSeg := 2
  let endIfSeg := 6
  let endElseSeg := 7
  [⟨.addSegment, .eaxWrite 1, nullptr⟩, ⟨.addSegment, .longJump endIfSeg, nullptr⟩,
    ⟨.addSegment, .eaxWrite 2, b.dst⟩, ⟨.addSegment, .longJump endElseSeg, nullptr⟩,
    ⟨.addEntry, b.jmpEntry elseSeg, nullptr⟩, ⟨.addSegment, b.jmpSrc elseSeg, b.src⟩,
    ⟨.addSegment, .retq 120, nullptr⟩, ⟨.addSegment, .retq 120, nullptr⟩]

/-! ## The reversed jmp shadow -/

def jmpRevForward : List Added :=
  let ifSeg := 2
  let endIfSeg := 6
  let endElseSeg := 7
  [⟨.addEntry, b.jmpEntry ifSeg, nullptr⟩, ⟨.addSegment, b.jmpSrc ifSeg, b.src⟩,
    ⟨.addSegment, .eaxWrite 1, b.dst⟩, ⟨.addSegment, .longJump endIfSeg, nullptr⟩,
    ⟨.addSegment, .eaxWrite 2, nullptr⟩, ⟨.addSegment, .longJump endElseSeg, nullptr⟩,
    ⟨.addSegment, .retq 120, nullptr⟩, ⟨.addSegment, .retq 120, nullptr⟩]

def jmpRevBackward : List Added :=
  let ifSeg := 0
  let endIfSeg := 6
  let endElseSeg := 7
  [⟨.addSegment, .eaxWrite 1, b.dst⟩, ⟨.addSegment, .longJump endIfSeg, nullptr⟩,
    ⟨.addSegment, .eaxWrite 2, nullptr⟩, ⟨.addSegment, .longJump endElseSeg, nullptr⟩,
    ⟨.addEntry, b.jmpEntry ifSeg, nullptr⟩, ⟨.addSegment, b.jmpSrc ifSeg, b.src⟩,
    ⟨.addSegment, .retq 120, nullptr⟩, ⟨.addSegment, .retq 120, nullptr⟩]

/-! ## The jne shadow -/

def jneEntry : SegKind :=
  if b.useIndirectTargets then .setPosInReg none b.indirectShadowInput 14 else .nop 1

def jnePretest : SegKind := if b.useIndirectTargets then .eaxAndOneIndir else .eaxAndOne

def jneForward : List Added :=
  let srcSeg := 3
  let elseSeg := 6
  let endIfSeg := 8
  let endElseSeg := 9
  [⟨.addEntry, b.jneEntry, nullptr⟩, ⟨.addSegment, b.jnePretest, nullptr⟩,
    ⟨.addSegment, .longJump srcSeg, nullptr⟩, ⟨.addSegment, .jneEaxZero elseSeg, b.src⟩,
    ⟨.addSegment, .eaxWrite 1, nullptr⟩, ⟨.addSegment, .jump endIfSeg, nullptr⟩,
    ⟨.addSegment, .eaxWrite 2, b.dst⟩, ⟨.addSegment, .jump endElseSeg, nullptr⟩,
    ⟨.addSegment, .retq 120, nullptr⟩, ⟨.addSegment, .retq 120, nullptr⟩]

def jneBackward : List Added :=
  let ifSeg := 3
  let elseSeg := 5
  let srcSeg := 7
  let endIfSeg := 9
  let endElseSeg := 10
  [⟨.addEntry, b.jneEntry, nullptr⟩, ⟨.addSegment, b.jnePretest, nullptr⟩,
    ⟨.addSegment, .longJump srcSeg, nullptr⟩, ⟨.addSegment, .eaxWrite 1, nullptr⟩,
    ⟨.addSegment, .longJump endIfSeg, nullptr⟩, ⟨.addSegment, .eaxWrite 2, b.dst⟩,
    ⟨.addSegment, .longJump endElseSeg, nullptr⟩, ⟨.addSegment, .jneEaxZero elseSeg, b.src⟩,
    ⟨.addSegment, .jump ifSeg, nullptr⟩, ⟨.addSegment, .retq 120, nullptr⟩,
    ⟨.addSegment, .retq 120, nullptr⟩]

/-! ## Setting up -/

variable (mapped : Ptr) (m : Mem Byte) (cells : Cells)

def setupJmpShadow : Except Failure Setup := do
  let f ← construct (if b.forward then b.jmpForward else b.jmpBackward) mapped m cells
  let srcSeg := if b.forward then 1 else 5
  return ⟨← getEntryPtr f.shadow, f.shadow.getPos srcSeg, f⟩

def setupJmpShadowRev : Except Failure Setup := do
  let f ← construct (if b.forward then b.jmpRevForward else b.jmpRevBackward) mapped m cells
  let srcSeg := if b.forward then 1 else 5
  return ⟨← getEntryPtr f.shadow, f.shadow.getPos srcSeg, f⟩

def setupJneShadow : Except Failure Setup := do
  let f ← construct (if b.forward then b.jneForward else b.jneBackward) mapped m cells
  let srcSeg := if b.forward then 3 else 7
  let shadowSrc ← Pointers.addOffset (f.shadow.getPos srcSeg) SegJneEaxZero.jneOffset
  return ⟨← getEntryPtr f.shadow, shadowSrc, f⟩

end BranchShadow

end BS.ShadowCode
