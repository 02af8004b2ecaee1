import BranchShadowing.Impl.Shadow.BpuUtils
import BranchShadowing.Spec.Shadow
import BranchShadowing.Spec.X86.Machine

/-!
# What is executed

The bytes of a segment are to decode to what it stands for (`Finalized.Decodes`). The
slide is to execute each of its jumps once (`Visits`).
-/

namespace BS.ShadowCode

open Machine (Executed Instr)

namespace Shadow

/-! ## Segments -/

/-- What the content of a segment decodes to at its position: a jump goes to the position
of its target, and R13 or R14 gets a pointer to a cell with the position of the target. -/
def Decodes (heap : Heap) (cells : Cells) (seg : ShadowSegment) : Prop :=
  match seg.kind with
  | .jump t | .longJump t =>
    Machine.decode seg.pos seg.hex = some (.jmp (heap t).pos, seg.hex.length)
  | .jneEaxZero t =>
    Machine.decode seg.pos seg.hex = some (.testEaxEax, 2) ∧
      Machine.decode (seg.pos + 2) (seg.hex.drop 2) = some (.jne (heap t).pos, 2)
  | .setPosInReg target c register =>
    register = 13 ∨ register = 14 →
      Machine.decode seg.pos seg.hex = some (.movabs register.toNat (cells c).inner, 10) ∧
        ∀ t ∈ target, (cells c).value = (heap t).pos
  | _ => True

def Finalized.Decodes (f : Finalized) : Prop :=
  ∀ i ∈ f.shadow.segments, Shadow.Decodes f.shadow.heap f.cells (f.shadow.heap i)

/-- The number is one of `w` bits with a sign. -/
def Signed (w : Nat) (d : BitVec 64) : Prop := -2 ^ (w - 1) ≤ d.toInt ∧ d.toInt < 2 ^ (w - 1)
  deriving Decidable

/-- The target that a segment sets the cell to. -/
def cellTarget (heap : Heap) (c i : Nat) : Option Nat :=
  match (heap i).kind with
  | .setPosInReg target c' _ => if c' = c then target else none
  | _ => none

/-- The distance to the target is small enough, and of the segments that set the same cell
the last has its target at the same position. -/
def Encodable (s : Shadow) (seg : ShadowSegment) : Prop :=
  match seg.kind with
  | .jneEaxZero t => Signed 8 (s.getPos t - seg.getEnd)
  | .longJump t => Signed 32 (s.getPos t - seg.getEnd)
  | .setPosInReg (some t) c register =>
    register = 13 ∨ register = 14 →
      ∀ t' ∈ (s.segments.filterMap (cellTarget s.heap c)).getLast?, s.getPos t' = s.getPos t
  | _ => True

end Shadow

/-! ## The slide -/

namespace BpuUtils

/-- The slots of the jumps of `groups` groups. -/
def slots (entry : Ptr) (groups : Nat) : List Ptr :=
  (List.range (3 * groups)).map fun k => entry + BitVec.ofNat 64 (2 * k)

/-- A call of `entry` executes the jump in each of the slots once, then the return behind
them, and comes back. -/
def Visits (entry : Ptr) (groups : Nat) (m : Mem Byte) : Prop :=
  ∀ (s : Machine.State) (back : Ptr) (stack : List Ptr), s.rip = entry → s.mem = m →
    s.stack = back :: stack →
    ∃ n jumps, Machine.system.StepsIn n s
        (jumps ++ [⟨entry + BitVec.ofNat 64 (6 * groups), .ret, true, back⟩])
        { s with rip := back, stack := stack } ∧
      (jumps.map Executed.pos).Perm (slots entry groups) ∧ (jumps.map Executed.pos).Nodup ∧
      ∀ e ∈ jumps, ∃ t, e.instr = .jmp t

end BpuUtils

end BS.ShadowCode
