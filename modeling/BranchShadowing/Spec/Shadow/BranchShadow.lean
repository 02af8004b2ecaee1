import BranchShadowing.Impl.Shadow.BranchShadow
import BranchShadowing.Spec.Shadow.Execution

/-!
# What the three shadows are for

Called with an input, a shadow is to return what its builder intends, and to execute one
branch at an alias of the victim's on the way (`Executes`).
-/

namespace BS.ShadowCode

open Machine (Executed branches)

namespace BranchShadow

inductive Builder
  | jne
  | jmp
  | jmpRev
  deriving DecidableEq, Repr

/-- What a shadow returns. -/
def Builder.retval (input : BitVec 32) : Builder → BitVec 32
  | jne => if input.toNat % 2 = 1 then 2 else 1
  | jmp => 2
  | jmpRev => 1

def setup (b : BranchShadow) : Builder → Ptr → Mem Byte → Cells → Except Failure Setup
  | .jne => b.setupJneShadow
  | .jmp => b.setupJmpShadow
  | .jmpRev => b.setupJmpShadowRev

/-- The machine is at the entry of the shadow, which lies in its memory. In the indirect
mode so do the words of the cells; otherwise the input is in EAX. -/
structure Called (b : BranchShadow) (input : BitVec 32) (r : Setup) (s : Machine.State) : Prop where
  rip : s.rip = r.entry
  code : r.finalized.Loaded s.mem
  direct : b.useIndirectTargets = false → s.eax = input
  indirect : b.useIndirectTargets → ∀ c ∈ [b.indirectShadowInput, b.indirectTargetPtr],
    Machine.Holds s.mem (r.finalized.cells c).inner (toLE 8 (r.finalized.cells c).value.toNat)

/-- Of the branch instructions executed exactly one lies at an alias of the source, and it
goes, if it jumps, to an alias of the destination. -/
def OneShadowed (src dst : Ptr) (bs : List Executed) : Prop :=
  ∃ e, bs.filter (fun e => Aliases BpuUtils.lbrEntryBits e.pos src) = [e] ∧
    (e.taken → Aliases BpuUtils.lbrEntryBits e.goes dst)

/-- A call comes to a return, with `retval` in EAX. -/
def Executes (b : BranchShadow) (input : BitVec 32) (r : Setup) (retval : BitVec 32) : Prop :=
  ∀ (s : Machine.State) (back : Ptr) (stack : List Ptr), b.Called input r s →
    s.stack = back :: stack →
    Machine.Runs s fun bs s' => s'.eax = retval ∧ s'.stack = back :: stack ∧
      Machine.step s' = some ([⟨s'.rip, .ret, true, back⟩], { s' with rip := back, stack := stack }) ∧
      OneShadowed b.src b.dst (bs ++ [⟨s'.rip, .ret, true, back⟩])

/-- No segment overlaps another. -/
def Disjoint (r : Setup) : Prop :=
  ∀ i ∈ r.finalized.shadow.segments, ∀ j ∈ r.finalized.shadow.segments, i ≠ j →
    ¬ r.finalized.shadow.Overlap i j

instance (r : Setup) : Decidable (Disjoint r) :=
  inferInstanceAs (Decidable (∀ i ∈ r.finalized.shadow.segments,
    ∀ j ∈ r.finalized.shadow.segments, i ≠ j → ¬ r.finalized.shadow.Overlap i j))

/-- Every displacement of one byte is representable. -/
def ShortDisplacements (r : Setup) : Prop :=
  ∀ i ∈ r.finalized.shadow.segments, ∀ t, (r.finalized.shadow.heap i).kind = .jneEaxZero t ∨
    (r.finalized.shadow.heap i).kind = .jump t →
      Shadow.Signed 8 (r.finalized.shadow.getPos t - r.finalized.shadow.getEnd i)

/-- The position of the jne segment is not the null pointer, and neither of the two other
branches that the reversed shadow executes lies at an alias of the source: in the other
shadows the segments cannot be that far apart. -/
def Separate (b : BranchShadow) : Builder → Prop
  | .jne => b.src ≠ SegJneEaxZero.jneOffset
  | .jmp => True
  | .jmpRev => b.useIndirectTargets → b.forward →
    ¬ Aliases BpuUtils.lbrEntryBits (b.dst + 7) b.src ∧
      ¬ Aliases BpuUtils.lbrEntryBits (b.dst + 148) b.src

end BranchShadow

end BS.ShadowCode
