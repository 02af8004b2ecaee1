import BranchShadowing.Framework.Layout
import BranchShadowing.Impl.X86.Instr

/-!
# Machine functions

A machine function is a list of blocks in layout order. A block is its
instructions and its list of successors, which is kept beside them: the
conversion reads it (`getFallThrough`) and extends it.
-/

namespace BS.X86

structure MachineBasicBlock where
  instrs : List MachineInstr := []
  succs : List Nat := []
  isEHPad : Bool := false
  deriving DecidableEq, Repr

/-- The blocks of a function, in layout order, and the number that the next
block created gets. -/
structure MachineFunction where
  layout : List Nat
  blocks : Nat → MachineBasicBlock
  nextMBB : Nat

/-- `MachineBasicBlock::isReturnBlock`. -/
def MachineBasicBlock.isReturnBlock (b : MachineBasicBlock) : Bool :=
  b.instrs.getLast?.any MachineInstr.isReturn

namespace MachineFunction

variable (mf : MachineFunction)

/-- The block after `b` in the layout. -/
def layoutSucc (b : Nat) : Option Nat := nextOf mf.layout b

/-- `getFallThroughMBB` of `X86InstrInfo.cpp`, from a position in the successor
list and the fall-through block found before it. -/
def getFallThroughMBB (TBB : Option Nat) : List Nat → Option Nat → Option Nat
  | [], fallthroughBB => fallthroughBB
  | si :: rest, fallthroughBB =>
    if (mf.blocks si).isEHPad || (some si == TBB && fallthroughBB.isSome) then
      getFallThroughMBB TBB rest fallthroughBB
    else if fallthroughBB.isSome && fallthroughBB != TBB then none
    else getFallThroughMBB TBB rest (some si)

end MachineFunction

/-- What `analyzeBranch` finds: the target of the branch, its false target, and
the condition (empty or one condition). -/
structure BranchAnalysis where
  TBB : Option Nat := none
  FBB : Option Nat := none
  Cond : List CondCode := []

namespace MachineFunction

variable (mf : MachineFunction)

/-- The loop of `X86InstrInfo::AnalyzeBranchImpl` (with `AllowModify` false) over
the instructions of `mbb` from the last on; `none` where it gives up. -/
def analyzeBranchImpl (mbb : Nat) : List MachineInstr → BranchAnalysis → Option BranchAnalysis
  | [], a => some a
  | i :: rest, a =>
    if i.isDebugValue then analyzeBranchImpl mbb rest a
    else if !i.isUnpredicatedTerminator then some a
    else if !i.isBranch then none
    else if i.opcode = .jmp1 then analyzeBranchImpl mbb rest { a with TBB := i.mbb? }
    else
      let branchCode := getCondFromBranchOpc i.opcode
      if branchCode = .invalid then none
      else match a.Cond with
        | [] => analyzeBranchImpl mbb rest ⟨i.mbb?, a.TBB, [branchCode]⟩
        | oldBranchCode :: _ =>
          let newTBB := i.mbb?
          if oldBranchCode = branchCode ∧ a.TBB = newTBB then analyzeBranchImpl mbb rest a
          else if a.TBB = newTBB ∧ ((oldBranchCode = .std .p ∧ branchCode = .std .ne) ∨
              (oldBranchCode = .std .ne ∧ branchCode = .std .p)) then
            analyzeBranchImpl mbb rest { a with Cond := [.neOrP] }
          else if (oldBranchCode = .std .np ∧ branchCode = .std .ne) ∨
              (oldBranchCode = .std .e ∧ branchCode = .std .p) then
            if newTBB ≠ (if a.FBB.isSome then a.FBB
                else mf.getFallThroughMBB a.TBB (mf.blocks mbb).succs none) then none
            else analyzeBranchImpl mbb rest { a with Cond := [.eAndNp] }
          else none

/-- `X86InstrInfo::analyzeBranch`. -/
def analyzeBranch (mbb : Nat) : Option BranchAnalysis :=
  mf.analyzeBranchImpl mbb (mf.blocks mbb).instrs.reverse {}

/-- `MachineBasicBlock::getFallThrough`. -/
def getFallThrough (mbb : Nat) : Option Nat :=
  match mf.layoutSucc mbb with
  | none => none
  | some fallthrough =>
    if fallthrough ∉ (mf.blocks mbb).succs then none
    else match mf.analyzeBranch mbb with
      | none =>
        -- the last instruction decides: no barrier, then fall-through is possible
        if (mf.blocks mbb).instrs.getLast?.any MachineInstr.isBarrier then none else some fallthrough
      | some a =>
        if a.TBB = none then some fallthrough
        else if a.TBB = some fallthrough ∨ a.FBB = some fallthrough then some fallthrough
        else if a.Cond = [] then none
        else if a.FBB = none then some fallthrough
        else none

end MachineFunction

end BS.X86
