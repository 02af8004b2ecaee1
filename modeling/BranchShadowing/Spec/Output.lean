import BranchShadowing.Spec.BranchConversion

/-!
# What the conversion puts out

The output without its dummies (`eraseDummies`), which is to be that of the plain
conversion, and the control flow graph: what is asked of it (`CfgSound`), and that no
jump doubles as a return (`JumpsOnly`).
-/

namespace BS.BranchConversion

open X86

/-- The instructions of block `b` without dummies, if it is one of the conversion's own:
those have the numbers from `n` on, up to `m`. -/
def withoutDummies (n m b : Nat) (is : List MachineInstr) : List MachineInstr :=
  if n ≤ b ∧ b < m then is.filter (· ≠ dummyAdd) else is

def eraseDummies (n : Nat) (mf : MachineFunction) : MachineFunction :=
  { mf with blocks := fun b =>
      { mf.blocks b with instrs := withoutDummies n mf.nextMBB b (mf.blocks b).instrs } }

/-! ## The control flow graph -/

/-- A function whose instructions name only blocks of it, and whose branches go to
successors. -/
structure CfgSound (mf : MachineFunction) : Prop extends WellFormed mf where
  operands : ∀ c ∈ mf.layout, ∀ i ∈ (mf.blocks c).instrs, ∀ d, .mbb d ∈ i.operands → d ∈ mf.layout
  linked : ∀ c ∈ mf.layout, ∀ i ∈ (mf.blocks c).instrs, i.isBranch → ∀ d ∈ i.mbb?,
    d ∈ (mf.blocks c).succs

/-- A jump that does not come back is no return. -/
def JumpsOnly (mf : MachineFunction) : Prop :=
  ∀ c ∈ mf.layout, ∀ i ∈ (mf.blocks c).instrs, i.isUnconditionalBranch → i.isReturn = false

end BS.BranchConversion
