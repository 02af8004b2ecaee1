import BranchShadowing.Spec.Mitigation

/-!
# The iterations of the walk

What holds at the head of each iteration (`Head`) of the loop over the blocks: every
pending lane has an empty trampoline of its own (`LanesSound`), and each block of the
input is walked once, in layout order, and what is split off a block right after it
(`Visits`).
-/

namespace BS.BranchConversion

open X86

/-- The states at the head of an iteration, after so many of them; in the last no block
is left. -/
inductive Head (dummyInstr : Bool) (mf : MachineFunction) : Nat → PassState → Prop
  | start : Head dummyInstr mf 0 (start mf)
  | next {k : Nat} {st st' : PassState} : Head dummyInstr mf k st → st.after ≠ [] →
    runOnBlock dummyInstr st = .ok st' → Head dummyInstr mf (k + 1) st'

/-! ## Lanes -/

/-- A lane is live if it has a trampoline. -/
structure LanesSound (st : PassState) : Prop where
  distinct : (st.takenBlocks.filterMap BlockLane.currentMBB).Nodup
  empty : ∀ lane ∈ st.takenBlocks, ∀ z ∈ lane.currentMBB, st.instrs z = []
  pending : ∀ lane ∈ st.takenBlocks, lane.currentMBB.isSome → lane.taken = false →
    ∀ d ∈ lane.destMBB, d ∉ st.processedMBBs
  oneTaken : st.takenBlocks.countP BlockLane.taken ≤ 1

/-- The assertion on a lane that is to skip a block without a fake block. -/
def noFakeBlock : Failure := .assertion "assuming this will never happen for last block"

/-- The blocks before the entry, without the front block. -/
def trampolines (mf out : MachineFunction) : List Nat :=
  (out.layout.takeWhile fun b => mf.layout.head? != some b).tail

/-- A jump, and no branch before it. -/
def OneJump (is : List MachineInstr) : Prop :=
  ∃ pre d, is = pre ++ [jmp4 d] ∧ ∀ i ∈ pre, i.isBranch = false

/-- A function without empty blocks, off whose last block control does not fall behind a
conditional branch. -/
structure Contained (mf : MachineFunction) : Prop extends WellFormed mf where
  nonempty : ∀ c ∈ mf.layout, (mf.blocks c).instrs ≠ []
  last : ∀ c, mf.layout.getLast? = some c → ∀ i, (mf.blocks c).instrs.getLast? = some i →
    i.isConditionalBranch = false

/-- What the bookkeeping of the lanes is for. -/
structure LanesKept (dummyInstr : Bool) (mf : MachineFunction) : Prop where
  sound : ∀ k st, Head dummyInstr mf k st → LanesSound st
  skips : ∀ k st, Head dummyInstr mf k st → runOnBlock dummyInstr st ≠ .error noFakeBlock
  finished : ∀ k st, Head dummyInstr mf k st → st.after = [] →
    ∀ lane ∈ st.takenBlocks, lane.currentMBB = none
  closed : ∀ out, runOnMachineFunction dummyInstr mf = .ok out →
    ∀ z ∈ trampolines mf out, OneJump (out.blocks z).instrs

/-! ## Blocks -/

/-- A conditional branch with an unconditional one behind it. -/
def endsInTwoBranches (is : List MachineInstr) : Bool :=
  is.getLast?.any MachineInstr.isUnconditionalBranch &&
    is.dropLast.getLast?.any MachineInstr.isConditionalBranch

/-- The blocks that are split. -/
def splits (mf : MachineFunction) : Nat :=
  mf.layout.countP fun c => endsInTwoBranches (mf.blocks c).instrs

/-- Every direct branch has a block as operand. -/
def BlockOperands (mf : MachineFunction) : Prop :=
  ∀ c ∈ mf.layout, ∀ i ∈ (mf.blocks c).instrs, i.isBranch → i.isIndirectBranch = false →
    i.mbb?.isSome

instance (mf : MachineFunction) : Decidable (BlockOperands mf) :=
  inferInstanceAs (Decidable (∀ c ∈ mf.layout, ∀ i ∈ (mf.blocks c).instrs, _))

/-- The blocks walked are those of the input, each with what was split off it behind it.
The trampolines lie in front, and behind a block walked its fake block. -/
structure Visits (mf : MachineFunction) (fin : PassState) : Prop where
  order : ∃ splitOff : Nat → Option Nat,
    fin.processedMBBs = followedBy splitOff mf.layout ∧
      ∀ c ∈ mf.layout, (splitOff c).isSome = endsInTwoBranches (mf.blocks c).instrs ∧
        ∀ N ∈ splitOff c, mf.nextMBB ≤ N ∧ ∃ z, fin.instrs N = [lea targetRegOpcode z]
  once : fin.processedMBBs.Nodup
  others : ∃ (tr : List Nat) (fake : Nat → Option Nat),
    fin.before = tr ++ followedBy fake fin.processedMBBs ∧ (∀ z ∈ tr, z ∉ fin.processedMBBs) ∧
      ∀ c ∈ fin.processedMBBs, ∀ f ∈ fake c, fin.instrs f = [jmp64r] ∧ f ∉ fin.processedMBBs

/-- The walk ends after an iteration for each block and one for each that is split. -/
structure Walks (dummyInstr : Bool) (mf : MachineFunction) : Prop where
  iterations : ∀ k st, Head dummyInstr mf k st →
    k ≤ mf.layout.length + splits mf ∧ (st.after = [] ↔ k = mf.layout.length + splits mf)
  terminates : ∃ st, Head dummyInstr mf (mf.layout.length + splits mf) st
  visits : ∀ k st, Head dummyInstr mf k st → st.after = [] → Visits mf st

end BS.BranchConversion
