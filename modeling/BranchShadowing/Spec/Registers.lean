import BranchShadowing.Impl.X86.RegisterInfo
import BranchShadowing.Spec.BranchConversion

/-!
# The registers of the conversion

Which registers the inserted instructions write (`ClobbersOnly`), whether assembly
text and object code mean the same ones (`ReadAlike`), and what a function does to
those that it must leave alone: the ones that the allocator may hold values in
(`KeepsUnreserved`), and the callee-saved ones (`Restores`).
-/

namespace BS.BranchConversion

open X86

/-! ## What the inserted instructions write -/

/-- The part of a list from where it differs from another. -/
def dropCommon {α : Type*} [DecidableEq α] : List α → List α → List α
  | x :: xs, y :: ys => if x = y then dropCommon xs ys else y :: ys
  | _, ys => ys

/-- The instructions of block `b` that the pass inserted: all of a new block, and in
a block of the input those from where it was changed. -/
def insertedInstrs (mf out : MachineFunction) (b : Nat) : List MachineInstr :=
  if b ∈ mf.layout then dropCommon (mf.blocks b).instrs (out.blocks b).instrs
  else (out.blocks b).instrs

/-- The registers that an instruction built by the pass writes, as the object encoder
encodes it. -/
def encodedDefs (i : MachineInstr) : List Reg :=
  let dest := match Reading.object.destOperand i with
    | some (.reg r) => [r]
    | _ => []
  match i.opcode with
  | .lea64r | .cmov64rr _ => dest
  | .add8ri => dest ++ [.eflags]
  | _ => []

/-- Whatever the pass inserted writes only registers in `R`. -/
def ClobbersOnly (R : List Reg) (mf out : MachineFunction) : Prop :=
  ∀ b ∈ out.layout, ∀ i ∈ insertedInstrs mf out b, ∀ r ∈ encodedDefs i, r ∈ R

/-! ## Tied operands -/

/-- Assembly text and object code agree on the destination of an instruction. -/
def Tied (i : MachineInstr) : Prop := Reading.asm.destOperand i = Reading.object.destOperand i

instance (i : MachineInstr) : Decidable (Tied i) :=
  inferInstanceAs (Decidable (Reading.asm.destOperand i = Reading.object.destOperand i))

/-- Which blocks a run executes. -/
def entered {σ : Type} : Event σ → Option Nat
  | .enter b _ => some b
  | .exec .. => none

/-- Assembly text and object code of the output are the same program: its inserted
instructions have one destination, and both execute the same blocks. -/
structure ReadAlike (mf out : MachineFunction) : Prop where
  tied : ∀ b ∈ out.layout, ∀ i ∈ insertedInstrs mf out b, Tied i
  blocks : ∀ (σ : Type) (T : Target σ) (addr : Nat → BitVec 64) (s : State σ) os,
    (Program.system ⟨out, T, addr, .asm⟩).Emits entered (.start s) os ↔
      (Program.system ⟨out, T, addr, .object⟩).Emits entered (.start s) os

/-! ## The registers that must be kept -/

/-- The input uses no part of the two registers reserved for the conversion. -/
def RespectsReserved (mf : MachineFunction) : Prop :=
  ∀ c ∈ mf.layout, ∀ i ∈ (mf.blocks c).instrs, i.mentions .r13 = false ∧ i.mentions .r14 = false

/-- Block `b` of the input is empty, and `b'` is right behind it in the output. -/
def EmptyBefore (mf out : MachineFunction) (b b' : Nat) : Prop :=
  b ∈ mf.layout ∧ (mf.blocks b).instrs = [] ∧ out.layoutSucc b = some b'

instance (mf out : MachineFunction) (b b' : Nat) : Decidable (EmptyBefore mf out b b') :=
  inferInstanceAs (Decidable (_ ∧ _ ∧ _))

/-- The blocks of the output are at different addresses, but for an empty one, which may
have the address of the block behind it. -/
def Apart (mf out : MachineFunction) (addr : Nat → BitVec 64) : Prop :=
  ∀ b ∈ out.layout, ∀ b' ∈ out.layout, addr b = addr b' →
    b = b' ∨ EmptyBefore mf out b b' ∨ EmptyBefore mf out b' b

instance (mf out : MachineFunction) (addr : Nat → BitVec 64) : Decidable (Apart mf out addr) :=
  inferInstanceAs (Decidable (∀ b ∈ out.layout, ∀ b' ∈ out.layout, _))

variable {σ : Type}

/-- What is seen of the registers where control enters a block of `mf`: those not in
`R`, and the flags and the rest. -/
def unreserved (R : List Reg) (mf : MachineFunction) :
    Event σ → Option (Nat × (GPR → Option (BitVec 64)) × EFlags × σ)
  | .enter b s =>
    if b ∈ mf.layout then
      some (b, fun g => if .r64 g ∈ R then none else some (s.gpr g), s.eflags, s.rest)
    else none
  | .exec .. => none

/-- In the runs of input and output the blocks of the input are entered in the same
order, each time with the same values in the registers not in `R`. -/
def KeepsUnreserved (R : List Reg) (mf out : MachineFunction) : Prop :=
  RespectsReserved mf →
    ∀ (σ : Type) (T : Target σ) (addr : Nat → BitVec 64) (s : State σ),
      Apart mf out addr → SuccsExact ⟨mf, T, addr, .object⟩ s →
      ∀ os, (Program.system ⟨mf, T, addr, .object⟩).Emits (unreserved R mf) (.start s) os ↔
        (Program.system ⟨out, T, addr, .object⟩).Emits (unreserved R mf) (.start s) os

/-- Wherever the run from `s` returns, the callee-saved registers hold what they held
on entry. -/
def Restores (P : Program σ) (s : State σ) : Prop :=
  ∀ n es b o s', P.system.StepsIn n (.start s) es (.done b o s') → o = .ret ∨ o = .tailCall →
    ∀ g ∈ csr64, s'.gpr g = s.gpr g

/-! ## Where the pass changes a block -/

/-- The pass inserts nothing at the end of block `c`: it has no instructions, or ends in no
direct branch and does not fall through. -/
def KeepsEnd (mf : MachineFunction) (c : Nat) : Prop :=
  ∀ i, (mf.blocks c).instrs.getLast? = some i →
    i.isUnconditionalBranch = false ∧ i.isConditionalBranch = false ∧
      (i.isIndirectBranch ∨ mf.getFallThrough c = none)

/-- Where a run of the input comes to the end of a block, R15 holds the address of the next
one, to which the fake block behind an empty block jumps. -/
def FallsToR15 (mf out : MachineFunction) : Prop :=
  RespectsReserved mf →
    ∀ (σ : Type) (T : Target σ) (addr : Nat → BitVec 64) (s : State σ),
      Apart mf out addr → SuccsExact ⟨mf, T, addr, .object⟩ s →
      ∀ n es c s' d,
        (Program.system ⟨mf, T, addr, .object⟩).StepsIn n (.start s) es (.run c [] s') →
        mf.layoutSucc c = some d → s'.gpr .r15 = addr d

/-- The instructions left of a block are none, or the branch, the jump or both that
the pass replaces. -/
def atReplacedEnd : List MachineInstr → Bool
  | [] => true
  | [i] => i.isConditionalBranch || i.isUnconditionalBranch
  | [i, j] => i.isConditionalBranch && j.isUnconditionalBranch
  | _ => false

/-- The run from `s` never comes to an end of a block that the pass replaces. -/
def AvoidsReplaced (P : Program σ) (s : State σ) : Prop :=
  ∀ n es b is s', P.system.StepsIn n (.start s) es (.run b is s') → atReplacedEnd is = false

end BS.BranchConversion
