import BranchShadowing.Spec.Registers

/-!
# From one block of the input to the next

Where the pass has changed the end of a block, control goes on over inserted
instructions, fake blocks and trampolines until it lands in a block of the input.
The flags should be the same there as they were when the block was left
(`FlagsKept`), and from an empty block control should go on to the one behind it
(`EmptyKept`), and does not come back to it for ever (`EmptySpins`).
-/

namespace BS.BranchConversion

open X86

/-! ## The edges of the input that the pass replaces -/

/-- A branch at the end of block `b`, which the pass replaces, goes to `d`. -/
def ReplacedBranch (mf : MachineFunction) (b d : Nat) : Prop :=
  ∃ is, is <:+ (mf.blocks b).instrs ∧ atReplacedEnd is ∧ ∃ i ∈ is, i.mbb? = some d

/-- Control can run off the end of block `b` into `d`. -/
def FallsInto (mf : MachineFunction) (b d : Nat) : Prop :=
  mf.layoutSucc b = some d ∧ ∃ i, (mf.blocks b).instrs.getLast? = some i ∧
    (i.isConditionalBranch ∨ Ordinary i ∧ d ∈ (mf.blocks b).succs)

/-- Block `d` comes behind `b`, and a block of more than two instructions between them. -/
def LongBetween (mf : MachineFunction) (b d : Nat) : Prop :=
  ∃ pre mid post, mf.layout = pre ++ b :: (mid ++ d :: post) ∧
    ∃ e ∈ mid, 2 < (mf.blocks e).instrs.length

/-- A branch that the pass replaces goes forward to a block with instructions, over one
of more than two. -/
def SkipsLong (mf : MachineFunction) : Prop :=
  ∃ b d, ReplacedBranch mf b d ∧ (mf.blocks d).instrs ≠ [] ∧ LongBetween mf b d

/-! ## The way between the blocks -/

variable {σ : Type}

/-- What is seen: control landing in a block of `mf`, and the state there. -/
def landing (mf : MachineFunction) : Event σ → Option (Nat × State σ)
  | .enter b s => if b ∈ mf.layout then some (b, s) else none
  | .exec .. => none

/-- From what is left of block `b` once its own instructions have been executed, in
state `s`, control lands in these blocks one after the other. -/
def Lands (mf : MachineFunction) (Q : Program σ) (b : Nat) (s : State σ)
    (os : List (Nat × State σ)) : Prop :=
  insertedInstrs mf Q.mf b ≠ [] ∧
    Q.system.Emits (landing mf) (.run b (insertedInstrs mf Q.mf b) s) os

/-- Wherever control goes from a block that the pass has changed, the flags are the same
at the first instruction executed of a block of the input. -/
def FlagsKept (mf : MachineFunction) (Q : Program σ) : Prop :=
  ∀ b ∈ mf.layout, ∀ s os c s', Lands mf Q b s (os ++ [(c, s')]) →
    (∀ o ∈ os, (mf.blocks o.1).instrs = []) → (mf.blocks c).instrs ≠ [] → s'.eflags = s.eflags

/-- Whenever control lands in an empty block, it lands in the block behind it next. -/
def EmptyKept (mf : MachineFunction) (Q : Program σ) : Prop :=
  ∀ b ∈ mf.layout, ∀ s c s', Lands mf Q b s [(c, s')] → (mf.blocks c).instrs = [] →
    ∃ n s'', mf.layoutSucc c = some n ∧ Lands mf Q b s [(c, s'), (n, s'')]

/-- Whenever control lands in an empty block, R15 points to the trampoline that jumps there,
and it lands in that block again, in the same state, and so for ever, and in no other. -/
def EmptySpins (mf : MachineFunction) (Q : Program σ) : Prop :=
  ∀ b ∈ mf.layout, ∀ s c s', Lands mf Q b s [(c, s')] → (mf.blocks c).instrs = [] →
    (∃ z ∈ Q.mf.layout, z ∉ mf.layout ∧ jmp4 c ∈ Q.instrs z ∧ s'.gpr .r15 = Q.addr z) ∧
      ∀ os, Lands mf Q b s os ↔ ∃ k, os = List.replicate k (c, s')

end BS.BranchConversion
