import BranchShadowing.Spec.BranchConversion

/-!
# What the conversion is for

A branch of the output can be shadowed only if it is a direct branch of the
original code: `Complete` says that none is left, and that control leaves the
code over the fake blocks. What can be shadowed of a run is then the sequence of
jumps from the fake blocks, which goes through them in their order (`Shielded`).
-/

namespace BS.BranchConversion

open X86

/-- The direct branches of a block stand at its end: conditional branches, and
perhaps a jump behind them, all with a block as operand. -/
def DirectBranches (mf : MachineFunction) : Prop :=
  ∀ c ∈ mf.layout, ∃ (pre jccs : List MachineInstr) (jmp : Option MachineInstr),
    (mf.blocks c).instrs = pre ++ jccs ++ jmp.toList ∧
    (∀ i ∈ pre, i.isConditionalBranch = false ∧ i.isUnconditionalBranch = false) ∧
    (∀ i ∈ jccs, (∃ cc, i.opcode = .jcc1 cc) ∧ ∃ d, i.mbb? = some d) ∧
    ∀ i ∈ jmp, i.opcode = .jmp1 ∧ ∃ d, i.mbb? = some d

/-- The blocks of the output from the entry on: those of the input, those split off
them, and a fake block behind each. -/
def codeBlocks (mf out : MachineFunction) : List Nat :=
  out.layout.dropWhile fun b => mf.layout.head? != some b

/-- Control leaves block `b` only by an indirect jump that it has in the input, or
over a fake block behind it, which only a last block that returns is without. -/
structure LeavesOverFake (mf out : MachineFunction) (b : Nat) : Prop where
  branch : ∀ i ∈ (out.blocks b).instrs, i.isBranch →
    i.isIndirectBranch ∧ b ∈ mf.layout ∧ i ∈ (mf.blocks b).instrs
  fake : (∃ f, out.layoutSucc b = some f ∧ f ∉ mf.layout ∧ (out.blocks f).instrs = [jmp64r]) ∨
    out.layoutSucc b = none ∧ (out.blocks b).isReturnBlock

/-- The output has no conditional branch, and control leaves the original blocks and
those split off, which have no direct jump, over fake blocks. -/
structure Complete (mf out : MachineFunction) : Prop where
  conditional : ∀ b ∈ out.layout, ∀ i ∈ (out.blocks b).instrs, i.isConditionalBranch = false
  original : ∀ b ∈ mf.layout, LeavesOverFake mf out b
  splitOff : ∀ b ∈ codeBlocks mf out, b ∉ mf.layout →
    (out.blocks b).instrs = [jmp64r] ∨ LeavesOverFake mf out b

/-! ## Runs over the fake blocks -/

def isFakeBlock (mf out : MachineFunction) (b : Nat) : Bool :=
  decide (b ∉ mf.layout) && decide ((out.blocks b).instrs = [jmp64r])

/-- The fake blocks, in layout order. -/
def fakeBlocks (mf out : MachineFunction) : List Nat :=
  (codeBlocks mf out).filter (isFakeBlock mf out)

/-- The original blocks and those split off them, in layout order. -/
def bodyBlocks (mf out : MachineFunction) : List Nat :=
  (codeBlocks mf out).filter fun b => !isFakeBlock mf out b

/-- All original blocks are laid out, the `i`-th body before the `i`-th fake block and
that before the next body. -/
structure Interleaved (mf out : MachineFunction) : Prop where
  original : mf.layout ⊆ bodyBlocks mf out
  before : ∀ (i f : Nat), (fakeBlocks mf out)[i]? = some f →
    ∃ c, (bodyBlocks mf out)[i]? = some c ∧ out.layoutSucc c = some f
  behind : ∀ (i f : Nat), (fakeBlocks mf out)[i]? = some f →
    out.layoutSucc f = (bodyBlocks mf out)[i + 1]?

/-- What is followed of a run: control landing in a body, and the jump of a fake
block. -/
inductive Mark
  | land (i : Nat)
  | fake (i : Nat)
  deriving DecidableEq, Repr

def watch {σ : Type} (mf out : MachineFunction) : Event σ → Option Mark
  | .enter b _ => ((bodyBlocks mf out).idxOf? b).map .land
  | .exec b _ _ => ((fakeBlocks mf out).idxOf? b).map .fake

/-- From a fake block control goes over the next one, with the body between them
executed or skipped, or back into a body already passed; from a body it goes over the
fake block behind it. -/
def Mark.Leads : Mark → Mark → Prop
  | .fake i, .fake j => j = i + 1
  | .fake i, .land j => j ≤ i + 1
  | .land i, .fake j => j = i
  | .land _, .land _ => False

/-- The jumps of the fake blocks. -/
def fakeJumps (ms : List Mark) : List Nat :=
  ms.filterMap fun
    | .fake i => some i
    | .land _ => none

/-- The backward jumps: over which fake block, and into which body. -/
def backwardJumps : List Mark → List (Nat × Nat)
  | .fake i :: .land j :: ms =>
    if j ≤ i then (i, j) :: backwardJumps (.land j :: ms) else backwardJumps (.land j :: ms)
  | _ :: ms => backwardJumps ms
  | [] => []

/-- Where and how a run has left the function. -/
def leftAt {σ : Type} : Cfg σ → Option (Nat × Exit)
  | .done b o _ => some (b, o)
  | _ => none

/-- Every run of the output goes over the fake blocks in their order, but for backward
jumps, until it leaves the function in a body. So two runs with the same backward jumps
that leave in the same block execute the same fake jumps. -/
structure Shielded {σ : Type} (mf out : MachineFunction) (M : System (Cfg σ) (Event σ)) : Prop where
  chain : ∀ s ms, M.Emits (watch mf out) (.start s) ms →
    ms.IsChain Mark.Leads ∧ ∀ m ∈ ms.head?, m = .land 0
  goesOn : ∀ s k, (∃ ms, M.Emits (watch mf out) (.start s) ms ∧ ms.length = k) ∨
    ∃ ms o, M.Ends (watch mf out) leftAt (.start s) ms o
  leaves : ∀ s ms o, M.Ends (watch mf out) leftAt (.start s) ms o →
    ∃ (i b : Nat) (e : Exit), ms.getLast? = some (.land i) ∧ (bodyBlocks mf out)[i]? = some b ∧
      o = some (b, e) ∧ (e = .ret ∨ e = .tailCall ∨ e = .gone)
  alike : ∀ s₁ s₂ ms₁ ms₂ b e₁ e₂,
    M.Ends (watch mf out) leftAt (.start s₁) ms₁ (some (b, e₁)) →
    M.Ends (watch mf out) leftAt (.start s₂) ms₂ (some (b, e₂)) →
    backwardJumps ms₁ = backwardJumps ms₂ → fakeJumps ms₁ = fakeJumps ms₂

/-- A call at the end of a block that has not the next one as its successor does not
come back. -/
def CallsLeave {σ : Type} (mf : MachineFunction) (T : Target σ) : Prop :=
  ∀ c ∈ mf.layout, ∀ i, (mf.blocks c).instrs.getLast? = some i → i.isCall →
    (∀ n, mf.layoutSucc c = some n → n ∉ (mf.blocks c).succs) → ∀ s, T.exec i s = none

end BS.BranchConversion
