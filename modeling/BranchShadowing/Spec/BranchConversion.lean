import BranchShadowing.Impl.BranchConversion
import BranchShadowing.Spec.X86.Semantics

/-!
# What the conversion is given, and what it keeps

The functions that the back end hands to the conversion: how their blocks end
(`BlockShape`), and that their successor lists are exact (`SuccsExact`). What is
seen of a run (`observe`, `outcome`) leaves out the conversion's own blocks and
instructions, and the two registers that it takes for itself.
-/

namespace BS.BranchConversion

open X86

/-- An instruction that leaves control to the next one. -/
structure Ordinary (i : MachineInstr) : Prop where
  isBranch : i.isBranch = false
  isIndirectBranch : i.isIndirectBranch = false
  isTerminator : i.isTerminator = false
  isReturn : i.isReturn = false

/-- A conditional branch to a block of the function. -/
def IsJcc (mf : MachineFunction) (i : MachineInstr) : Prop :=
  (∃ cc, i.opcode = .jcc1 cc) ∧ ∃ d ∈ mf.layout, i.mbb? = some d

/-- A jump to a block of the function. -/
def IsJmp (mf : MachineFunction) (i : MachineInstr) : Prop :=
  i.opcode = .jmp1 ∧ ∃ d ∈ mf.layout, i.mbb? = some d

/-- JMP64r, or JMP64m with its base register. -/
def IsIndirectJump (i : MachineInstr) : Prop :=
  i.opcode = .jmp64r ∧ (∃ g, i.getOperand 0 = some (.reg (.r64 g))) ∨
    i.opcode = .jmp64m ∧ (i.getOperand 0).any MachineOperand.isReg

/-- A return, or a tail call. -/
def IsReturn (i : MachineInstr) : Prop :=
  i.opcode ∈ [.retq, .retiq, .tailjmpd64, .tailjmpr64, .tailjmpm64]

/-- How a block ends: in branches, perhaps with a jump behind them; in an indirect
jump, a return, or a call without successors; or it falls through. -/
inductive BlockShape (mf : MachineFunction) (c : Nat) : Prop
  | branches (pre jccs : List MachineInstr) (jmp : Option MachineInstr) :
    (mf.blocks c).instrs = pre ++ jccs ++ jmp.toList → (∀ i ∈ pre, Ordinary i) →
    (∀ i ∈ jccs, IsJcc mf i) → (∀ i ∈ jmp, IsJmp mf i) →
    (jmp = none → jccs ≠ [] ∧ (mf.layoutSucc c).isSome) → BlockShape mf c
  | indirect (pre : List MachineInstr) (i : MachineInstr) :
    (mf.blocks c).instrs = pre ++ [i] → (∀ j ∈ pre, Ordinary j) → IsIndirectJump i →
    BlockShape mf c
  | ret (pre : List MachineInstr) (i : MachineInstr) :
    (mf.blocks c).instrs = pre ++ [i] → (∀ j ∈ pre, Ordinary j) → IsReturn i → BlockShape mf c
  | noReturn (pre : List MachineInstr) (i : MachineInstr) :
    (mf.blocks c).instrs = pre ++ [i] → (∀ j ∈ pre, Ordinary j) → Ordinary i → i.isCall →
    (∀ n, mf.layoutSucc c = some n → n ∉ (mf.blocks c).succs) → BlockShape mf c
  | fall (n : Nat) :
    (∀ i ∈ (mf.blocks c).instrs, Ordinary i) →
    mf.layoutSucc c = some n → n ∈ (mf.blocks c).succs → BlockShape mf c

/-- A function: its blocks are different ones, it has an entry, and the branches and
successors of its blocks are blocks of it. -/
structure WellFormed (mf : MachineFunction) : Prop where
  nodup : mf.layout.Nodup
  fresh : ∀ b ∈ mf.layout, b < mf.nextMBB
  entry : mf.layout ≠ []
  targets : ∀ c ∈ mf.layout, ∀ i ∈ (mf.blocks c).instrs, ∀ d ∈ i.mbb?, d ∈ mf.layout
  succs : ∀ c ∈ mf.layout, ∀ d ∈ (mf.blocks c).succs, d ∈ mf.layout

/-- A function whose blocks all end in one of the ways above. -/
structure Emitted (mf : MachineFunction) : Prop extends WellFormed mf where
  shape : ∀ c ∈ mf.layout, BlockShape mf c

/-- Such a function without empty blocks. -/
structure Convertible (mf : MachineFunction) : Prop extends Emitted mf where
  nonempty : ∀ c ∈ mf.layout, (mf.blocks c).instrs ≠ []

/-- A conditional tail call: a branch and a return, to something that is not a block. -/
def IsCondTailCall (i : MachineInstr) : Prop := i.opcode = .tailjmpd64cc ∧ i.mbb? = none

/-- A block ends in a trap that control does not come back from. -/
def EndsInTrap (mf : MachineFunction) (c : Nat) : Prop :=
  ∃ i, (mf.blocks c).instrs.getLast? = some i ∧ i.opcode = .trap ∧
    ∀ n, mf.layoutSucc c = some n → n ∉ (mf.blocks c).succs

/-- All the ways in which code generation may leave the end of a block: those above, a
conditional tail call, perhaps with a jump behind it, and a trap. -/
inductive BackEndShape (mf : MachineFunction) (c : Nat) : Prop
  | shape : BlockShape mf c → BackEndShape mf c
  | condTail (pre : List MachineInstr) (i : MachineInstr) (jmp : Option MachineInstr) :
    (mf.blocks c).instrs = pre ++ i :: jmp.toList → (∀ j ∈ pre, Ordinary j) → IsCondTailCall i →
    (∀ j ∈ jmp, IsJmp mf j) → (jmp = none → (mf.layoutSucc c).isSome) → BackEndShape mf c
  | trap (pre : List MachineInstr) (i : MachineInstr) :
    (mf.blocks c).instrs = pre ++ [i] → (∀ j ∈ pre, Ordinary j) → EndsInTrap mf c →
    BackEndShape mf c

/-- A function without empty blocks whose blocks all end in one of these ways. -/
structure BackEnd (mf : MachineFunction) : Prop extends WellFormed mf where
  shape : ∀ c ∈ mf.layout, BackEndShape mf c
  nonempty : ∀ c ∈ mf.layout, (mf.blocks c).instrs ≠ []

/-- No instruction names R13 or R15, or a part of them. -/
def ScratchFree (mf : MachineFunction) : Prop :=
  ∀ c ∈ mf.layout, ∀ i ∈ (mf.blocks c).instrs, i.mentions .r13 = false ∧ i.mentions .r15 = false

instance (mf : MachineFunction) : Decidable (ScratchFree mf) :=
  inferInstanceAs (Decidable (∀ c ∈ mf.layout, ∀ i ∈ (mf.blocks c).instrs, _))

variable {σ : Type}

/-- An instruction that does not name R13 and R15 depends on neither. -/
structure IgnoresScratch (T : Target σ) : Prop where
  exec : ∀ i s s', i.mentions .r13 = false → i.mentions .r15 = false → s.hide = s'.hide →
    (T.exec i s).map State.hide = (T.exec i s').map State.hide
  jumpTarget : ∀ i s s', i.mentions .r13 = false → i.mentions .r15 = false → s.hide = s'.hide →
    T.jumpTarget i s = T.jumpTarget i s'

/-- In the run from `s`, control goes from a block only to its successors, and
leaves the function only by a return, a tail call, or for good. -/
def SuccsExact (P : Program σ) (s : State σ) : Prop :=
  ∀ n es b is s₁, P.system.StepsIn n (.start s) es (.run b is s₁) →
    ∀ ev t, P.system.step (.run b is s₁) = some (ev, t) →
      (∀ c s₂, .enter c s₂ ∈ ev → c ∈ (P.mf.blocks b).succs) ∧
        ∀ b' o s₂, t = .done b' o s₂ → o = .ret ∨ o = .tailCall ∨ o = .gone

/-- Whether `i` can be an instruction of the input: no branch, and of neither
register of the conversion. -/
def isKept (i : MachineInstr) : Bool := !i.isBranch && !i.mentions .r13 && !i.mentions .r15

/-- What is seen: control entering a block of `mf`, and the instructions there
that are kept, each with the state but for R13 and R15. -/
def observe (mf : MachineFunction) : Event σ → Option (Event σ)
  | .enter b s => if b ∈ mf.layout then some (.enter b s.hide) else none
  | .exec b i s => if b ∈ mf.layout ∧ isKept i then some (.exec b i s.hide) else none

/-- How and where a run has ended, with the state but for R13 and R15. -/
def outcome : Cfg σ → Option (Nat × Exit × State σ)
  | .done b o s => some (b, o, s.hide)
  | _ => none

end BS.BranchConversion
