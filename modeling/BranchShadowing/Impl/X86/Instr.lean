import Mathlib.Init

/-!
# x86-64 machine instructions

The registers, opcodes and operands of the machine instructions that
`X86BranchConversion` reads or builds, with the instruction flags of the `.td`
files that it asks for (`MCInstrDesc`). Any other instruction is an
`Opcode.other` with the flags of its own description.
-/

namespace BS.X86

/-- The 64-bit general-purpose registers. -/
inductive GPR
  | rax | rcx | rdx | rbx | rsp | rbp | rsi | rdi
  | r8 | r9 | r10 | r11 | r12 | r13 | r14 | r15
  deriving DecidableEq, Repr

/-- Register names: the general-purpose registers and their parts, and the
others that `getReservedRegs` lists. -/
inductive Reg
  | noRegister
  | r64 (g : GPR)
  | r32 (g : GPR)
  | r16 (g : GPR)
  | r8 (g : GPR)
  /-- AH, CH, DH and BH. -/
  | r8h (g : GPR)
  | rip | eip | ip
  | eflags
  | ssp
  | cs | ds | ss | es | fs | gs
  | st (n : Nat)
  | xmm (n : Nat)
  | ymm (n : Nat)
  | zmm (n : Nat)
  deriving DecidableEq, Repr

namespace Reg

/-- The general-purpose register that a register is (a part of). -/
def super : Reg → Option GPR
  | r64 g | r32 g | r16 g | r8 g | r8h g => some g
  | _ => none

end Reg

/-- The sixteen condition codes of Jcc and CMOVcc. -/
inductive Cond
  | a | ae | b | be | e | g | ge | l | le | ne | no | np | ns | o | p | s
  deriving DecidableEq, Repr

/-- `X86::CondCode`: also the compound conditions that `analyzeBranch` makes. -/
inductive CondCode
  | std (c : Cond)
  | neOrP
  | eAndNp
  | invalid
  deriving DecidableEq, Repr

/-- The flags of an instruction's description, and for each operand the one it
is tied to (`-1` for none). -/
structure MCInstrDesc where
  isBranch : Bool := false
  isBarrier : Bool := false
  isIndirectBranch : Bool := false
  isReturn : Bool := false
  isCall : Bool := false
  isTerminator : Bool := false
  isDebugValue : Bool := false
  tiedTo : List Int := []
  deriving DecidableEq, Repr

inductive Opcode
  /-- JA_1, JAE_1, … JS_1. -/
  | jcc1 (cc : Cond)
  | jmp1
  | jmp4
  | jmp64r
  | jmp64m
  | retq
  | retiq
  | tailjmpd64
  | tailjmpr64
  | tailjmpm64
  | tailjmpd64cc
  | call64pcrel32
  | call64r
  | call64m
  | trap
  | lea64r
  /-- CMOVA64rr, CMOVAE64rr, … CMOVS64rr. -/
  | cmov64rr (cc : Cond)
  | add8ri
  | other (name : Nat) (desc : MCInstrDesc)
  deriving DecidableEq, Repr

/-- `TII->get(Opcode)`, from `X86InstrControl.td`, `X86InstrCMovSetCC.td`,
`X86InstrArithmetic.td` and `X86InstrSystem.td`. -/
def Opcode.desc : Opcode → MCInstrDesc
  | jcc1 _ => { isBranch := true, isTerminator := true, tiedTo := [-1] }
  | jmp1 | jmp4 => { isBarrier := true, isBranch := true, isTerminator := true, tiedTo := [-1] }
  | jmp64r =>
    { isBranch := true, isTerminator := true, isBarrier := true, isIndirectBranch := true,
      tiedTo := [-1] }
  | jmp64m =>
    { isBranch := true, isTerminator := true, isBarrier := true, isIndirectBranch := true,
      tiedTo := [-1, -1, -1, -1, -1] }
  | retq => { isTerminator := true, isReturn := true, isBarrier := true }
  | retiq => { isTerminator := true, isReturn := true, isBarrier := true, tiedTo := [-1] }
  | tailjmpd64 | tailjmpr64 =>
    { isCall := true, isTerminator := true, isReturn := true, isBarrier := true, tiedTo := [-1] }
  | tailjmpm64 =>
    { isCall := true, isTerminator := true, isReturn := true, isBarrier := true,
      tiedTo := [-1, -1, -1, -1, -1] }
  | tailjmpd64cc =>
    { isCall := true, isTerminator := true, isReturn := true, isBranch := true, tiedTo := [-1, -1] }
  | call64pcrel32 | call64r => { isCall := true, tiedTo := [-1] }
  | call64m => { isCall := true, tiedTo := [-1, -1, -1, -1, -1] }
  | trap => {}
  | lea64r => { tiedTo := [-1, -1, -1, -1, -1, -1] }
  | cmov64rr _ => { tiedTo := [-1, 0, -1] }
  | add8ri => { tiedTo := [-1, 0, -1] }
  | other _ desc => desc

/-- Operands. Blocks are known by number. -/
inductive MachineOperand
  | reg (r : Reg)
  | imm (i : Int)
  | mbb (b : Nat)
  /-- A global, an external symbol, a register mask, … -/
  | other (name : Nat)
  deriving DecidableEq, Repr

structure MachineInstr where
  opcode : Opcode
  operands : List MachineOperand
  deriving DecidableEq, Repr

namespace MachineOperand

def isReg : MachineOperand → Bool
  | reg _ => true
  | _ => false

end MachineOperand

namespace MachineInstr

def isBranch (i : MachineInstr) : Bool := i.opcode.desc.isBranch
def isBarrier (i : MachineInstr) : Bool := i.opcode.desc.isBarrier
def isIndirectBranch (i : MachineInstr) : Bool := i.opcode.desc.isIndirectBranch
def isReturn (i : MachineInstr) : Bool := i.opcode.desc.isReturn
def isCall (i : MachineInstr) : Bool := i.opcode.desc.isCall
def isTerminator (i : MachineInstr) : Bool := i.opcode.desc.isTerminator
def isDebugValue (i : MachineInstr) : Bool := i.opcode.desc.isDebugValue

def isConditionalBranch (i : MachineInstr) : Bool :=
  i.isBranch && !i.isBarrier && !i.isIndirectBranch

def isUnconditionalBranch (i : MachineInstr) : Bool :=
  i.isBranch && i.isBarrier && !i.isIndirectBranch

/-- No x86 instruction is predicable. -/
def isUnpredicatedTerminator (i : MachineInstr) : Bool := i.isTerminator

def getOperand (i : MachineInstr) (k : Nat) : Option MachineOperand := i.operands[k]?

/-- `getOperand(0).getMBB()`, of an instruction whose first operand is a block. -/
def mbb? (i : MachineInstr) : Option Nat :=
  match i.getOperand 0 with
  | some (.mbb b) => some b
  | _ => none

/-- Whether an operand names `g` or a part of it. -/
def mentions (i : MachineInstr) (g : GPR) : Bool :=
  i.operands.any fun
    | .reg r => r.super == some g
    | _ => false

end MachineInstr

/-- `X86::getCondFromBranchOpc`. -/
def getCondFromBranchOpc : Opcode → CondCode
  | .jcc1 cc => .std cc
  | _ => .invalid

/-- `X86::getCMovFromCond(CC, 8, false)`; `none` where its assertion fails. -/
def getCMovFromCond : CondCode → Option Opcode
  | .std cc => some (.cmov64rr cc)
  | _ => none

/-- `MCInstrDesc::getOperandConstraint(OpNum, TIED_TO)`. -/
def MCInstrDesc.getOperandConstraint (d : MCInstrDesc) (opNum : Nat) : Int :=
  d.tiedTo.getD opNum (-1)

def MCInstrDesc.getNumOperands (d : MCInstrDesc) : Nat := d.tiedTo.length

/-- `X86II::getOperandBias`: how many operands the object encoder skips, because
the next one is tied to them. -/
def getOperandBias (desc : MCInstrDesc) : Nat :=
  let numOps := desc.getNumOperands
  if 1 < numOps ∧ desc.getOperandConstraint 1 = 0 then 1
  else if 3 < numOps ∧ desc.getOperandConstraint 2 = 0 ∧ desc.getOperandConstraint 3 = 1 then 2
  else if 3 < numOps ∧ desc.getOperandConstraint 2 = 0 ∧
      desc.getOperandConstraint (numOps - 1) = 1 then 2
  else if 2 < numOps ∧ desc.getOperandConstraint (numOps - 2) = 0 then 1
  else 0

end BS.X86
