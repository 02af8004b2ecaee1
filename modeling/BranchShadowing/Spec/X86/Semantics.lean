import BranchShadowing.Framework.Trace
import BranchShadowing.Impl.X86.Function
import Mathlib.Logic.Function.Basic

/-!
# What a machine function does

A machine function runs block by block (`Program.system`): from the first
instruction of a block on, until an instruction jumps or leaves the function,
or the block ends and control falls into the next one in the layout.

The branches, and the instructions that the conversion inserts, have their
meaning here (`Program.exec`); that of all others is a parameter (`Target`).
Blocks are placed anywhere in memory (`Program.addr`), which is what LEA and
indirect jumps see of them. A two-address instruction whose tied operands
differ means one thing in assembly text and another in object code
(`Reading`).
-/

namespace BS.X86

/-- The status flags. -/
structure EFlags where
  cf : Bool
  pf : Bool
  af : Bool
  zf : Bool
  sf : Bool
  of : Bool
  deriving DecidableEq, Repr

/-- Whether Jcc jumps and CMOVcc moves. -/
def Cond.holds (f : EFlags) : Cond → Bool
  | a => !f.cf && !f.zf
  | ae => !f.cf
  | b => f.cf
  | be => f.cf || f.zf
  | e => f.zf
  | g => !f.zf && f.sf == f.of
  | ge => f.sf == f.of
  | l => f.sf != f.of
  | le => f.zf || f.sf != f.of
  | ne => !f.zf
  | no => !f.of
  | np => !f.pf
  | ns => !f.sf
  | o => f.of
  | p => f.pf
  | s => f.sf

/-- The general-purpose registers, the status flags, and the rest: memory and
all other registers. -/
structure State (σ : Type) where
  gpr : GPR → BitVec 64
  eflags : EFlags
  rest : σ

namespace State

variable {σ : Type} (s : State σ)

def setReg (g : GPR) (v : BitVec 64) : State σ := { s with gpr := Function.update s.gpr g v }

/-- The state with R13 and R15 hidden. -/
def hide : State σ := (s.setReg .r13 0).setReg .r15 0

/-- ADD of an immediate to an 8-bit register: its 64-bit register, and the
flags. -/
def add8 (g : GPR) (i : BitVec 8) : State σ :=
  let x := (s.gpr g).setWidth 8
  let r := x + i
  { s.setReg g ((s.gpr g &&& ~~~0xff#64) ||| r.setWidth 64) with
    eflags :=
      { cf := BitVec.uaddOverflow x i
        pf := (List.range 8).foldl (fun b k => b != r.getLsbD k) true
        af := (x ^^^ i ^^^ r).getLsbD 4
        zf := r == 0
        sf := r.msb
        of := BitVec.saddOverflow x i } }

@[simp] theorem setReg_gpr (g g' : GPR) (v : BitVec 64) :
    (s.setReg g v).gpr g' = if g' = g then v else s.gpr g' := by
  simp [setReg, Function.update_apply]

@[simp] theorem setReg_eflags (g : GPR) (v : BitVec 64) : (s.setReg g v).eflags = s.eflags := rfl
@[simp] theorem setReg_rest (g : GPR) (v : BitVec 64) : (s.setReg g v).rest = s.rest := rfl

end State

/-- The instructions whose meaning the conversion does not depend on: the state
after one, `none` where control never comes back to the next one (a trap, a
fault, a callee that does not return); and where a jump through memory goes. -/
structure Target (σ : Type) where
  exec : MachineInstr → State σ → Option (State σ)
  jumpTarget : MachineInstr → State σ → BitVec 64

/-- How a two-address instruction is read: as the assembly printer prints it,
or as the object encoder encodes it. -/
inductive Reading
  | asm | object
  deriving DecidableEq, Repr

/-- The operand that is the destination. -/
def Reading.destOperand (rd : Reading) (i : MachineInstr) : Option MachineOperand :=
  match rd with
  | .asm => i.getOperand 0
  | .object => i.getOperand (getOperandBias i.opcode.desc)

/-- How control leaves a function for good. -/
inductive Exit
  | ret
  | tailCall
  /-- Control does not come back from the instruction. -/
  | gone
  /-- A jump to an address where the function has no block. -/
  | jump (w : BitVec 64)
  /-- A direct jump to something that is not a block. -/
  | symbol
  /-- Past the last block. -/
  | fellOff
  deriving DecidableEq, Repr

inductive Next (σ : Type)
  | next (s : State σ)
  | goto (b : Nat) (s : State σ)
  | exit (o : Exit) (s : State σ)

/-- A function placed in memory. -/
structure Program (σ : Type) where
  mf : MachineFunction
  target : Target σ
  addr : Nat → BitVec 64
  reading : Reading

/-- Where control is: before the function, at instructions `is` of block `b`,
or out of the function, which it left in block `b`. -/
inductive Cfg (σ : Type)
  | start (s : State σ)
  | run (b : Nat) (is : List MachineInstr) (s : State σ)
  | done (b : Nat) (o : Exit) (s : State σ)

/-- What can be seen of a run: control entering a block, and an instruction of
a block executed, each in the state before. -/
inductive Event (σ : Type)
  | enter (b : Nat) (s : State σ)
  | exec (b : Nat) (i : MachineInstr) (s : State σ)

namespace Program

variable {σ : Type} (P : Program σ)

def instrs (b : Nat) : List MachineInstr := (P.mf.blocks b).instrs

/-- An instruction of `Target`. -/
def execOther (i : MachineInstr) (s : State σ) : Next σ :=
  match P.target.exec i s with
  | some s' => .next s'
  | none => .exit .gone s

/-- A jump to an address. -/
def jumpTo (w : BitVec 64) (s : State σ) : Next σ :=
  match P.mf.layout.find? (fun b => P.addr b == w) with
  | some b => .goto b s
  | none => .exit (.jump w) s

def exec (i : MachineInstr) (s : State σ) : Next σ :=
  match i.opcode with
  | .jcc1 cc =>
    match i.mbb? with
    | some b => if cc.holds s.eflags then .goto b s else .next s
    | none => if cc.holds s.eflags then .exit .symbol s else .next s
  | .jmp1 | .jmp4 =>
    match i.mbb? with
    | some b => .goto b s
    | none => .exit .symbol s
  | .jmp64r =>
    match i.getOperand 0 with
    | some (.reg (.r64 g)) => P.jumpTo (s.gpr g) s
    | _ => P.execOther i s
  | .jmp64m => P.jumpTo (P.target.jumpTarget i s) s
  | .retq | .retiq => .exit .ret s
  | .tailjmpd64 | .tailjmpr64 | .tailjmpm64 => .exit .tailCall s
  | .lea64r =>
    match i.operands with
    | [.reg (.r64 d), .reg .rip, .imm _, .reg .noRegister, .mbb b, .reg .noRegister] =>
      .next (s.setReg d (P.addr b))
    | _ => P.execOther i s
  | .cmov64rr cc =>
    match P.reading.destOperand i, i.getOperand 2 with
    | some (.reg (.r64 d)), some (.reg (.r64 src)) =>
      .next (if cc.holds s.eflags then s.setReg d (s.gpr src) else s)
    | _, _ => P.execOther i s
  | .add8ri =>
    match P.reading.destOperand i, i.getOperand 2 with
    | some (.reg (.r8 d)), some (.imm n) => .next (s.add8 d (BitVec.ofInt 8 n))
    | _, _ => P.execOther i s
  | _ => P.execOther i s

def step : Cfg σ → Option (List (Event σ) × Cfg σ)
  | .start s =>
    match P.mf.layout with
    | [] => none
    | b :: _ => some ([.enter b s], .run b (P.instrs b) s)
  | .run b [] s =>
    match P.mf.layoutSucc b with
    | some c => some ([.enter c s], .run c (P.instrs c) s)
    | none => some ([], .done b .fellOff s)
  | .run b (i :: is) s =>
    match P.exec i s with
    | .next s' => some ([.exec b i s], .run b is s')
    | .goto c s' => some ([.exec b i s, .enter c s'], .run c (P.instrs c) s')
    | .exit o s' => some ([.exec b i s], .done b o s')
  | .done .. => none

/-- The runs of a function. -/
def system : System (Cfg σ) (Event σ) := ⟨P.step⟩

end Program

end BS.X86
