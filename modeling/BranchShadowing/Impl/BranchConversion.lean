import BranchShadowing.Impl.X86.Function
import Mathlib.Logic.Function.Basic

/-!
# X86BranchConversion

The pass of `X86BranchConversion.cpp`. It walks the blocks of a function in
layout order and lets control leave each only through R15: behind every block
it inserts a fake block `jmp *%r15`, and where the block branched it loads R15
with a trampoline block, which it puts at the front of the function. A
trampoline whose target comes later is a lane: each block it skips extends it
(`updateLanes`), until its target is reached.

The iterator `iMBB` is the border between `before` and `after`; a pointer to a
lane is its position in `takenBlocks`.
-/

namespace BS.BranchConversion

open X86

structure BlockLane where
  currentMBB : Option Nat
  destMBB : Option Nat
  taken : Bool
  deriving DecidableEq, Repr

/-- How the pass can stop: a failed assertion, or `llvm_unreachable`. The last
two are of the model: a function without blocks has no `front`, and `blockLoop`
runs on fuel. -/
inductive Failure
  | assertion (msg : String)
  | unreachable (msg : String)
  | emptyFunction
  | outOfFuel
  deriving DecidableEq, Repr

def targetRegOpcode : GPR := .r15
def tmpReg : GPR := .r13
def tmpReg8 : Reg := .r8 .r13

/-! ## The instructions it builds -/

def jmp4 (b : Nat) : MachineInstr := ⟨.jmp4, [.mbb b]⟩

def jmp64r : MachineInstr := ⟨.jmp64r, [.reg (.r64 targetRegOpcode)]⟩

/-- `lea b(%rip), d`. -/
def lea (d : GPR) (b : Nat) : MachineInstr :=
  ⟨.lea64r, [.reg (.r64 d), .reg .rip, .imm 0, .reg .noRegister, .mbb b, .reg .noRegister]⟩

def cmov (opcode : Opcode) : MachineInstr :=
  ⟨opcode, [.reg (.r64 .r11), .reg (.r64 targetRegOpcode), .reg (.r64 tmpReg)]⟩

def dummyAdd : MachineInstr := ⟨.add8ri, [.reg tmpReg8, .reg tmpReg8, .imm 0]⟩

/-! ## The state of the walk -/

structure PassState where
  /-- The blocks before `iMBB`, in layout order. -/
  before : List Nat
  /-- The blocks from `iMBB` on. -/
  after : List Nat
  blocks : Nat → MachineBasicBlock
  nextMBB : Nat
  takenBlocks : List BlockLane
  processedMBBs : List Nat

namespace PassState

variable (st : PassState)

def mf : MachineFunction := ⟨st.before ++ st.after, st.blocks, st.nextMBB⟩

def instrs (b : Nat) : List MachineInstr := (st.blocks b).instrs

def setInstrs (b : Nat) (is : List MachineInstr) : PassState :=
  { st with blocks := Function.update st.blocks b { st.blocks b with instrs := is } }

/-- `BuildMI` at the end of a block. -/
def buildMI (b : Nat) (i : MachineInstr) : PassState := st.setInstrs b (st.instrs b ++ [i])

/-- `BuildMI` before the last instruction of a block. -/
def buildMIBefore (b : Nat) (i : MachineInstr) : PassState :=
  st.setInstrs b ((st.instrs b).dropLast ++ i :: (st.instrs b).getLast?.toList)

/-- `eraseFromParent` of the last instruction of a block. -/
def eraseLast (b : Nat) : PassState := st.setInstrs b (st.instrs b).dropLast

def addSuccessor (b succ : Nat) : PassState :=
  { st with
    blocks := Function.update st.blocks b
      { st.blocks b with succs := (st.blocks b).succs ++ [succ] } }

/-- `MF.CreateMachineBasicBlock`: a new block, in no place of the layout yet. -/
def createMachineBasicBlock : Nat × PassState :=
  (st.nextMBB,
    { st with blocks := Function.update st.blocks st.nextMBB {}, nextMBB := st.nextMBB + 1 })

/-- `MF.insert(iMBB, b)`. -/
def insert (b : Nat) : PassState := { st with before := st.before ++ [b] }

/-- `MF.insert(iMBB, b)` and `iMBB--`: `b` is the next block to be walked. -/
def insertNext (b : Nat) : PassState := { st with after := b :: st.after }

/-- `MF.push_front(b)`. -/
def pushFront (b : Nat) : PassState := { st with before := b :: st.before }

/-- `takenBlocks->push_back`. -/
def pushLane (lane : BlockLane) : PassState :=
  { st with takenBlocks := st.takenBlocks ++ [lane] }

/-- `updateLane`. -/
def updateLane (lane : Nat) (a b : Option Nat) (c : Bool) : PassState :=
  { st with takenBlocks := st.takenBlocks.set lane ⟨a, b, c⟩ }

/-- `CreateNewBBonTrampoline`. -/
def createNewBBonTrampoline (mbb : Nat) (destOnCode : Option Nat) : Nat × PassState :=
  let (newBlock, st) := st.createMachineBasicBlock
  let st := st.pushFront newBlock
  let st := match destOnCode with
    | some dest => (st.buildMI newBlock (jmp4 dest)).addSuccessor newBlock dest
    | none => st
  (newBlock, st.addSuccessor mbb newBlock)

/-- `addDummyInstructions`: one for each instruction of the block skipped, less
two. -/
def addDummyInstructions (realBlock trampolineBlock : Nat) : PassState :=
  st.setInstrs trampolineBlock
    (st.instrs trampolineBlock ++ List.replicate ((st.instrs realBlock).length - 2) dummyAdd)

end PassState

open PassState

/-! ## Lanes -/

/-- The lane loop of `runOnMachineFunction`, over the lanes left; those kept are
in `takenBlocks`, and `takenLane` is the first that leads to the block. -/
def updateLanes (dummyInstr : Bool) (mbb : Nat) (fakeBlock : Option Nat) :
    List BlockLane → PassState → Option Nat → Except Failure (PassState × Option Nat)
  | [], st, takenLane => .ok (st, takenLane)
  | lane :: rest, st, takenLane =>
    if lane.taken ∨ lane.destMBB = some mbb then
      let st := match lane.currentMBB with
        | some z => (st.buildMI z (jmp4 mbb)).addSuccessor z mbb
        | none => st
      match takenLane with
      | none => updateLanes dummyInstr mbb fakeBlock rest (st.pushLane lane)
          (some st.takenBlocks.length)
      | some k => updateLanes dummyInstr mbb fakeBlock rest st (some k)
    else
      match lane.currentMBB with
      | some z =>
        match fakeBlock with
        | none => .error (.assertion "assuming this will never happen for last block")
        | some f =>
          let (nextZBlock, st) := st.createNewBBonTrampoline mbb none
          let st := if dummyInstr then st.addDummyInstructions mbb z else st
          let st := st.buildMI z (lea targetRegOpcode nextZBlock)
          let st := (st.buildMI z (jmp4 f)).addSuccessor z f
          updateLanes dummyInstr mbb fakeBlock rest
            (st.pushLane { lane with currentMBB := some nextZBlock }) takenLane
      | none => updateLanes dummyInstr mbb fakeBlock rest st takenLane

/-! ## The kinds of block

Each routine is given the state after the lane loop, the block (whose last
instruction is the one to replace) and the lane that leads to it. -/

def replaceNoBranchBlock (st : PassState) (mbb : Nat) (fallThrough : Option Nat)
    (takenLane : Nat) : PassState :=
  match fallThrough with
  | some _ =>
    let (zbN_p1, st) := st.createNewBBonTrampoline mbb none
    (st.updateLane takenLane (some zbN_p1) none true).buildMI mbb (lea targetRegOpcode zbN_p1)
  | none => st.updateLane takenLane none none false

def replaceIndirectJump (st : PassState) (mi : MachineInstr) (takenLane : Nat) :
    Except Failure PassState :=
  if (mi.getOperand 0).any MachineOperand.isReg then
    .ok (st.updateLane takenLane none none false)
  else .error (.assertion "support for non register operands is unimplemented")

def replaceUnconditionalJump (st : PassState) (mbb : Nat) (mi : MachineInstr)
    (takenLane : Nat) : Except Failure PassState :=
  match mi.mbb? with
  | none => .error (.assertion "support for non MBB operands is unimplemented")
  | some dstMBB =>
    let (zbN_p1, st) :=
      if dstMBB ∈ st.processedMBBs then
        let (zbN_p1, st) := st.createNewBBonTrampoline mbb (some dstMBB)
        (zbN_p1, st.updateLane takenLane none none false)
      else
        let (zbN_p1, st) := st.createNewBBonTrampoline mbb none
        (zbN_p1, st.updateLane takenLane (some zbN_p1) (some dstMBB) false)
    .ok ((st.buildMIBefore mbb (lea targetRegOpcode zbN_p1)).eraseLast mbb)

def getCorrespondingMovOpcode (mi : MachineInstr) : Option Opcode :=
  getCMovFromCond (getCondFromBranchOpc mi.opcode)

def replaceConditionalBranch (st : PassState) (mbb : Nat) (mi : MachineInstr)
    (takenLane : Nat) : Except Failure PassState :=
  match mi.mbb? with
  | none => .error (.unreachable "non MBB operands not supported")
  | some dstMBB =>
    match getCorrespondingMovOpcode mi with
    | none => .error (.assertion "Can only handle standard cond codes")
    | some cmovOpcode =>
      let (zbN_p1_F, st) := st.createNewBBonTrampoline mbb none
      let (zbN_p1, st) :=
        if dstMBB ∈ st.processedMBBs then st.createNewBBonTrampoline mbb (some dstMBB)
        else
          let (zbN_p1, st) := st.createNewBBonTrampoline mbb none
          (zbN_p1, st.pushLane ⟨some zbN_p1, some dstMBB, false⟩)
      let st := st.buildMIBefore mbb (lea targetRegOpcode zbN_p1_F)
      let st := st.buildMIBefore mbb (lea tmpReg zbN_p1)
      let st := st.buildMIBefore mbb (cmov cmovOpcode)
      let st := st.eraseLast mbb
      .ok (st.updateLane takenLane (some zbN_p1_F) none true)

/-- Moves the final jump of a je+jmp block to a block of its own, the next to be
walked. -/
def splitJump (st : PassState) (mbb : Nat) (pos : MachineInstr) : Except Failure PassState :=
  match pos.mbb? with
  | none => .error (.assertion "Wrong MachineOperand accessor")
  | some dst =>
    let (newBlock, st) := st.createMachineBasicBlock
    let st := (st.insertNext newBlock).buildMI newBlock ⟨pos.opcode, [.mbb dst]⟩
    .ok ((st.addSuccessor mbb newBlock).eraseLast mbb)

/-- The dispatch on the last instruction of the block. -/
def replaceTerminator (st : PassState) (mbb : Nat) (originalFallThrough : Option Nat)
    (takenLane : Nat) : Except Failure PassState :=
  match (st.instrs mbb).getLast? with
  | none => .ok st
  | some pos =>
    if pos.isUnconditionalBranch then
      match (st.instrs mbb).dropLast.getLast? with
      | some jcc =>
        if jcc.isConditionalBranch then do
          let st ← splitJump st mbb pos
          replaceConditionalBranch st mbb jcc takenLane
        else replaceUnconditionalJump st mbb pos takenLane
      | none => replaceUnconditionalJump st mbb pos takenLane
    else if pos.isIndirectBranch then replaceIndirectJump st pos takenLane
    else if pos.isConditionalBranch then replaceConditionalBranch st mbb pos takenLane
    else if originalFallThrough.isSome ∨ pos.isReturn ∨ pos.isCall then
      .ok (replaceNoBranchBlock st mbb originalFallThrough takenLane)
    else .error (.assertion "either we have a fallthrough, or we return")

/-! ## The walk -/

/-- `++iMBB`, and the block marked as processed. -/
def advance (st : PassState) (mbb : Nat) (rest : List Nat) : PassState :=
  { st with
    before := st.before ++ [mbb], after := rest, processedMBBs := st.processedMBBs ++ [mbb] }

/-- The jump block behind the block, which only a last block that returns can do
without. -/
def insertFakeBlock (st : PassState) (mbb : Nat) : Option Nat × PassState :=
  if st.after.isEmpty && (st.blocks mbb).isReturnBlock then (none, st)
  else
    let (fakeBlock, st) := st.createMachineBasicBlock
    (some fakeBlock, (st.insert fakeBlock).buildMI fakeBlock jmp64r)

/-- The lane that leads to the block, or a new one. -/
def takeLane (st : PassState) : Option Nat → Nat × PassState
  | some k => (k, st)
  | none => (st.takenBlocks.length, st.pushLane ⟨none, none, true⟩)

/-- One iteration of the loop. -/
def runOnBlock (dummyInstr : Bool) (st : PassState) : Except Failure PassState :=
  match st.after with
  | [] => .ok st
  | mbb :: rest => do
    let st := advance st mbb rest
    let originalFallThrough := st.mf.getFallThrough mbb
    let (fakeBlock, st) := insertFakeBlock st mbb
    let (st, takenLane) ←
      updateLanes dummyInstr mbb fakeBlock st.takenBlocks { st with takenBlocks := [] } none
    let (takenLane, st) := takeLane st takenLane
    replaceTerminator st mbb originalFallThrough takenLane

def blockLoop (dummyInstr : Bool) : Nat → PassState → Except Failure PassState
  | 0, st => if st.after = [] then .ok st else .error .outOfFuel
  | n + 1, st =>
    if st.after = [] then .ok st
    else do
      let st ← runOnBlock dummyInstr st
      blockLoop dummyInstr n st

/-- The state before the walk, with the default startup lane. -/
def start (mf : MachineFunction) : PassState where
  before := []
  after := mf.layout
  blocks := mf.blocks
  nextMBB := mf.nextMBB
  takenBlocks := [⟨none, none, true⟩]
  processedMBBs := []

/-- The front block, which jumps over the trampolines to the entry. -/
def addFrontBlock (st : PassState) (entry : Nat) : PassState :=
  let (newBlock, st) := st.createMachineBasicBlock
  ((st.pushFront newBlock).buildMI newBlock (jmp4 entry)).addSuccessor newBlock entry

/-- A block is walked once, and once more in its split-off half. -/
def runOnMachineFunction (dummyInstr : Bool) (mf : MachineFunction) :
    Except Failure MachineFunction :=
  match mf.layout with
  | [] => .error .emptyFunction
  | entry :: _ => do
    let st ← blockLoop dummyInstr (2 * mf.layout.length) (start mf)
    return (addFrontBlock st entry).mf

end BS.BranchConversion
