import BranchShadowing.Impl.BranchConversion

/-!
# The operations of the walk, field by field

What each operation on the state of the walk does to the layout, to the lanes
and to the instructions of a block. `withTrampoline` and `withBlock` are the
states that `createNewBBonTrampoline` and `createMachineBasicBlock` return.
-/

namespace BS.BranchConversion

open X86 PassState

namespace PassState

variable (st : PassState)

@[simp] theorem setInstrs_before (b : Nat) (is) : (st.setInstrs b is).before = st.before := rfl
@[simp] theorem setInstrs_after (b : Nat) (is) : (st.setInstrs b is).after = st.after := rfl
@[simp] theorem setInstrs_nextMBB (b : Nat) (is) : (st.setInstrs b is).nextMBB = st.nextMBB := rfl
@[simp] theorem setInstrs_takenBlocks (b : Nat) (is) :
    (st.setInstrs b is).takenBlocks = st.takenBlocks := rfl
@[simp] theorem setInstrs_processedMBBs (b : Nat) (is) :
    (st.setInstrs b is).processedMBBs = st.processedMBBs := rfl

@[simp] theorem setInstrs_instrs (b b' : Nat) (is : List MachineInstr) :
    (st.setInstrs b is).instrs b' = if b' = b then is else st.instrs b' := by
  simp only [instrs, setInstrs, Function.update_apply]
  split <;> rfl

theorem setInstrs_blocks {b b' : Nat} (is : List MachineInstr) (h : b' ≠ b) :
    (st.setInstrs b is).blocks b' = st.blocks b' := by
  simp [setInstrs, h]

@[simp] theorem addSuccessor_before (b c : Nat) : (st.addSuccessor b c).before = st.before := rfl
@[simp] theorem addSuccessor_after (b c : Nat) : (st.addSuccessor b c).after = st.after := rfl
@[simp] theorem addSuccessor_nextMBB (b c : Nat) : (st.addSuccessor b c).nextMBB = st.nextMBB := rfl
@[simp] theorem addSuccessor_takenBlocks (b c : Nat) :
    (st.addSuccessor b c).takenBlocks = st.takenBlocks := rfl
@[simp] theorem addSuccessor_processedMBBs (b c : Nat) :
    (st.addSuccessor b c).processedMBBs = st.processedMBBs := rfl

@[simp] theorem addSuccessor_instrs (b c b' : Nat) :
    (st.addSuccessor b c).instrs b' = st.instrs b' := by
  simp only [instrs, addSuccessor, Function.update_apply]
  split
  · rename_i h; rw [h]
  · rfl

theorem addSuccessor_blocks {b b' : Nat} (c : Nat) (h : b' ≠ b) :
    (st.addSuccessor b c).blocks b' = st.blocks b' := by
  simp [addSuccessor, h]

attribute [simp] buildMI buildMIBefore eraseLast

/-- The state after `createMachineBasicBlock`. -/
def withBlock : PassState :=
  { st with blocks := Function.update st.blocks st.nextMBB {}, nextMBB := st.nextMBB + 1 }

theorem createMachineBasicBlock_eq : st.createMachineBasicBlock = (st.nextMBB, st.withBlock) := rfl

@[simp] theorem withBlock_before : st.withBlock.before = st.before := rfl
@[simp] theorem withBlock_after : st.withBlock.after = st.after := rfl
@[simp] theorem withBlock_nextMBB : st.withBlock.nextMBB = st.nextMBB + 1 := rfl
@[simp] theorem withBlock_takenBlocks : st.withBlock.takenBlocks = st.takenBlocks := rfl
@[simp] theorem withBlock_processedMBBs : st.withBlock.processedMBBs = st.processedMBBs := rfl

@[simp] theorem withBlock_instrs (b : Nat) :
    st.withBlock.instrs b = if b = st.nextMBB then [] else st.instrs b := by
  simp only [instrs, withBlock, Function.update_apply]
  split <;> rfl

theorem withBlock_blocks {b : Nat} (h : b ≠ st.nextMBB) : st.withBlock.blocks b = st.blocks b := by
  simp [withBlock, h]

/-- The state after `createNewBBonTrampoline`. -/
def withTrampoline (mbb : Nat) (dest : Option Nat) : PassState :=
  (st.createNewBBonTrampoline mbb dest).2

theorem createNewBBonTrampoline_eq (mbb : Nat) (dest : Option Nat) :
    st.createNewBBonTrampoline mbb dest = (st.nextMBB, st.withTrampoline mbb dest) := rfl

@[simp] theorem withTrampoline_before (mbb : Nat) (dest : Option Nat) :
    (st.withTrampoline mbb dest).before = st.nextMBB :: st.before := by
  cases dest <;> rfl

@[simp] theorem withTrampoline_after (mbb : Nat) (dest : Option Nat) :
    (st.withTrampoline mbb dest).after = st.after := by
  cases dest <;> rfl

@[simp] theorem withTrampoline_nextMBB (mbb : Nat) (dest : Option Nat) :
    (st.withTrampoline mbb dest).nextMBB = st.nextMBB + 1 := by
  cases dest <;> rfl

@[simp] theorem withTrampoline_takenBlocks (mbb : Nat) (dest : Option Nat) :
    (st.withTrampoline mbb dest).takenBlocks = st.takenBlocks := by
  cases dest <;> rfl

@[simp] theorem withTrampoline_processedMBBs (mbb : Nat) (dest : Option Nat) :
    (st.withTrampoline mbb dest).processedMBBs = st.processedMBBs := by
  cases dest <;> rfl

/-- A new trampoline is empty, or jumps to its target. -/
@[simp] theorem withTrampoline_instrs (mbb : Nat) (dest : Option Nat) (b : Nat) :
    (st.withTrampoline mbb dest).instrs b =
      if b = st.nextMBB then dest.toList.map jmp4 else st.instrs b := by
  have h (s : PassState) (b : Nat) :
      (s.pushFront st.nextMBB).instrs b = s.instrs b := rfl
  cases dest with
  | none =>
    simp only [withTrampoline, createNewBBonTrampoline, createMachineBasicBlock_eq,
      addSuccessor_instrs, h, withBlock_instrs, Option.toList_none, List.map_nil]
  | some d =>
    simp only [withTrampoline, createNewBBonTrampoline, createMachineBasicBlock_eq, buildMI,
      addSuccessor_instrs, setInstrs_instrs, h, withBlock_instrs, if_true, List.nil_append,
      Option.toList_some, List.map_cons, List.map_nil]
    split <;> rfl

theorem withTrampoline_blocks {mbb b : Nat} (dest : Option Nat) (h : b ≠ st.nextMBB)
    (hb : b ≠ mbb) : (st.withTrampoline mbb dest).blocks b = st.blocks b := by
  have hp (s : PassState) (z : Nat) : (s.pushFront z).blocks = s.blocks := rfl
  cases dest with
  | none =>
    simp only [withTrampoline, createNewBBonTrampoline, createMachineBasicBlock_eq]
    rw [addSuccessor_blocks _ _ hb, hp, withBlock_blocks _ h]
  | some d =>
    simp only [withTrampoline, createNewBBonTrampoline, createMachineBasicBlock_eq, buildMI]
    rw [addSuccessor_blocks _ _ hb, addSuccessor_blocks _ _ h, setInstrs_blocks _ _ h, hp,
      withBlock_blocks _ h]

@[simp] theorem insertNext_instrs (b : Nat) : (st.insertNext b).instrs = st.instrs := rfl
@[simp] theorem insertNext_before (b : Nat) : (st.insertNext b).before = st.before := rfl
@[simp] theorem insertNext_after (b : Nat) : (st.insertNext b).after = b :: st.after := rfl
@[simp] theorem insertNext_blocks (b : Nat) : (st.insertNext b).blocks = st.blocks := rfl
@[simp] theorem insertNext_nextMBB (b : Nat) : (st.insertNext b).nextMBB = st.nextMBB := rfl
@[simp] theorem insertNext_takenBlocks (b : Nat) :
    (st.insertNext b).takenBlocks = st.takenBlocks := rfl
@[simp] theorem insertNext_processedMBBs (b : Nat) :
    (st.insertNext b).processedMBBs = st.processedMBBs := rfl

@[simp] theorem pushLane_instrs (lane : BlockLane) : (st.pushLane lane).instrs = st.instrs := rfl
@[simp] theorem pushLane_before (lane : BlockLane) : (st.pushLane lane).before = st.before := rfl
@[simp] theorem pushLane_after (lane : BlockLane) : (st.pushLane lane).after = st.after := rfl
@[simp] theorem pushLane_blocks (lane : BlockLane) : (st.pushLane lane).blocks = st.blocks := rfl
@[simp] theorem pushLane_nextMBB (lane : BlockLane) : (st.pushLane lane).nextMBB = st.nextMBB := rfl
@[simp] theorem pushLane_processedMBBs (lane : BlockLane) :
    (st.pushLane lane).processedMBBs = st.processedMBBs := rfl
@[simp] theorem pushLane_takenBlocks (lane : BlockLane) :
    (st.pushLane lane).takenBlocks = st.takenBlocks ++ [lane] := rfl

variable (k : Nat) (a b : Option Nat) (c : Bool)

@[simp] theorem updateLane_instrs : (st.updateLane k a b c).instrs = st.instrs := rfl
@[simp] theorem updateLane_before : (st.updateLane k a b c).before = st.before := rfl
@[simp] theorem updateLane_after : (st.updateLane k a b c).after = st.after := rfl
@[simp] theorem updateLane_blocks : (st.updateLane k a b c).blocks = st.blocks := rfl
@[simp] theorem updateLane_nextMBB : (st.updateLane k a b c).nextMBB = st.nextMBB := rfl
@[simp] theorem updateLane_processedMBBs :
    (st.updateLane k a b c).processedMBBs = st.processedMBBs := rfl
@[simp] theorem updateLane_takenBlocks :
    (st.updateLane k a b c).takenBlocks = st.takenBlocks.set k ⟨a, b, c⟩ := rfl

end PassState

/-! ## The front block -/

section

variable (st : PassState) (entry : Nat)

theorem addFrontBlock_layout (h : st.after = []) :
    (addFrontBlock st entry).mf.layout = st.nextMBB :: st.before := by
  show st.nextMBB :: st.before ++ st.after = _
  rw [h, List.append_nil]

theorem addFrontBlock_blocks {b : Nat} (h : b ≠ st.nextMBB) :
    (addFrontBlock st entry).mf.blocks b = st.blocks b := by
  show (((st.withBlock.pushFront st.nextMBB).buildMI st.nextMBB (jmp4 entry)).addSuccessor
    st.nextMBB entry).blocks b = _
  rw [addSuccessor_blocks _ _ h, buildMI, setInstrs_blocks _ _ h]
  exact withBlock_blocks st h

theorem addFrontBlock_front :
    ((addFrontBlock st entry).mf.blocks st.nextMBB).instrs = [jmp4 entry] := by
  show (((st.withBlock.pushFront st.nextMBB).buildMI st.nextMBB (jmp4 entry)).addSuccessor
    st.nextMBB entry).instrs st.nextMBB = _
  rw [addSuccessor_instrs, buildMI, setInstrs_instrs, if_pos rfl]
  show st.withBlock.instrs st.nextMBB ++ _ = _
  rw [withBlock_instrs, if_pos rfl, List.nil_append]

end

end BS.BranchConversion
