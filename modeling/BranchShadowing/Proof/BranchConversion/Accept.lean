import Mathlib.Algebra.Ring.Nat
import BranchShadowing.Proof.BranchConversion.Walk

/-!
# What the pass accepts

The pass fails on no function whose blocks end in one of the ways that `Handled`
lists: `blockLoop_ok`. No lane is left to skip the last block, and each block is
walked once, and once more for the jump split off it, which is what the fuel is
for.
-/

namespace BS.BranchConversion

open X86 PassState

variable {dummyInstr : Bool} {st st' : PassState} {mbb : Nat} {rest : List Nat}

/-- The ends of a block that the pass handles, given the block behind it and its
successors. -/
inductive Handled (next : Option Nat) (succs : List Nat) : List MachineInstr → Prop
  | leave {pre : List MachineInstr} {i : MachineInstr} :
    i.isBranch = false → i.isIndirectBranch = false →
    ((∃ n, next = some n ∧ n ∈ succs ∧ ∀ j ∈ pre ++ [i], j.isTerminator = false) ∨
      i.isReturn ∨ i.isCall) →
    Handled next succs (pre ++ [i])
  | indirect {pre : List MachineInstr} {i : MachineInstr} :
    i.isIndirectBranch → (i.getOperand 0).any MachineOperand.isReg →
    Handled next succs (pre ++ [i])
  | jump {pre : List MachineInstr} {i : MachineInstr} {d : Nat} :
    i.opcode = .jmp1 → i.mbb? = some d →
    (∀ j, pre.getLast? = some j → j.isConditionalBranch →
      ∃ cc d, j.opcode = .jcc1 cc ∧ j.mbb? = some d) →
    Handled next succs (pre ++ [i])
  | cond {pre : List MachineInstr} {i : MachineInstr} {cc : Cond} {d : Nat} :
    i.opcode = .jcc1 cc → i.mbb? = some d → Handled next succs (pre ++ [i])

theorem replaceConditionalBranch_isOk (st : PassState) (mbb k : Nat) {mi : MachineInstr}
    {cc : Cond} {d : Nat} (ho : mi.opcode = .jcc1 cc) (hd : mi.mbb? = some d) :
    ∃ st', replaceConditionalBranch st mbb mi k = .ok st' := by
  simp [replaceConditionalBranch, hd, getCorrespondingMovOpcode, ho, getCondFromBranchOpc,
    getCMovFromCond]

theorem replaceUnconditionalJump_isOk {k : Nat} {mi : MachineInstr} {d : Nat}
    (hd : mi.mbb? = some d) : ∃ st', replaceUnconditionalJump st mbb mi k = .ok st' := by
  simp [replaceUnconditionalJump, hd]

theorem replaceTerminator_isOk (k : Nat) {next : Option Nat} (ft : Option Nat)
    {succs : List Nat} (h : Handled next succs (st.instrs mbb))
    (hft : ∀ n, next = some n → n ∈ succs → (∀ j ∈ st.instrs mbb, j.isTerminator = false) →
      ft = some n) :
    ∃ st', replaceTerminator st mbb ft k = .ok st' := by
  unfold replaceTerminator
  generalize st.instrs mbb = is at h hft
  cases h with
  | @leave pre i hb hi h =>
    have hu : i.isUnconditionalBranch = false := by simp [MachineInstr.isUnconditionalBranch, hb]
    have hc : i.isConditionalBranch = false := by simp [MachineInstr.isConditionalBranch, hb]
    have hft' : ft.isSome = true ∨ i.isReturn = true ∨ i.isCall = true := by
      refine h.imp_left fun hn => ?_
      obtain ⟨n, hn, hs, ht⟩ := hn
      rw [hft n hn hs ht]
      rfl
    simp [hu, hc, hi, hft']
  | @indirect pre i hi hr =>
    have hu : i.isUnconditionalBranch = false := by simp [MachineInstr.isUnconditionalBranch, hi]
    simp [hu, hi, replaceIndirectJump, hr]
  | @jump pre i d ho hd hp =>
    have hu := isUnconditionalBranch_of_jmp1 ho
    cases hl : pre.getLast? with
    | none => simp [hu, hl, replaceUnconditionalJump_isOk hd]
    | some j =>
      by_cases hj : j.isConditionalBranch
      · obtain ⟨cc, d', ho', hd'⟩ := hp j hl hj
        obtain ⟨s, hs⟩ : ∃ s, splitJump st mbb i = .ok s := by simp [splitJump, hd]
        obtain ⟨s', hs'⟩ := replaceConditionalBranch_isOk s mbb k ho' hd'
        exact ⟨s', by simp [hu, hl, hj, hs, hs', bind, Except.bind]⟩
      · simp [hu, hl, hj, replaceUnconditionalJump_isOk hd]
  | @cond pre i cc d ho hd =>
    obtain ⟨hc, hu, hi⟩ := flags_of_jcc1 ho
    simp [hu, hi, hc, replaceConditionalBranch_isOk st mbb k ho hd]

/-- The lane loop fails only where a lane is to skip a block without a fake
block. -/
theorem updateLanes_isOk {fakeBlock : Option Nat} {lanes : List BlockLane} {tk : Option Nat}
    (h : ∀ lane ∈ lanes, ¬ lane.Arrives mbb → lane.currentMBB.isSome → fakeBlock.isSome) :
    ∃ p, updateLanes dummyInstr mbb fakeBlock lanes st tk = .ok p := by
  induction lanes generalizing st tk with
  | nil => exact ⟨_, rfl⟩
  | cons lane rest ih =>
    have hr := fun l hl => h l (List.mem_cons_of_mem _ hl)
    by_cases ha : lane.Arrives mbb
    · rw [updateLanes_arrive ha]
      exact ih hr
    · cases hz : lane.currentMBB with
      | none =>
        rw [updateLanes_dead ha hz]
        exact ih hr
      | some z =>
        have hf := h lane (List.mem_cons_self ..) ha (by simp [hz])
        obtain ⟨f, rfl⟩ := Option.isSome_iff_exists.mp hf
        rw [updateLanes_skip ha hz]
        exact ih hr

/-- No live lane is left to skip a last block that returns. -/
theorem LanesOpen.updateLanes_isOk (dummyInstr : Bool) (hL : LanesOpen st) (ha : st.after = mbb :: rest)
    {fakeBlock : Option Nat} {s : PassState}
    (hf : insertFakeBlock (advance st mbb rest) mbb = (fakeBlock, s)) :
    ∃ p, updateLanes dummyInstr mbb fakeBlock s.takenBlocks { s with takenBlocks := [] } none =
      .ok p := by
  have F := insertFakeBlock_spec hf
  have hlanes : s.takenBlocks = st.takenBlocks := F.takenBlocks
  refine BranchConversion.updateLanes_isOk fun lane hlane harr hs => ?_
  rw [hlanes] at hlane
  cases fakeBlock with
  | some f => rfl
  | none =>
    have hrest : rest = [] := (F.none rfl).1
    obtain ⟨z, hz⟩ := Option.isSome_iff_exists.mp hs
    simp only [BlockLane.Arrives, not_or, Bool.not_eq_true] at harr
    rcases (hL lane hlane z hz).2 with ⟨ht, -⟩ | ⟨-, d, hd, hld⟩
    · rw [ht] at harr
      cases harr.1
    · rw [ha, hrest, List.mem_singleton] at hd
      exact absurd (hd ▸ hld) harr.2

/-- Every block left to walk ends in a way that the pass handles. -/
def AllHandled (st : PassState) : Prop :=
  ∀ c ∈ st.after, Handled (nextOf st.after c) (st.blocks c).succs (st.instrs c)

theorem runOnBlock_isOk (dummyInstr : Bool) (hB : Bookkeeping st) (ha : st.after = mbb :: rest) (hL : LanesOpen st)
    (hH : AllHandled st) : ∃ st', runOnBlock dummyInstr st = .ok st' := by
  have hmem : mbb ∈ st.after := by simp [ha]
  have hm := hB.fresh mbb (by simp [hmem])
  rcases hf : insertFakeBlock (advance st mbb rest) mbb with ⟨fakeBlock, s₁⟩
  obtain ⟨⟨s₂, tk⟩, hl⟩ := hL.updateLanes_isOk dummyInstr ha hf
  rcases ht : takeLane s₂ tk with ⟨k, s₃⟩
  have D := LanesDone.of_loop hB ha hf hl ht
  have hmi : s₃.instrs mbb = st.instrs mbb := D.instrs mbb hm (hB.not_current hmem)
  have hH' := hH mbb hmem
  rw [show nextOf st.after mbb = rest.head? by simp [ha, nextOf], ← hmi] at hH'
  obtain ⟨st', hst'⟩ := replaceTerminator_isOk k ((advance st mbb rest).mf.getFallThrough mbb) hH'
    fun n hn hs hterm => by
      rw [hmi] at hterm
      exact getFallThrough_of_no_terminator ((BlockDone.layoutSucc_advance hB ha).trans hn) hs hterm
  exact ⟨st', by simp [runOnBlock, ha, hf, hl, ht, hst', bind, Except.bind]⟩

theorem BlockDone.allHandled {ft fakeBlock : Option Nat}
    (D : BlockDone dummyInstr st mbb rest ft fakeBlock st') (hB : Bookkeeping st)
    (ha : st.after = mbb :: rest) (hH : AllHandled st) : AllHandled st' := by
  obtain ⟨o, ho, hao, hN⟩ := D.ending
  intro c hc
  rw [hao] at hc
  rcases List.mem_append.mp hc with h | h
  · have hco := Option.mem_toList.mp h
    have hmb := hH mbb (by simp [ha])
    generalize st.instrs mbb = is at ho hmb
    generalize st'.instrs mbb = is' at ho
    cases ho with
    | @split pre jcc mi _ _ _ _ _ _ _ _ hu _ _ _ hNi =>
      cases hco
      have hmi : mi.opcode = .jmp1 := by
        generalize his : pre ++ [jcc, mi] = is at hmb
        have hlast : is.getLast? = some mi := by simp [← his]
        have hunc := hu
        simp only [MachineInstr.isUnconditionalBranch, Bool.and_eq_true, Bool.not_eq_true'] at hunc
        cases hmb with
        | leave hb =>
          cases (List.getLast?_concat.symm.trans hlast : _)
          rw [hb] at hunc
          cases hunc.1.1
        | indirect hi =>
          cases (List.getLast?_concat.symm.trans hlast : _)
          rw [hi] at hunc
          cases hunc.2
        | jump hop =>
          cases (List.getLast?_concat.symm.trans hlast : _)
          exact hop
        | cond hop =>
          cases (List.getLast?_concat.symm.trans hlast : _)
          rw [(flags_of_jcc1 hop).2.1] at hu
          cases hu
      rw [hNi, ← List.nil_append [_]]
      exact .jump hmi rfl (by simp)
    | _ => cases hco
  · have hmem : c ∈ st.after := by simp [ha, h]
    have hlt := hB.fresh c (by simp [hmem])
    have hcm : c ≠ mbb := by
      rintro rfl
      have := (List.nodup_append.mp hB.nodup).2.1
      rw [ha, List.nodup_cons] at this
      exact this.1 h
    have hnext : nextOf st'.after c = nextOf st.after c := by
      rw [hao, ha, nextOf_append_right]
      · simp [nextOf, Ne.symm hcm]
      · intro h
        have := (hN c (Option.mem_toList.mp h)).1
        omega
    rw [hnext, D.instrs_rest hB ha h, D.blocks c hlt hcm (hB.not_current hmem)]
    exact hH c hmem

/-! ## Fuel -/

/-- A block is walked once, and once more in the half that is split off. -/
def cost (is : List MachineInstr) : Nat :=
  if is.getLast?.any MachineInstr.isUnconditionalBranch ∧
    is.dropLast.getLast?.any MachineInstr.isConditionalBranch then 2 else 1

theorem one_le_cost (is : List MachineInstr) : 1 ≤ cost is := by
  unfold cost
  split <;> omega

theorem cost_le_two (is : List MachineInstr) : cost is ≤ 2 := by
  unfold cost
  split <;> omega

/-- The iterations that are still to come. -/
def todo (st : PassState) : Nat := (st.after.map fun c => cost (st.instrs c)).sum

theorem todo_le (st : PassState) : todo st ≤ 2 * st.after.length := by
  unfold todo
  induction st.after with
  | nil => exact Nat.le_refl _
  | cons c l ih =>
    have := cost_le_two (st.instrs c)
    rw [List.map_cons, List.sum_cons, List.length_cons]
    omega

/-- The cost counts the block that is split off. -/
theorem Ending.cost_eq {next : Nat → Prop} {leads : Nat → Nat → Prop} {ft o : Option Nat}
    {instrs : Nat → List MachineInstr} {is is' : List MachineInstr}
    (h : Ending next leads ft instrs is is' o) : cost is = 1 + o.toList.length := by
  have single {pre : List MachineInstr} {i : MachineInstr}
      (hi : i.isUnconditionalBranch = false ∨
        ∀ j, pre.getLast? = some j → j.isConditionalBranch = false) :
      cost (pre ++ [i]) = 1 := by
    unfold cost
    rw [List.getLast?_concat, List.dropLast_concat, if_neg]
    rintro ⟨hu, hc⟩
    rcases hi with hi | hi
    · rw [Option.any_some, hi] at hu
      cases hu
    · obtain ⟨j, hj, hjc⟩ := (Option.any_eq_true _ _).mp hc
      rw [hi j hj] at hjc
      cases hjc
  cases h with
  | empty => rfl
  | leave hu => exact single (.inl hu)
  | fall hu => exact single (.inl hu)
  | jump _ hp => exact single (.inr hp)
  | cond ho => exact single (.inl (flags_of_jcc1 ho).2.1)
  | split hj _ hu => simp [cost, hu, (flags_of_jcc1 hj).1]

/-- An iteration takes one off what is still to come. -/
theorem BlockDone.todo_eq {ft fakeBlock : Option Nat}
    (D : BlockDone dummyInstr st mbb rest ft fakeBlock st') (hB : Bookkeeping st)
    (ha : st.after = mbb :: rest) : todo st = todo st' + 1 := by
  obtain ⟨o, ho, hao, -⟩ := D.ending
  have hrest : rest.map (fun c => cost (st'.instrs c)) = rest.map fun c => cost (st.instrs c) :=
    List.map_congr_left fun c hc => by rw [D.instrs_rest hB ha hc]
  simp only [todo, hao, ha, List.map_append, List.map_cons, List.sum_append, List.sum_cons, hrest,
    ho.cost_eq]
  generalize st.instrs mbb = is at ho
  generalize st'.instrs mbb = is' at ho
  cases ho with
  | @split _ _ _ _ _ _ _ _ N _ _ _ _ _ _ hNi =>
    have hcost : cost (st'.instrs N) = 1 := by simp [cost, hNi]
    simp only [Option.toList_some, List.map_cons, List.map_nil, List.sum_cons, List.sum_nil, hcost,
      List.length_singleton]
    omega
  | _ =>
    simp only [Option.toList_none, List.map_nil, List.sum_nil, List.length_nil]
    omega

/-- The walk does not fail on blocks that the pass handles. -/
theorem blockLoop_isOk (dummyInstr : Bool) {n : Nat} (hn : todo st ≤ n) (hB : Bookkeeping st) (hS : Shaped st)
    (hL : LanesOpen st) (hH : AllHandled st) : ∃ fin, blockLoop dummyInstr n st = .ok fin := by
  induction n generalizing st with
  | zero =>
    have ha : st.after = [] := by
      cases ha : st.after with
      | nil => rfl
      | cons c l =>
        simp only [todo, ha, List.map_cons, List.sum_cons] at hn
        have := one_le_cost (st.instrs c)
        omega
    exact ⟨st, by simp [blockLoop, ha]⟩
  | succ n ih =>
    cases ha : st.after with
    | nil => exact ⟨st, by simp [blockLoop, ha]⟩
    | cons mbb rest =>
      obtain ⟨st₁, h₁⟩ := runOnBlock_isOk dummyInstr hB ha hL hH
      obtain ⟨fakeBlock, D⟩ := runOnBlock_spec hB ha h₁
      have htodo := D.todo_eq hB ha
      obtain ⟨fin, hfin⟩ := ih (by omega) D.bookkeeping (D.shaped hB ha hS)
        (D.lanesOpen hB ha rfl hS hL) (D.allHandled hB ha hH)
      exact ⟨fin, by simp [blockLoop, ha, h₁, hfin, bind, Except.bind]⟩

end BS.BranchConversion
