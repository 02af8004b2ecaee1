import BranchShadowing.Proof.BranchConversion.Reserved
import BranchShadowing.Spec.Output

/-!
# The option only adds dummies

Without its dummies (`PassState.eraseDummies`) every state of the walk with the option
is the state of the walk without it: each operation of the walk commutes with the
erasure, as nothing that the walk reads is a block with dummies in it.
-/

namespace BS.BranchConversion

open X86 PassState

/-! ## The erasure and the operations of the walk -/

section

variable {n m b : Nat} {is : List MachineInstr}

theorem withoutDummies_append (n m b : Nat) (is js : List MachineInstr) :
    withoutDummies n m b (is ++ js) = withoutDummies n m b is ++ withoutDummies n m b js := by
  simp only [withoutDummies]
  split
  · exact List.filter_append ..
  · rfl

/-- No instruction of the block is erased. -/
def Plain (n b : Nat) (is : List MachineInstr) : Prop := n ≤ b → dummyAdd ∉ is

theorem Plain.eq (h : Plain n b is) : withoutDummies n m b is = is := by
  simp only [withoutDummies]
  split
  · rename_i hb
    refine List.filter_eq_self.mpr fun i hi => ?_
    have hne : i ≠ dummyAdd := fun he => h hb.1 (he ▸ hi)
    simpa using hne
  · rfl

theorem withoutDummies_succ (h : b ≠ m) : withoutDummies n (m + 1) b is = withoutDummies n m b is := by
  have hlt : b < m + 1 ↔ b < m := by omega
  simp only [withoutDummies, hlt]

theorem Plain.of_subset {js : List MachineInstr} (h : Plain n b is) (hs : js ⊆ is) : Plain n b js :=
  fun hb hi => h hb (hs hi)

end

namespace PassState

def eraseDummies (n : Nat) (st : PassState) : PassState :=
  { st with blocks := fun b =>
      { st.blocks b with instrs := withoutDummies n st.nextMBB b (st.blocks b).instrs } }

section

variable (n : Nat) (st : PassState)

@[simp] theorem eraseDummies_before : (st.eraseDummies n).before = st.before := rfl
@[simp] theorem eraseDummies_after : (st.eraseDummies n).after = st.after := rfl
@[simp] theorem eraseDummies_nextMBB : (st.eraseDummies n).nextMBB = st.nextMBB := rfl
@[simp] theorem eraseDummies_takenBlocks :
    (st.eraseDummies n).takenBlocks = st.takenBlocks := rfl
@[simp] theorem eraseDummies_processedMBBs :
    (st.eraseDummies n).processedMBBs = st.processedMBBs := rfl
@[simp] theorem eraseDummies_instrs (b : Nat) :
    (st.eraseDummies n).instrs b = withoutDummies n st.nextMBB b (st.instrs b) := rfl

theorem eraseDummies_insert (b : Nat) :
    (st.insert b).eraseDummies n = (st.eraseDummies n).insert b := rfl

theorem eraseDummies_insertNext (b : Nat) :
    (st.insertNext b).eraseDummies n = (st.eraseDummies n).insertNext b := rfl

theorem eraseDummies_pushFront (b : Nat) :
    (st.pushFront b).eraseDummies n = (st.eraseDummies n).pushFront b := rfl

theorem eraseDummies_pushLane (lane : BlockLane) :
    (st.pushLane lane).eraseDummies n = (st.eraseDummies n).pushLane lane := rfl

theorem eraseDummies_updateLane (k : Nat) (a b : Option Nat) (c : Bool) :
    (st.updateLane k a b c).eraseDummies n = (st.eraseDummies n).updateLane k a b c := rfl

theorem eraseDummies_advance (mbb : Nat) (rest : List Nat) :
    (advance st mbb rest).eraseDummies n = advance (st.eraseDummies n) mbb rest := rfl

theorem eraseDummies_setInstrs (b : Nat) (is : List MachineInstr) :
    (st.setInstrs b is).eraseDummies n =
      (st.eraseDummies n).setInstrs b (withoutDummies n st.nextMBB b is) := by
  simp only [eraseDummies, setInstrs, mk.injEq, true_and, and_true]
  funext c
  by_cases hc : c = b
  · subst hc
    simp
  · simp [hc]

theorem eraseDummies_addSuccessor (b c : Nat) :
    (st.addSuccessor b c).eraseDummies n = (st.eraseDummies n).addSuccessor b c := by
  simp only [eraseDummies, addSuccessor, mk.injEq, true_and, and_true]
  funext d
  by_cases hd : d = b
  · subst hd
    simp
  · simp [hd]

theorem eraseDummies_withBlock : st.withBlock.eraseDummies n = (st.eraseDummies n).withBlock := by
  simp only [eraseDummies, withBlock, mk.injEq, true_and, and_true]
  funext b
  by_cases hb : b = st.nextMBB
  · subst hb
    simp [withoutDummies]
  · simp only [Function.update_of_ne hb, withoutDummies_succ hb]

variable {n st} {b : Nat} {i : MachineInstr}

theorem eraseDummies_buildMI (hi : i ≠ dummyAdd) :
    (st.buildMI b i).eraseDummies n = (st.eraseDummies n).buildMI b i := by
  have hp : Plain n b [i] := fun _ h => hi (List.mem_singleton.mp h).symm
  simp only [buildMI, eraseDummies_setInstrs, withoutDummies_append, hp.eq, eraseDummies_instrs]

theorem eraseDummies_withTrampoline (mbb : Nat) (dest : Option Nat) :
    (st.withTrampoline mbb dest).eraseDummies n = (st.eraseDummies n).withTrampoline mbb dest := by
  cases dest with
  | none =>
    show ((st.withBlock.pushFront st.nextMBB).addSuccessor mbb st.nextMBB).eraseDummies n = _
    rw [eraseDummies_addSuccessor, eraseDummies_pushFront, eraseDummies_withBlock]
    rfl
  | some d =>
    show ((((st.withBlock.pushFront st.nextMBB).buildMI st.nextMBB (jmp4 d)).addSuccessor
      st.nextMBB d).addSuccessor mbb st.nextMBB).eraseDummies n = _
    rw [eraseDummies_addSuccessor, eraseDummies_addSuccessor,
      eraseDummies_buildMI (by simp [jmp4, dummyAdd]), eraseDummies_pushFront,
      eraseDummies_withBlock]
    rfl

theorem eraseDummies_closed (mbb : Nat) (c : Option Nat) :
    (st.closed mbb c).eraseDummies n = (st.eraseDummies n).closed mbb c := by
  cases c with
  | none => rfl
  | some z =>
    simp only [closed]
    rw [eraseDummies_addSuccessor, eraseDummies_buildMI (by simp [jmp4, dummyAdd])]

theorem setInstrs_self (st : PassState) (b : Nat) : st.setInstrs b (st.instrs b) = st := by
  simp only [setInstrs, instrs, Function.update_eq_self]

/-- The dummies of a block skipped are erased, as the trampoline is the pass's own. -/
theorem eraseDummies_addDummyInstructions (mbb : Nat) {z : Nat} (hz : n ≤ z)
    (hlt : z < st.nextMBB) :
    (st.addDummyInstructions mbb z).eraseDummies n = st.eraseDummies n := by
  have hd (k : Nat) : withoutDummies n st.nextMBB z (List.replicate k dummyAdd) = [] := by
    simp [withoutDummies, hz, hlt]
  rw [addDummyInstructions, eraseDummies_setInstrs, withoutDummies_append, hd, List.append_nil]
  exact (st.eraseDummies n).setInstrs_self z

theorem eraseDummies_skipped (mbb : Nat) {z : Nat} (hz : n ≤ z) (hlt : z < st.nextMBB) (f : Nat) :
    (st.skipped true mbb z f).eraseDummies n = (st.eraseDummies n).skipped false mbb z f := by
  simp only [skipped, if_true, Bool.false_eq_true, if_false]
  rw [eraseDummies_addSuccessor, eraseDummies_buildMI (by simp [jmp4, dummyAdd]),
    eraseDummies_buildMI (by simp [lea, dummyAdd]), eraseDummies_addDummyInstructions mbb hz
      (Nat.lt_succ_of_lt hlt),
    eraseDummies_withTrampoline, eraseDummies_nextMBB]

/-- Where the end of a block is replaced, there are no dummies in it. -/
theorem eraseDummies_eraseLast (h : Plain n b (st.instrs b)) :
    (st.eraseLast b).eraseDummies n = (st.eraseDummies n).eraseLast b := by
  have hl : Plain n b (st.instrs b).dropLast := h.of_subset (List.dropLast_subset _)
  rw [eraseLast, eraseDummies_setInstrs, hl.eq, eraseLast, eraseDummies_instrs, h.eq]

theorem plain_buildMIBefore (h : Plain n b (st.instrs b)) (hi : i ≠ dummyAdd) :
    Plain n b ((st.buildMIBefore b i).instrs b) := by
  intro hb hd
  simp only [buildMIBefore, setInstrs_instrs, if_true, List.mem_append, List.mem_cons,
    Option.mem_toList] at hd
  rcases hd with hd | rfl | hd
  · exact h hb (List.dropLast_subset _ hd)
  · exact hi rfl
  · exact h hb (List.mem_of_getLast? hd)

theorem eraseDummies_buildMIBefore (h : Plain n b (st.instrs b)) (hi : i ≠ dummyAdd) :
    (st.buildMIBefore b i).eraseDummies n = (st.eraseDummies n).buildMIBefore b i := by
  have hp := plain_buildMIBefore h hi
  rw [buildMIBefore, setInstrs_instrs, if_pos rfl] at hp
  rw [buildMIBefore, eraseDummies_setInstrs, hp.eq, buildMIBefore, eraseDummies_instrs, h.eq]

end

end PassState

/-! ## One block -/

section

variable {n mbb k : Nat} {st : PassState}

/-- Both lane loops fail, or both go on, and the one with the option has only more
dummies in its trampolines. -/
theorem updateLanes_eraseDummies {fakeBlock tk : Option Nat} {lanes : List BlockLane}
    (hn : ∀ z ∈ currents lanes, n ≤ z ∧ z < st.nextMBB) :
    (updateLanes true mbb fakeBlock lanes st tk).map (Prod.map (PassState.eraseDummies n) id) =
      updateLanes false mbb fakeBlock lanes (st.eraseDummies n) tk := by
  induction lanes generalizing st tk with
  | nil => rfl
  | cons lane rest ih =>
    have hrest : ∀ z ∈ currents rest, n ≤ z ∧ z < st.nextMBB := fun z hz =>
      hn z (by
        rw [← List.singleton_append, currents_append]
        exact List.mem_append_right _ hz)
    by_cases ha : lane.Arrives mbb
    · have hn' := (st.closed_fields mbb lane.currentMBB).2.2.1
      rw [updateLanes_arrive ha, updateLanes_arrive ha]
      simp only [← eraseDummies_closed, eraseDummies_takenBlocks]
      rw [ih]
      · split <;> rfl
      · split <;> simpa [hn'] using hrest
    cases hz : lane.currentMBB with
    | none => rw [updateLanes_dead ha hz, updateLanes_dead ha hz, ih hrest]
    | some z =>
      obtain ⟨hnz, hzn⟩ := hn z (currents_mem (List.mem_cons_self ..) hz)
      rw [updateLanes_skip ha hz, updateLanes_skip ha hz]
      cases fakeBlock with
      | none => rfl
      | some f =>
        have hn' := (st.skipped_fields true mbb z f).2.2.1
        rw [ih fun y hy => ⟨(hrest y hy).1, by
            rw [pushLane_nextMBB, hn']
            exact Nat.lt_succ_of_lt (hrest y hy).2⟩, eraseDummies_pushLane,
          eraseDummies_skipped mbb hnz hzn f, eraseDummies_nextMBB]

theorem insertFakeBlock_eraseDummies (h : Plain n mbb (st.instrs mbb)) :
    (insertFakeBlock st mbb).map id (PassState.eraseDummies n) =
      insertFakeBlock (st.eraseDummies n) mbb := by
  have hr : ((st.eraseDummies n).blocks mbb).isReturnBlock = (st.blocks mbb).isReturnBlock := by
    show (withoutDummies n _ mbb (st.instrs mbb)).getLast?.any _ = _
    rw [h.eq]
    rfl
  simp only [insertFakeBlock, hr, eraseDummies_after]
  split
  · rfl
  · show (some st.nextMBB,
      ((st.withBlock.insert st.nextMBB).buildMI st.nextMBB jmp64r).eraseDummies n) = _
    rw [eraseDummies_buildMI (by simp [jmp64r, dummyAdd]), eraseDummies_insert,
      eraseDummies_withBlock]
    rfl

theorem takeLane_eraseDummies (tk : Option Nat) :
    (takeLane st tk).map id (PassState.eraseDummies n) = takeLane (st.eraseDummies n) tk := by
  cases tk <;> rfl

theorem replaceNoBranchBlock_eraseDummies (ft : Option Nat) :
    (replaceNoBranchBlock st mbb ft k).eraseDummies n =
      replaceNoBranchBlock (st.eraseDummies n) mbb ft k := by
  cases ft with
  | none => rfl
  | some d =>
    simp only [replaceNoBranchBlock, createNewBBonTrampoline_eq]
    rw [eraseDummies_buildMI (by simp [lea, dummyAdd]), eraseDummies_updateLane,
      eraseDummies_withTrampoline, eraseDummies_nextMBB]

theorem replaceIndirectJump_eraseDummies (mi : MachineInstr) :
    (replaceIndirectJump st mi k).map (PassState.eraseDummies n) =
      replaceIndirectJump (st.eraseDummies n) mi k := by
  simp only [replaceIndirectJump]
  split <;> rfl

/-- The jump at the end of the block is replaced in the same way. -/
theorem eraseDummies_replaceJump {z : Nat} (h : Plain n mbb (st.instrs mbb)) :
    ((st.buildMIBefore mbb (lea targetRegOpcode z)).eraseLast mbb).eraseDummies n =
      ((st.eraseDummies n).buildMIBefore mbb (lea targetRegOpcode z)).eraseLast mbb := by
  have hi : lea targetRegOpcode z ≠ dummyAdd := by simp [lea, dummyAdd]
  rw [eraseDummies_eraseLast (plain_buildMIBefore h hi), eraseDummies_buildMIBefore h hi]

theorem replaceUnconditionalJump_eraseDummies (mi : MachineInstr) (hm : mbb < st.nextMBB)
    (h : Plain n mbb (st.instrs mbb)) :
    (replaceUnconditionalJump st mbb mi k).map (PassState.eraseDummies n) =
      replaceUnconditionalJump (st.eraseDummies n) mbb mi k := by
  have hne := Nat.ne_of_lt hm
  cases hd : mi.mbb? with
  | none => simp only [replaceUnconditionalJump, hd]; rfl
  | some d =>
    by_cases hp : d ∈ st.processedMBBs
    all_goals
      simp only [replaceUnconditionalJump, hd, createNewBBonTrampoline_eq,
        eraseDummies_processedMBBs, hp, if_true, if_false]
      show Except.ok (PassState.eraseDummies n _) = _
      rw [eraseDummies_replaceJump (by simpa [hne] using h), eraseDummies_updateLane,
        eraseDummies_withTrampoline]
      rfl

theorem replaceConditionalBranch_eraseDummies (mi : MachineInstr) (hm : mbb < st.nextMBB)
    (h : Plain n mbb (st.instrs mbb)) :
    (replaceConditionalBranch st mbb mi k).map (PassState.eraseDummies n) =
      replaceConditionalBranch (st.eraseDummies n) mbb mi k := by
  have hne := Nat.ne_of_lt hm
  have hne' : mbb ≠ st.nextMBB + 1 := by omega
  have hF : lea targetRegOpcode st.nextMBB ≠ dummyAdd := by simp [lea, dummyAdd]
  have hT : lea tmpReg (st.nextMBB + 1) ≠ dummyAdd := by simp [lea, dummyAdd]
  have hend {s : PassState} (hs : Plain n mbb (s.instrs mbb)) {cc : Opcode} :
      ((((s.buildMIBefore mbb (lea targetRegOpcode st.nextMBB)).buildMIBefore mbb
        (lea tmpReg (st.nextMBB + 1))).buildMIBefore mbb (cmov cc)).eraseLast mbb).eraseDummies n =
      ((((s.eraseDummies n).buildMIBefore mbb (lea targetRegOpcode st.nextMBB)).buildMIBefore mbb
        (lea tmpReg (st.nextMBB + 1))).buildMIBefore mbb (cmov cc)).eraseLast mbb := by
    have hc : cmov cc ≠ dummyAdd := by simp [cmov, dummyAdd]
    have h₁ := plain_buildMIBefore hs hF
    have h₂ := plain_buildMIBefore h₁ hT
    have h₃ := plain_buildMIBefore h₂ hc
    rw [eraseDummies_eraseLast h₃, eraseDummies_buildMIBefore h₂ hc, eraseDummies_buildMIBefore h₁ hT,
      eraseDummies_buildMIBefore hs hF]
  cases hd : mi.mbb? with
  | none => simp only [replaceConditionalBranch, hd]; rfl
  | some d =>
    cases hc : getCorrespondingMovOpcode mi with
    | none => simp only [replaceConditionalBranch, hd, hc]; rfl
    | some cc =>
      by_cases hp : d ∈ st.processedMBBs
      all_goals
        simp only [replaceConditionalBranch, hd, hc, createNewBBonTrampoline_eq,
          withTrampoline_processedMBBs, withTrampoline_nextMBB, eraseDummies_processedMBBs,
          eraseDummies_nextMBB, hp, if_true, if_false]
        show Except.ok (PassState.eraseDummies n _) = _
        rw [eraseDummies_updateLane, hend (by simpa [hne, hne'] using h)]
        simp only [eraseDummies_pushLane, eraseDummies_withTrampoline]

theorem splitJump_eraseDummies (pos : MachineInstr) (hm : mbb < st.nextMBB)
    (h : Plain n mbb (st.instrs mbb)) :
    (splitJump st mbb pos).map (PassState.eraseDummies n) =
      splitJump (st.eraseDummies n) mbb pos := by
  have hne := Nat.ne_of_lt hm
  cases hd : pos.mbb? with
  | none => simp only [splitJump, hd]; rfl
  | some d =>
    simp only [splitJump, hd, createMachineBasicBlock_eq, eraseDummies_nextMBB]
    show Except.ok (PassState.eraseDummies n _) = _
    have hj : (⟨pos.opcode, [.mbb d]⟩ : MachineInstr) ≠ dummyAdd := by simp [dummyAdd]
    rw [eraseDummies_eraseLast (by simpa [hne] using h), eraseDummies_addSuccessor,
      eraseDummies_buildMI hj, eraseDummies_insertNext, eraseDummies_withBlock]

theorem replaceTerminator_eraseDummies (ft : Option Nat) (hm : mbb < st.nextMBB)
    (h : Plain n mbb (st.instrs mbb)) :
    (replaceTerminator st mbb ft k).map (PassState.eraseDummies n) =
      replaceTerminator (st.eraseDummies n) mbb ft k := by
  simp only [replaceTerminator, eraseDummies_instrs, h.eq]
  cases hl : (st.instrs mbb).getLast? with
  | none => rfl
  | some pos =>
    simp only
    split
    · cases hj : (st.instrs mbb).dropLast.getLast? with
      | none => exact replaceUnconditionalJump_eraseDummies pos hm h
      | some jcc =>
        simp only
        split
        · rw [← splitJump_eraseDummies pos hm h]
          cases hs : splitJump st mbb pos with
          | error e => rfl
          | ok s =>
            obtain ⟨d, -, -, -, hn, -, -, hi, -⟩ :=
              splitJump_ok hs hm (List.dropLast_append_getLast? pos hl).symm
            refine replaceConditionalBranch_eraseDummies jcc (by omega) ?_
            rw [hi, if_pos rfl]
            exact h.of_subset (List.dropLast_subset _)
        · exact replaceUnconditionalJump_eraseDummies pos hm h
    · split
      · exact replaceIndirectJump_eraseDummies pos
      · split
        · exact replaceConditionalBranch_eraseDummies pos hm h
        · split
          · exact congrArg Except.ok (replaceNoBranchBlock_eraseDummies ft)
          · rfl

/-- The dummies are never in a block still to be walked, nor in a block of the input. -/
structure DummiesApart (n : Nat) (st : PassState) : Prop where
  nextMBB : n ≤ st.nextMBB
  lanes : ∀ z ∈ currents st.takenBlocks, n ≤ z
  after : ∀ b ∈ st.after, Plain n b (st.instrs b)

theorem getFallThrough_eraseDummies (h : Plain n mbb (st.instrs mbb)) :
    (st.eraseDummies n).mf.getFallThrough mbb = st.mf.getFallThrough mbb := by
  refine getFallThrough_congr rfl ?_ fun _ _ => rfl
  show MachineBasicBlock.mk (withoutDummies n _ mbb (st.instrs mbb)) _ _ = _
  rw [h.eq]
  rfl

theorem runOnBlock_eraseDummies (hB : Bookkeeping st) (hA : DummiesApart n st) :
    (runOnBlock true st).map (PassState.eraseDummies n) = runOnBlock false (st.eraseDummies n) := by
  cases ha : st.after with
  | nil => simp only [runOnBlock, eraseDummies_after, ha]; rfl
  | cons mbb rest =>
    have hp : Plain n mbb (st.instrs mbb) := hA.after mbb (by simp [ha])
    have hp' : Plain n mbb ((advance st mbb rest).instrs mbb) := hp
    simp only [runOnBlock, eraseDummies_after, ha, ← eraseDummies_advance,
      getFallThrough_eraseDummies hp', ← insertFakeBlock_eraseDummies hp']
    rcases hs : insertFakeBlock (advance st mbb rest) mbb with ⟨fakeBlock, s₁⟩
    have F := insertFakeBlock_spec hs
    have hn : ∀ z ∈ currents s₁.takenBlocks, n ≤ z ∧ z < s₁.nextMBB := by
      rw [F.takenBlocks]
      exact fun z hz => ⟨hA.lanes z hz, Nat.lt_of_lt_of_le (hB.current_lt hz) F.nextMBB⟩
    have hloop : (updateLanes true mbb fakeBlock s₁.takenBlocks { s₁ with takenBlocks := [] }
        none).map _ = _ := updateLanes_eraseDummies hn
    show Except.map _ (updateLanes true .. >>= fun _ => _) =
      (updateLanes false mbb fakeBlock s₁.takenBlocks
        (PassState.eraseDummies n { s₁ with takenBlocks := [] }) none >>= fun _ => _)
    rw [← hloop]
    cases hl : updateLanes true mbb fakeBlock s₁.takenBlocks { s₁ with takenBlocks := [] } none with
    | error e => rfl
    | ok p =>
      obtain ⟨s₂, tk⟩ := p
      rcases hk : takeLane s₂ tk with ⟨k, s₃⟩
      have D := LanesDone.of_loop hB ha hs hl hk
      have hm : mbb < st.nextMBB := hB.fresh mbb (by simp [ha])
      show (replaceTerminator (takeLane s₂ tk).2 ..).map _ =
        replaceTerminator (takeLane (s₂.eraseDummies n) tk).2 mbb _
          (takeLane (s₂.eraseDummies n) tk).1
      rw [← takeLane_eraseDummies, hk]
      refine replaceTerminator_eraseDummies _ (Nat.lt_of_lt_of_le hm D.nextMBB) ?_
      rwa [D.instrs mbb hm (hB.not_current (by simp [ha]))]

/-- What is left to walk stays apart. -/
theorem BlockDone.dummiesApart {st' : PassState} {rest : List Nat} {ft fakeBlock : Option Nat}
    (D : BlockDone true st mbb rest ft fakeBlock st') (hB : Bookkeeping st)
    (ha : st.after = mbb :: rest) (hA : DummiesApart n st) : DummiesApart n st' where
  nextMBB := Nat.le_trans hA.nextMBB D.nextMBB
  lanes z hz := (D.live z hz).elim (hA.lanes z) (Nat.le_trans hA.nextMBB)
  after b hb := by
    by_cases hr : b ∈ rest
    · rw [D.instrs_rest hB ha hr]
      exact hA.after b (by simp [ha, hr])
    · obtain ⟨mi, -, d, -, -, hi⟩ := D.split_instrs hb hr
      rw [hi]
      exact fun _ h => by simp [dummyAdd] at h

end

/-! ## The walk -/

section

variable {n : Nat} {st : PassState}

theorem blockLoop_eraseDummies {fuel : Nat} (hB : Bookkeeping st) (hA : DummiesApart n st) :
    (blockLoop true fuel st).map (PassState.eraseDummies n) =
      blockLoop false fuel (st.eraseDummies n) := by
  induction fuel generalizing st with
  | zero =>
    by_cases ha : st.after = []
    all_goals
      simp only [blockLoop, eraseDummies_after, ha, if_true, if_false]
      rfl
  | succ fuel ih =>
    by_cases ha : st.after = []
    · simp only [blockLoop, eraseDummies_after, ha, if_true]
      rfl
    · obtain ⟨mbb, rest, hae⟩ := List.exists_cons_of_ne_nil ha
      simp only [blockLoop, eraseDummies_after, ha, if_false, ← runOnBlock_eraseDummies hB hA]
      cases hr : runOnBlock true st with
      | error e => rfl
      | ok st' =>
        obtain ⟨fakeBlock, D⟩ := runOnBlock_spec hB hae hr
        exact ih D.bookkeeping (D.dummiesApart hB hae hA)

theorem eraseDummies_addFrontBlock (entry : Nat) :
    (addFrontBlock st entry).eraseDummies n = addFrontBlock (st.eraseDummies n) entry := by
  show (((st.withBlock.pushFront st.nextMBB).buildMI st.nextMBB (jmp4 entry)).addSuccessor
    st.nextMBB entry).eraseDummies n = _
  rw [eraseDummies_addSuccessor, eraseDummies_buildMI (by simp [jmp4, dummyAdd]),
    eraseDummies_pushFront, eraseDummies_withBlock]
  rfl

end

/-- With the option the pass fails where it fails without it, and what it puts out is
what it puts out without the option but for the dummies. -/
theorem runOnMachineFunction_eraseDummies {mf : MachineFunction} (hmf : WellFormed mf) :
    (runOnMachineFunction true mf).map (eraseDummies mf.nextMBB) =
      runOnMachineFunction false mf := by
  have hB := bookkeeping_start hmf.nodup hmf.fresh
  have hA : DummiesApart mf.nextMBB (start mf) := ⟨Nat.le_refl _, by simp [start, currents],
    fun b hb hn => absurd (hmf.fresh b hb) (Nat.not_lt.mpr hn)⟩
  have hstart : (start mf).eraseDummies mf.nextMBB = start mf := by
    have hno (b : Nat) : ¬ (mf.nextMBB ≤ b ∧ b < mf.nextMBB) := by omega
    simp only [PassState.eraseDummies, start, withoutDummies, hno, if_false]
  simp only [runOnMachineFunction]
  cases mf.layout with
  | nil => rfl
  | cons entry tail =>
    rw [← hstart, ← blockLoop_eraseDummies hB hA, hstart]
    cases blockLoop true (2 * (entry :: tail).length) (start mf) with
    | error e => rfl
    | ok st => exact congrArg (fun s => Except.ok s.mf) (eraseDummies_addFrontBlock entry)

/-- The jump of `hop` gets a dummy. -/
theorem runOnMachineFunction_eraseDummies_hop :
    (runOnMachineFunction true hop).map (eraseDummies 4) = runOnMachineFunction false hop :=
  runOnMachineFunction_eraseDummies hop_emitted.toWellFormed

end BS.BranchConversion
