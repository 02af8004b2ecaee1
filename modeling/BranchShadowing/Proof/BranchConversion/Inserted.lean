import BranchShadowing.Proof.BranchConversion.Lanes

/-!
# What the pass inserts

The pass puts only a few instructions into a function (`Inserted`). A property of
instructions that they have is kept by the walk, for all blocks of some kind
(`Filled`): `updateLanes_filled` and `replaceTerminator_filled`. So the blocks that
the pass creates hold nothing else (`Made`); the jump split off a block is replaced
when its new block is walked.
-/

namespace BS.BranchConversion

open X86 PassState

/-- The instructions that the pass inserts. -/
inductive Inserted : MachineInstr → Prop
  | jmp4 (b : Nat) : Inserted (jmp4 b)
  | jmp64r : Inserted jmp64r
  | leaTarget (b : Nat) : Inserted (lea targetRegOpcode b)
  | leaTmp (b : Nat) : Inserted (lea tmpReg b)
  | cmov (cc : Cond) : Inserted (cmov (.cmov64rr cc))
  | dummyAdd : Inserted dummyAdd

theorem Inserted.not_conditional {i : MachineInstr} (h : Inserted i) :
    i.isConditionalBranch = false := by
  cases h <;> rfl

/-- The instructions of the blocks in `K` have the property `Q`. -/
def Filled (K : Nat → Prop) (Q : MachineInstr → Prop) (st : PassState) : Prop :=
  ∀ b < st.nextMBB, K b → ∀ i ∈ st.instrs b, Q i

/-- The instructions put everywhere have the property `Q`, and so have the jumps to
the blocks in `D`. -/
structure Fits (Q : MachineInstr → Prop) (D : Nat → Prop) : Prop where
  jmp64r : Q jmp64r
  dummyAdd : Q dummyAdd
  lea : ∀ b, Q (lea targetRegOpcode b)
  jmp4 : ∀ d, D d → Q (jmp4 d)

/-- What the pass puts into a block whose conditional branch `mi` it replaces. -/
def MovesFit (Q : MachineInstr → Prop) (mi : MachineInstr) : Prop :=
  ∀ cc, mi.opcode = .jcc1 cc → (∀ b, Q (lea tmpReg b)) ∧ Q (cmov (.cmov64rr cc))

/-- The jump `mi` may be split off behind the conditional branch `jcc`. -/
def SplitFits (Q : MachineInstr → Prop) (jcc mi : MachineInstr) : Prop :=
  jcc.isConditionalBranch → mi.isUnconditionalBranch → ∀ d ∈ mi.mbb?, Q ⟨mi.opcode, [.mbb d]⟩

/-- Whatever the pass puts into the blocks in `K` while it walks a block, of
instructions `is`, has the property `Q`; `after` are the blocks left then. -/
structure EndFits (K : Nat → Prop) (Q : MachineInstr → Prop) (D : Nat → Prop) (mbb : Nat)
    (is : List MachineInstr) (after : List Nat) : Prop extends Fits Q D where
  targets : ∀ i ∈ is, ∀ d ∈ i.mbb?, D d
  moves : K mbb → ∀ i ∈ is, MovesFit Q i
  splitOff : ∀ N ∈ after, K N → ∀ j ∈ is, ∀ i ∈ is, SplitFits Q j i

namespace Filled

variable {K : Nat → Prop} {Q : MachineInstr → Prop} {D : Nat → Prop} {st st' : PassState}

theorem congr (h : Filled K Q st) (hi : st'.instrs = st.instrs) (hn : st'.nextMBB = st.nextMBB) :
    Filled K Q st' := by
  intro b hb hK
  rw [hi]
  exact h b (hn ▸ hb) hK

theorem setInstrs (h : Filled K Q st) (b : Nat) {is : List MachineInstr}
    (his : b < st.nextMBB → K b → ∀ i ∈ is, Q i) : Filled K Q (st.setInstrs b is) := by
  intro c hc hK i hi
  rw [setInstrs_instrs] at hi
  split at hi
  · rename_i hcb
    subst hcb
    exact his hc hK i hi
  · exact h c hc hK i hi

/-- A block is extended. -/
theorem append (h : Filled K Q st) (b : Nat) {is : List MachineInstr} (his : K b → ∀ i ∈ is, Q i) :
    Filled K Q (st.setInstrs b (st.instrs b ++ is)) :=
  h.setInstrs b fun hb hK i hi => (List.mem_append.mp hi).elim (h b hb hK i) (his hK i)

theorem buildMI (h : Filled K Q st) (b : Nat) {i : MachineInstr} (hi : Q i) :
    Filled K Q (st.buildMI b i) :=
  h.append b fun _ _ hj => List.mem_singleton.mp hj ▸ hi

theorem buildMIBefore (h : Filled K Q st) (b : Nat) {i : MachineInstr} (hi : K b → Q i) :
    Filled K Q (st.buildMIBefore b i) := by
  refine h.setInstrs b fun hb hK j hj => ?_
  rcases List.mem_append.mp hj with hj | hj
  · exact h b hb hK j (List.dropLast_subset _ hj)
  · rcases List.mem_cons.mp hj with rfl | hj
    · exact hi hK
    · exact h b hb hK j (List.mem_of_getLast? (Option.mem_toList.mp hj))

theorem eraseLast (h : Filled K Q st) (b : Nat) : Filled K Q (st.eraseLast b) :=
  h.setInstrs b fun hb hK i hi => h b hb hK i (List.dropLast_subset _ hi)

theorem addSuccessor (h : Filled K Q st) (b c : Nat) : Filled K Q (st.addSuccessor b c) :=
  h.congr (funext fun _ => addSuccessor_instrs ..) rfl

theorem withBlock (h : Filled K Q st) : Filled K Q st.withBlock := by
  intro b hb hK i hi
  rw [withBlock_nextMBB] at hb
  rw [withBlock_instrs] at hi
  split at hi
  · cases hi
  · exact h b (by omega) hK i hi

theorem withTrampoline (h : Filled K Q st) (mbb : Nat) (dest : Option Nat)
    (hd : ∀ d, dest = some d → Q (jmp4 d)) : Filled K Q (st.withTrampoline mbb dest) := by
  intro b hb hK i hi
  rw [withTrampoline_nextMBB] at hb
  rw [withTrampoline_instrs] at hi
  split at hi
  · obtain ⟨d, hdm, rfl⟩ := List.mem_map.mp hi
    exact hd d (Option.mem_toList.mp hdm)
  · exact h b (by omega) hK i hi

theorem closed (h : Filled K Q st) {mbb : Nat} (hj : Q (jmp4 mbb)) (c : Option Nat) :
    Filled K Q (st.closed mbb c) := by
  cases c with
  | none => exact h
  | some z => exact (h.buildMI z hj).addSuccessor z mbb

theorem skipped (h : Filled K Q st) (hQ : Fits Q D) (dummyInstr : Bool) (mbb z : Nat) {f : Nat}
    (hf : D f) : Filled K Q (st.skipped dummyInstr mbb z f) := by
  have ht : Filled K Q (st.withTrampoline mbb none) := h.withTrampoline mbb none nofun
  have hd : Filled K Q (if dummyInstr then (st.withTrampoline mbb none).addDummyInstructions mbb z
      else st.withTrampoline mbb none) := by
    split
    · refine ht.append z fun _ i hi => ?_
      rw [List.eq_of_mem_replicate hi]
      exact hQ.dummyAdd
    · exact ht
  exact ((hd.buildMI z (hQ.lea _)).buildMI z (hQ.jmp4 f hf)).addSuccessor z f

end Filled

section

variable {K : Nat → Prop} {Q : MachineInstr → Prop} {D : Nat → Prop} {k mbb : Nat}
  {st st' : PassState} {mi : MachineInstr}

theorem updateLanes_filled {dummyInstr : Bool} {fakeBlock : Option Nat} {lanes : List BlockLane}
    {tk tk' : Option Nat}
    (h : updateLanes dummyInstr mbb fakeBlock lanes st tk = .ok (st', tk')) (hQ : Fits Q D)
    (hm : D mbb) (hf : ∀ f ∈ fakeBlock, D f) (hF : Filled K Q st) : Filled K Q st' := by
  induction lanes generalizing st tk with
  | nil =>
    simp only [updateLanes, Except.ok.injEq, Prod.mk.injEq] at h
    exact h.1 ▸ hF
  | cons lane rest ih =>
    by_cases ha : lane.Arrives mbb
    · rw [updateLanes_arrive ha] at h
      have hF' := hF.closed (hQ.jmp4 mbb hm) lane.currentMBB
      cases tk with
      | none => exact ih h (hF'.congr rfl rfl)
      | some k => exact ih h hF'
    · cases hz : lane.currentMBB with
      | none =>
        rw [updateLanes_dead ha hz] at h
        exact ih h hF
      | some z =>
        rw [updateLanes_skip ha hz] at h
        cases fakeBlock with
        | none => cases h
        | some f => exact ih h ((hF.skipped hQ dummyInstr mbb z (hf f rfl)).congr rfl rfl)

theorem insertFakeBlock_filled {fakeBlock : Option Nat}
    (h : insertFakeBlock st mbb = (fakeBlock, st')) (hQ : Fits Q D) (hF : Filled K Q st) :
    Filled K Q st' := by
  simp only [insertFakeBlock] at h
  split at h
  · cases h
    exact hF
  · simp only [createMachineBasicBlock_eq, Prod.mk.injEq] at h
    obtain ⟨-, rfl⟩ := h
    exact Filled.buildMI (hF.withBlock.congr rfl rfl) _ hQ.jmp64r

theorem replaceNoBranchBlock_filled (ft : Option Nat) (hQ : Fits Q D) (hF : Filled K Q st) :
    Filled K Q (replaceNoBranchBlock st mbb ft k) := by
  cases ft with
  | none => exact hF.congr rfl rfl
  | some d =>
    refine Filled.buildMI ?_ mbb (hQ.lea _)
    exact (hF.withTrampoline mbb none nofun).congr rfl rfl

theorem replaceUnconditionalJump_filled (h : replaceUnconditionalJump st mbb mi k = .ok st')
    (hQ : Fits Q D) (hd : ∀ d ∈ mi.mbb?, D d) (hF : Filled K Q st) : Filled K Q st' := by
  simp only [replaceUnconditionalJump, createNewBBonTrampoline_eq] at h
  split at h
  · cases h
  · rename_i d hmi
    by_cases hp : d ∈ st.processedMBBs
    · simp only [hp, if_true] at h
      cases h
      refine Filled.eraseLast (Filled.buildMIBefore ?_ mbb fun _ => hQ.lea _) mbb
      exact (hF.withTrampoline mbb (some d) fun _ h => Option.some.inj h ▸ hQ.jmp4 d (hd d hmi)).congr rfl rfl
    · simp only [hp, if_false] at h
      cases h
      refine Filled.eraseLast (Filled.buildMIBefore ?_ mbb fun _ => hQ.lea _) mbb
      exact (hF.withTrampoline mbb none nofun).congr rfl rfl

theorem replaceConditionalBranch_filled (h : replaceConditionalBranch st mbb mi k = .ok st')
    (hQ : Fits Q D) (hd : ∀ d ∈ mi.mbb?, D d) (hc : K mbb → MovesFit Q mi) (hF : Filled K Q st) :
    Filled K Q st' := by
  simp only [replaceConditionalBranch, createNewBBonTrampoline_eq,
    withTrampoline_processedMBBs] at h
  split at h
  · cases h
  · rename_i d hmi
    split at h
    · cases h
    · rename_i cmovOpcode hmov
      obtain ⟨cc, ho, rfl⟩ : ∃ cc, mi.opcode = .jcc1 cc ∧ cmovOpcode = .cmov64rr cc := by
        unfold getCorrespondingMovOpcode getCondFromBranchOpc at hmov
        split at hmov
        · rename_i cc ho
          exact ⟨cc, ho, (Option.some.inj hmov).symm⟩
        · cases hmov
      have edits {s : PassState} (hs : Filled K Q s) (zF zT : Nat) :
          Filled K Q ((((s.buildMIBefore mbb (lea targetRegOpcode zF)).buildMIBefore mbb
            (lea tmpReg zT)).buildMIBefore mbb (cmov (.cmov64rr cc))).eraseLast mbb) :=
        (((hs.buildMIBefore mbb fun _ => hQ.lea zF).buildMIBefore mbb
          fun hK => (hc hK cc ho).1 zT).buildMIBefore mbb fun hK => (hc hK cc ho).2).eraseLast mbb
      by_cases hp : d ∈ st.processedMBBs
      · simp only [hp, if_true] at h
        cases h
        refine Filled.congr (edits ?_ _ _) (updateLane_instrs ..) rfl
        exact (hF.withTrampoline mbb none nofun).withTrampoline mbb (some d)
          fun _ h => Option.some.inj h ▸ hQ.jmp4 d (hd d hmi)
      · simp only [hp, if_false] at h
        cases h
        refine Filled.congr (edits ?_ _ _) (updateLane_instrs ..) rfl
        exact ((hF.withTrampoline mbb none nofun).withTrampoline mbb none nofun).congr rfl rfl

theorem splitJump_filled (h : splitJump st mbb mi = .ok st')
    (hmove : ∀ N ∈ st'.after, K N → ∀ d ∈ mi.mbb?, Q ⟨mi.opcode, [.mbb d]⟩)
    (hF : Filled K Q st) : st'.after = st.nextMBB :: st.after ∧ Filled K Q st' := by
  simp only [splitJump, createMachineBasicBlock_eq] at h
  split at h
  · cases h
  · rename_i d hmi
    cases h
    refine ⟨rfl, Filled.eraseLast (Filled.addSuccessor ?_ mbb _) mbb⟩
    refine (hF.withBlock.congr rfl rfl : Filled K Q (st.withBlock.insertNext st.nextMBB)).append _
      fun hK i hi => ?_
    rw [List.mem_singleton] at hi
    exact hi ▸ hmove _ (by simp) hK d hmi

theorem replaceConditionalBranch_after (h : replaceConditionalBranch st mbb mi k = .ok st') :
    st'.after = st.after := by
  simp only [replaceConditionalBranch, createNewBBonTrampoline_eq,
    withTrampoline_processedMBBs] at h
  split at h
  · cases h
  · rename_i d _
    split at h
    · cases h
    · by_cases hp : d ∈ st.processedMBBs
      · simp only [hp, if_true] at h
        cases h
        simp
      · simp only [hp, if_false] at h
        cases h
        simp

theorem replaceTerminator_filled {ft : Option Nat} (h : replaceTerminator st mbb ft k = .ok st')
    (hQ : EndFits K Q D mbb (st.instrs mbb) st'.after) (hF : Filled K Q st) : Filled K Q st' := by
  have hd := hQ.targets
  have hc := hQ.moves
  have hQ' := hQ.toFits
  unfold replaceTerminator at h
  split at h
  · cases h
    exact hF
  · rename_i pos hpos
    have hpm : pos ∈ st.instrs mbb := List.mem_of_getLast? hpos
    split at h
    · split at h
      · rename_i hpu _ jcc hjcc
        have hjm : jcc ∈ st.instrs mbb := List.dropLast_subset _ (List.mem_of_getLast? hjcc)
        split at h
        · rename_i hjc
          cases hs : splitJump st mbb pos with
          | error e =>
            rw [hs] at h
            cases h
          | ok s =>
            rw [hs] at h
            have hafter := replaceConditionalBranch_after h
            obtain ⟨-, hF'⟩ := splitJump_filled hs
              (fun N hN hK => hQ.splitOff N (hafter ▸ hN) hK jcc hjm pos hpm hjc hpu) hF
            exact replaceConditionalBranch_filled h hQ' (hd jcc hjm) (fun hK => hc hK jcc hjm) hF'
        · exact replaceUnconditionalJump_filled h hQ' (hd pos hpm) hF
      · exact replaceUnconditionalJump_filled h hQ' (hd pos hpm) hF
    · split at h
      · simp only [replaceIndirectJump] at h
        split at h
        · cases h
          exact hF.congr rfl rfl
        · cases h
      · split at h
        · exact replaceConditionalBranch_filled h hQ' (hd pos hpm) (fun hK => hc hK pos hpm) hF
        · split at h
          · cases h
            exact replaceNoBranchBlock_filled ft hQ' hF
          · cases h

end

/-! ## The blocks that are new -/

/-- The blocks from number `n` on, but for those in `A`, hold only what the pass
inserts. -/
def Made (n : Nat) (A : List Nat) (st : PassState) : Prop :=
  ∀ b, n ≤ b → b < st.nextMBB → b ∉ A → ∀ i ∈ st.instrs b, Inserted i

theorem made_iff_filled {n : Nat} {A : List Nat} {st : PassState} :
    Made n A st ↔ Filled (fun b => n ≤ b ∧ b ∉ A) Inserted st :=
  ⟨fun h b hb hK => h b hK.1 hb hK.2, fun h b hn hb hA => h b hb ⟨hn, hA⟩⟩

theorem Inserted.fits : Fits Inserted fun _ => True :=
  ⟨.jmp64r, .dummyAdd, .leaTarget, fun d _ => .jmp4 d⟩

end BS.BranchConversion
