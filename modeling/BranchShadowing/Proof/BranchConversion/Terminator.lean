import BranchShadowing.Proof.BranchConversion.Lanes

/-!
# Replacing the end of a block

`Ending` lists how the pass can change the instructions of a block: what stood
at the end, what stands there afterwards, and through which trampolines control
goes on. `replaceTerminator_spec` says that `replaceTerminator` makes one of
these changes to the block, creates trampolines, and leaves all else as it was
(`Replaced`).
-/

namespace BS.BranchConversion

open X86 PassState

/-- The instructions of a block before and after the pass, and the block split
off it. `next z` says that trampoline `z` leads to the block that is walked
next, `leads z d` that it leads to `d`; `ft` is the original fall-through, and
`instrs` the instructions of the block split off. -/
inductive Ending (next : Nat → Prop) (leads : Nat → Nat → Prop) (ft : Option Nat)
    (instrs : Nat → List MachineInstr) :
    List MachineInstr → List MachineInstr → Option Nat → Prop
  | empty : Ending next leads ft instrs [] [] none
  /-- An indirect jump, a return, or a call that does not return. -/
  | leave {pre : List MachineInstr} {i : MachineInstr} :
    i.isUnconditionalBranch = false → i.isConditionalBranch = false →
    (i.isIndirectBranch ∨ ft = none ∧ (i.isReturn ∨ i.isCall)) →
    Ending next leads ft instrs (pre ++ [i]) (pre ++ [i]) none
  | fall {pre : List MachineInstr} {i : MachineInstr} {n z : Nat} :
    i.isUnconditionalBranch = false → i.isConditionalBranch = false →
    i.isIndirectBranch = false → ft = some n → next z →
    Ending next leads ft instrs (pre ++ [i]) (pre ++ [i, lea targetRegOpcode z]) none
  | jump {pre : List MachineInstr} {mi : MachineInstr} {d z : Nat} :
    mi.isUnconditionalBranch → (∀ i, pre.getLast? = some i → i.isConditionalBranch = false) →
    mi.mbb? = some d → leads z d →
    Ending next leads ft instrs (pre ++ [mi]) (pre ++ [lea targetRegOpcode z]) none
  | cond {pre : List MachineInstr} {mi : MachineInstr} {cc : Cond} {d zF zT : Nat} :
    mi.opcode = .jcc1 cc → mi.mbb? = some d → next zF → leads zT d →
    Ending next leads ft instrs (pre ++ [mi])
      (pre ++ [lea targetRegOpcode zF, lea tmpReg zT, cmov (.cmov64rr cc)]) none
  | split {pre : List MachineInstr} {jcc mi : MachineInstr} {cc : Cond} {d d' zF zT N : Nat} :
    jcc.opcode = .jcc1 cc → jcc.mbb? = some d → mi.isUnconditionalBranch → mi.mbb? = some d' →
    next zF → leads zT d → instrs N = [⟨mi.opcode, [.mbb d']⟩] →
    Ending next leads ft instrs (pre ++ [jcc, mi])
      (pre ++ [lea targetRegOpcode zF, lea tmpReg zT, cmov (.cmov64rr cc)]) (some N)

theorem Ending.mono {next next' : Nat → Prop} {leads leads' : Nat → Nat → Prop}
    {ft : Option Nat} {instrs instrs' : Nat → List MachineInstr} {is is' : List MachineInstr}
    {o : Option Nat} (h : Ending next leads ft instrs is is' o) (hn : ∀ z, next z → next' z)
    (hl : ∀ z d, leads z d → leads' z d) (hi : ∀ N ∈ o, instrs' N = instrs N) :
    Ending next' leads' ft instrs' is is' o := by
  cases h with
  | empty => exact .empty
  | leave hu hc h => exact .leave hu hc h
  | fall hu hc hb hf h => exact .fall hu hc hb hf (hn _ h)
  | jump hu hp hd h => exact .jump hu hp hd (hl _ _ h)
  | cond ho hd h h' => exact .cond ho hd (hn _ h) (hl _ _ h')
  | split ho hd hu hd' h h' hN =>
    exact .split ho hd hu hd' (hn _ h) (hl _ _ h') ((hi _ rfl).trans hN)

/-- Trampoline `z` is that of the lane that takes the next block. -/
def PassState.LeadsNext (st : PassState) (z : Nat) : Prop :=
  ⟨some z, none, true⟩ ∈ st.takenBlocks

/-- Trampoline `z` is that of a lane to `d`, which is still to come, or jumps back to `d`. -/
def PassState.Leads (st : PassState) (z d : Nat) : Prop :=
  ⟨some z, some d, false⟩ ∈ st.takenBlocks ∧ d ∉ st.processedMBBs ∨
    d ∈ st.processedMBBs ∧ z ∉ st.processedMBBs ∧ z ∈ st.before ∧
      z ∉ currents st.takenBlocks ∧ st.instrs z = [jmp4 d]

/-! ## The instructions of the block -/

theorem isBranch_of_unconditional {i : MachineInstr} (h : i.isUnconditionalBranch) : i.isBranch := by
  simp only [MachineInstr.isUnconditionalBranch, Bool.and_eq_true] at h
  exact h.1.1

theorem isBranch_of_conditional {i : MachineInstr} (h : i.isConditionalBranch) : i.isBranch := by
  simp only [MachineInstr.isConditionalBranch, Bool.and_eq_true] at h
  exact h.1.1

theorem isUnconditionalBranch_of_jmp1 {i : MachineInstr} (h : i.opcode = .jmp1) :
    i.isUnconditionalBranch := by
  simp [MachineInstr.isUnconditionalBranch, MachineInstr.isBranch, MachineInstr.isBarrier,
    MachineInstr.isIndirectBranch, h, Opcode.desc]

theorem flags_of_jcc1 {i : MachineInstr} {cc : Cond} (h : i.opcode = .jcc1 cc) :
    i.isConditionalBranch = true ∧ i.isUnconditionalBranch = false ∧
      i.isIndirectBranch = false := by
  simp [MachineInstr.isConditionalBranch, MachineInstr.isUnconditionalBranch,
    MachineInstr.isBranch, MachineInstr.isBarrier, MachineInstr.isIndirectBranch, h, Opcode.desc]

section

variable {st : PassState} {b : Nat} {pre : List MachineInstr} {mi : MachineInstr}

theorem buildMIBefore_instrs (h : st.instrs b = pre ++ [mi]) (i : MachineInstr) :
    (st.buildMIBefore b i).instrs b = pre ++ [i] ++ [mi] := by
  simp [h]

theorem eraseLast_instrs (h : st.instrs b = pre ++ [mi]) : (st.eraseLast b).instrs b = pre := by
  simp [h]

end

/-! ## The routines -/

section

variable {st st' : PassState} {mbb k : Nat} {pre : List MachineInstr} {mi : MachineInstr}

/-- What `replaceUnconditionalJump` does once it has its trampoline and lane. -/
theorem jump_fields (hm : mbb < st.nextMBB) (hpre : st.instrs mbb = pre ++ [mi])
    (dest a c : Option Nat)
    (hst' : st' = ((((st.withTrampoline mbb dest).updateLane k a c false).buildMIBefore mbb
      (lea targetRegOpcode st.nextMBB)).eraseLast mbb)) :
    st'.before = st.nextMBB :: st.before ∧ st'.after = st.after ∧
      st'.nextMBB = st.nextMBB + 1 ∧ st'.processedMBBs = st.processedMBBs ∧
      st'.takenBlocks = st.takenBlocks.set k ⟨a, c, false⟩ ∧
      (∀ b, st'.instrs b =
        if b = mbb then pre ++ [lea targetRegOpcode st.nextMBB]
        else if b = st.nextMBB then dest.toList.map jmp4 else st.instrs b) ∧
      ∀ b, b ≠ mbb → b ≠ st.nextMBB → st'.blocks b = st.blocks b := by
  have hne : mbb ≠ st.nextMBB := Nat.ne_of_lt hm
  subst hst'
  refine ⟨by simp, by simp, by simp, by simp, by simp, fun b => ?_, fun b hb hn => ?_⟩
  · by_cases hb : b = mbb
    · subst hb
      simp [hne, hpre]
    · simp [hb]
  · simp only [eraseLast, buildMIBefore]
    rw [setInstrs_blocks _ _ hb, setInstrs_blocks _ _ hb, updateLane_blocks,
      withTrampoline_blocks _ _ hn hb]

theorem replaceUnconditionalJump_ok (h : replaceUnconditionalJump st mbb mi k = .ok st') :
    ∃ d, mi.mbb? = some d ∧
      st' = if d ∈ st.processedMBBs then
          (((st.withTrampoline mbb (some d)).updateLane k none none false).buildMIBefore mbb
            (lea targetRegOpcode st.nextMBB)).eraseLast mbb
        else
          (((st.withTrampoline mbb none).updateLane k (some st.nextMBB) (some d) false).buildMIBefore
            mbb (lea targetRegOpcode st.nextMBB)).eraseLast mbb := by
  simp only [replaceUnconditionalJump] at h
  cases hd : mi.mbb? with
  | none =>
    rw [hd] at h
    cases h
  | some d =>
    rw [hd] at h
    cases h
    refine ⟨d, rfl, ?_⟩
    by_cases hp : d ∈ st.processedMBBs
    · simp only [hp, if_true, createNewBBonTrampoline_eq]
    · simp only [hp, if_false, createNewBBonTrampoline_eq]

/-- `replaceConditionalBranch` has replaced the branch on `cc` to `d` behind
`pre`. -/
structure ConditionalReplaced (st : PassState) (mbb k : Nat) (pre : List MachineInstr) (d : Nat)
    (cc : Cond) (st' : PassState) : Prop where
  before : st'.before = (st.nextMBB + 1) :: st.nextMBB :: st.before
  after : st'.after = st.after
  nextMBB : st'.nextMBB = st.nextMBB + 2
  processedMBBs : st'.processedMBBs = st.processedMBBs
  takenBlocks : st'.takenBlocks =
    (st.takenBlocks ++ if d ∈ st.processedMBBs then []
      else [(⟨some (st.nextMBB + 1), some d, false⟩ : BlockLane)]).set k ⟨some st.nextMBB, none, true⟩
  instrs : ∀ b, st'.instrs b =
    if b = mbb then
      pre ++ [lea targetRegOpcode st.nextMBB, lea tmpReg (st.nextMBB + 1), cmov (.cmov64rr cc)]
    else if b = st.nextMBB + 1 then if d ∈ st.processedMBBs then [jmp4 d] else []
    else if b = st.nextMBB then [] else st.instrs b
  blocks : ∀ b, b ≠ mbb → b ≠ st.nextMBB → b ≠ st.nextMBB + 1 → st'.blocks b = st.blocks b

/-- What `replaceConditionalBranch` does once it has its trampolines and lanes,
`s`. -/
theorem ConditionalReplaced.of_state {s : PassState} {d : Nat} {cc : Cond}
    (hm : mbb < st.nextMBB) (hpre : st.instrs mbb = pre ++ [mi])
    (hs : s = if d ∈ st.processedMBBs then
        (st.withTrampoline mbb none).withTrampoline mbb (some d)
      else ((st.withTrampoline mbb none).withTrampoline mbb none).pushLane
        ⟨some (st.nextMBB + 1), some d, false⟩)
    (hst' : st' = (((((s.buildMIBefore mbb (lea targetRegOpcode st.nextMBB)).buildMIBefore mbb
      (lea tmpReg (st.nextMBB + 1))).buildMIBefore mbb (cmov (.cmov64rr cc))).eraseLast
        mbb).updateLane k (some st.nextMBB) none true)) :
    ConditionalReplaced st mbb k pre d cc st' := by
  have hne : mbb ≠ st.nextMBB := Nat.ne_of_lt hm
  have hne' : mbb ≠ st.nextMBB + 1 := by omega
  have hi (b : Nat) : s.instrs b =
      if b = st.nextMBB + 1 then if d ∈ st.processedMBBs then [jmp4 d] else []
      else if b = st.nextMBB then [] else st.instrs b := by
    by_cases hp : d ∈ st.processedMBBs <;> simp [hs, hp]
  have h₀ : s.instrs mbb = pre ++ [mi] := by rw [hi, if_neg hne', if_neg hne, hpre]
  have h₁ := buildMIBefore_instrs h₀ (lea targetRegOpcode st.nextMBB)
  have h₂ := buildMIBefore_instrs h₁ (lea tmpReg (st.nextMBB + 1))
  have h₃ := buildMIBefore_instrs h₂ (cmov (.cmov64rr cc))
  subst hst'
  refine ⟨?_, ?_, ?_, ?_, ?_, fun b => ?_, fun b hb hb₀ hb₁ => ?_⟩
  · by_cases hp : d ∈ st.processedMBBs <;> simp [hs, hp]
  · by_cases hp : d ∈ st.processedMBBs <;> simp [hs, hp]
  · by_cases hp : d ∈ st.processedMBBs <;> simp [hs, hp]
  · by_cases hp : d ∈ st.processedMBBs <;> simp [hs, hp]
  · by_cases hp : d ∈ st.processedMBBs <;> simp [hs, hp]
  · by_cases hb : b = mbb
    · subst hb
      rw [updateLane_instrs, eraseLast_instrs h₃, if_pos rfl]
      simp
    · rw [if_neg hb, ← hi]
      simp [hb]
  · have hsb : s.blocks b = st.blocks b := by
      have h₁ (o : Option Nat) :
          ((st.withTrampoline mbb none).withTrampoline mbb o).blocks b = st.blocks b := by
        rw [withTrampoline_blocks _ _ (by simpa using hb₁) hb, withTrampoline_blocks _ _ hb₀ hb]
      by_cases hp : d ∈ st.processedMBBs
      · rw [hs, if_pos hp, h₁]
      · rw [hs, if_neg hp, pushLane_blocks, h₁]
    simp only [eraseLast, buildMIBefore, updateLane_blocks]
    rw [setInstrs_blocks _ _ hb, setInstrs_blocks _ _ hb, setInstrs_blocks _ _ hb,
      setInstrs_blocks _ _ hb, hsb]

theorem replaceConditionalBranch_ok (h : replaceConditionalBranch st mbb mi k = .ok st')
    (hm : mbb < st.nextMBB) (hpre : st.instrs mbb = pre ++ [mi]) :
    ∃ d cc, mi.mbb? = some d ∧ mi.opcode = .jcc1 cc ∧
      ConditionalReplaced st mbb k pre d cc st' := by
  simp only [replaceConditionalBranch] at h
  cases hd : mi.mbb? with
  | none =>
    rw [hd] at h
    cases h
  | some d =>
    rw [hd] at h
    cases hc : getCorrespondingMovOpcode mi with
    | none =>
      rw [hc] at h
      cases h
    | some opcode =>
      rw [hc] at h
      obtain ⟨cc, hop, rfl⟩ : ∃ cc, mi.opcode = .jcc1 cc ∧ opcode = .cmov64rr cc := by
        simp only [getCorrespondingMovOpcode, getCondFromBranchOpc] at hc
        split at hc
        · rename_i cc hcc
          exact ⟨cc, hcc, (Option.some.inj hc).symm⟩
        · cases hc
      refine ⟨d, cc, rfl, hop, .of_state hm hpre rfl ?_⟩
      by_cases hp : d ∈ st.processedMBBs
      · simp only [hp, if_true, createNewBBonTrampoline_eq, Except.ok.injEq,
          withTrampoline_processedMBBs, withTrampoline_nextMBB] at h ⊢
        exact h.symm
      · simp only [hp, if_false, createNewBBonTrampoline_eq, Except.ok.injEq,
          withTrampoline_processedMBBs, withTrampoline_nextMBB] at h ⊢
        exact h.symm

theorem splitJump_ok (h : splitJump st mbb mi = .ok st') (hm : mbb < st.nextMBB)
    (hpre : st.instrs mbb = pre ++ [mi]) :
    ∃ d, mi.mbb? = some d ∧ st'.before = st.before ∧ st'.after = st.nextMBB :: st.after ∧
      st'.nextMBB = st.nextMBB + 1 ∧ st'.processedMBBs = st.processedMBBs ∧
      st'.takenBlocks = st.takenBlocks ∧
      (∀ b, st'.instrs b =
        if b = mbb then pre else if b = st.nextMBB then [⟨mi.opcode, [.mbb d]⟩]
        else st.instrs b) ∧
      st'.blocks st.nextMBB = { instrs := [⟨mi.opcode, [.mbb d]⟩] } ∧
      ∀ b, b ≠ mbb → b ≠ st.nextMBB → st'.blocks b = st.blocks b := by
  have hne : mbb ≠ st.nextMBB := Nat.ne_of_lt hm
  simp only [splitJump] at h
  cases hd : mi.mbb? with
  | none =>
    rw [hd] at h
    cases h
  | some d =>
    rw [hd] at h
    simp only [createMachineBasicBlock_eq, Except.ok.injEq] at h
    subst h
    refine ⟨d, rfl, by simp, by simp, by simp, by simp, by simp, fun b => ?_, ?_,
      fun b hb hn => ?_⟩
    · by_cases hb : b = mbb
      · subst hb
        simp [hne, hpre]
      · by_cases hn : b = st.nextMBB
        · subst hn
          simp [hb]
        · simp [hb, hn]
    · simp [eraseLast, buildMI, setInstrs, addSuccessor, instrs, withBlock, hne.symm]
    · simp only [eraseLast, buildMI]
      rw [setInstrs_blocks _ _ hb, addSuccessor_blocks _ _ hb, setInstrs_blocks _ _ hn,
        insertNext_blocks, withBlock_blocks _ hn]

end

/-! ## The dispatch -/

/-- A lane that is left or made when the end of a block `is` is replaced, after
blocks `ps` have been walked; its trampoline is new, from number `n` on. -/
inductive NewLane (n : Nat) (is : List MachineInstr) (ps : List Nat) (ft : Option Nat)
    (st' : PassState) : BlockLane → Prop
  | dead : NewLane n is ps ft st' ⟨none, none, false⟩
  | next {z : Nat} : n ≤ z → z < st'.nextMBB → z ∈ st'.before → st'.instrs z = [] →
    (st'.after ≠ [] ∨ ft.isSome ∨ ∃ i, is.getLast? = some i ∧ i.isConditionalBranch) →
    NewLane n is ps ft st' ⟨some z, none, true⟩
  | toward {z d : Nat} : n ≤ z → z < st'.nextMBB → z ∈ st'.before → st'.instrs z = [] →
    d ∉ ps → (∃ i ∈ is, i.isBranch ∧ i.mbb? = some d) →
    NewLane n is ps ft st' ⟨some z, some d, false⟩

/-- The end of block `mbb` has been replaced. -/
structure Replaced (st : PassState) (mbb : Nat) (ft : Option Nat) (k : Nat) (st' : PassState) :
    Prop where
  processedMBBs : st'.processedMBBs = st.processedMBBs
  nextMBB : st.nextMBB ≤ st'.nextMBB
  before : ∃ tr, st'.before = tr ++ st.before ∧ tr.Nodup ∧
    ∀ b ∈ tr, st.nextMBB ≤ b ∧ b < st'.nextMBB
  instrs : ∀ b < st.nextMBB, b ≠ mbb → st'.instrs b = st.instrs b
  blocks : ∀ b < st.nextMBB, b ≠ mbb → st'.blocks b = st.blocks b
  ending : ∃ o, Ending st'.LeadsNext st'.Leads ft st'.instrs (st.instrs mbb) (st'.instrs mbb) o ∧
    st'.after = o.toList ++ st.after ∧
    ∀ N ∈ o, st.nextMBB ≤ N ∧ N < st'.nextMBB ∧ N ∉ st'.before ∧ (st'.blocks N).succs = []
  lanes : st.instrs mbb ≠ [] → ∃ new, st'.takenBlocks.Perm (new ++ st.takenBlocks.eraseIdx k) ∧
    (currents new).Nodup ∧
    ∀ lane ∈ new, NewLane st.nextMBB (st.instrs mbb) st.processedMBBs ft st' lane
  oneTaken : st.instrs mbb ≠ [] →
    st'.takenBlocks.countP BlockLane.taken ≤ 1 + (st.takenBlocks.eraseIdx k).countP BlockLane.taken
  created : ∀ b, st.nextMBB ≤ b → b < st'.nextMBB →
    b ∈ st'.after ∨ b ∈ currents st'.takenBlocks ∨ ∃ d, st'.instrs b = [jmp4 d]
  empty : st.instrs mbb = [] → st' = st

theorem perm_set {lanes : List BlockLane} {k : Nat} (hk : k < lanes.length) (lane : BlockLane)
    (extra : List BlockLane) :
    ((lanes ++ extra).set k lane).Perm (lane :: extra ++ lanes.eraseIdx k) := by
  rw [List.set_append_left _ _ hk]
  refine ((List.set_perm_cons_eraseIdx hk lane).append_right extra).trans ?_
  exact List.Perm.cons _ List.perm_append_comm

/-- Of the lanes that are left, one at most takes the next block besides those kept. -/
theorem countP_taken_set {lanes lanes' extra : List BlockLane} {k : Nat} {lane : BlockLane}
    (hk : k < lanes.length) (h : lanes' = (lanes ++ extra).set k lane)
    (hextra : ∀ l ∈ extra, l.taken = false) :
    lanes'.countP BlockLane.taken ≤ 1 + (lanes.eraseIdx k).countP BlockLane.taken := by
  have hzero : extra.countP BlockLane.taken = 0 :=
    List.countP_eq_zero.mpr fun l hl => by simp [hextra l hl]
  have hle : [lane].countP BlockLane.taken ≤ 1 := List.countP_le_length
  rw [h, (perm_set hk lane extra).countP_eq, List.countP_append, ← List.singleton_append,
    List.countP_append, hzero]
  omega

theorem countP_taken_update {lanes lanes' : List BlockLane} {k : Nat} {lane : BlockLane}
    (hk : k < lanes.length) (h : lanes' = lanes.set k lane) :
    lanes'.countP BlockLane.taken ≤ 1 + (lanes.eraseIdx k).countP BlockLane.taken :=
  countP_taken_set hk (show lanes' = (lanes ++ []).set k lane by rw [h, List.append_nil]) (by simp)

theorem mem_currents_perm {l l' : List BlockLane} (h : l.Perm l') {z : Nat} :
    z ∈ currents l ↔ z ∈ currents l' :=
  (h.filterMap _).mem_iff

section

variable {st st' : PassState} {mbb k : Nat} {ft : Option Nat} {pre : List MachineInstr}
  {mi : MachineInstr}

theorem mem_takenBlocks_set (hk : k < st.takenBlocks.length) {lane : BlockLane}
    (ht : st'.takenBlocks = st.takenBlocks.set k lane) : lane ∈ st'.takenBlocks := by
  rw [ht]
  exact List.mem_set hk lane

theorem LeadsNext.current {z : Nat} (h : st.LeadsNext z) : z ∈ currents st.takenBlocks :=
  currents_mem h rfl

/-- A trampoline that leads somewhere is that of a lane, or jumps. -/
theorem Leads.created {z d : Nat} (h : st.Leads z d) :
    z ∈ currents st.takenBlocks ∨ ∃ d, st.instrs z = [jmp4 d] :=
  h.imp (fun h => currents_mem h.1 rfl) fun ⟨_, _, _, _, hi⟩ => ⟨d, hi⟩

/-- The lane to be taken dies. -/
theorem Replaced.of_dead (hpre : st.instrs mbb = pre ++ [mi]) (hk : k < st.takenBlocks.length)
    (hu : mi.isUnconditionalBranch = false) (hc : mi.isConditionalBranch = false)
    (h : mi.isIndirectBranch ∨ ft = none ∧ (mi.isReturn ∨ mi.isCall)) :
    Replaced st mbb ft k (st.updateLane k none none false) where
  processedMBBs := rfl
  nextMBB := Nat.le_refl _
  before := ⟨[], rfl, List.nodup_nil, by simp⟩
  instrs _ _ _ := rfl
  blocks _ _ _ := rfl
  ending := ⟨none, by
    rw [updateLane_instrs, hpre]
    exact .leave hu hc h, rfl, by simp⟩
  lanes _ := by
    refine ⟨[⟨none, none, false⟩], ?_, List.nodup_nil, ?_⟩
    · simpa using perm_set hk ⟨none, none, false⟩ []
    · intro lane hl
      cases List.mem_singleton.mp hl
      exact .dead
  oneTaken _ := countP_taken_update hk rfl
  created b hb hlt := absurd hlt (Nat.not_lt.mpr hb)
  empty h := by simp [hpre] at h

/-- The lane to be taken goes on to the next block. -/
theorem Replaced.of_fall {n : Nat} (hpre : st.instrs mbb = pre ++ [mi])
    (hm : mbb < st.nextMBB) (hk : k < st.takenBlocks.length)
    (hu : mi.isUnconditionalBranch = false) (hc : mi.isConditionalBranch = false)
    (hi : mi.isIndirectBranch = false) :
    Replaced st mbb (some n) k (replaceNoBranchBlock st mbb (some n) k) := by
  have hne : mbb ≠ st.nextMBB := Nat.ne_of_lt hm
  have heq : replaceNoBranchBlock st mbb (some n) k =
      ((st.withTrampoline mbb none).updateLane k (some st.nextMBB) none true).buildMI mbb
        (lea targetRegOpcode st.nextMBB) := rfl
  have ht : (replaceNoBranchBlock st mbb (some n) k).takenBlocks =
      st.takenBlocks.set k ⟨some st.nextMBB, none, true⟩ := by simp [heq]
  exact
    { processedMBBs := by simp [heq]
      nextMBB := by simp [heq]
      before := ⟨[st.nextMBB], by simp [heq], List.nodup_singleton _, by simp [heq]⟩
      instrs := fun b hb hbm => by simp [heq, hbm, Nat.ne_of_lt hb]
      blocks := fun b hb hbm => by
        rw [heq, buildMI, setInstrs_blocks _ _ hbm, updateLane_blocks,
          withTrampoline_blocks _ _ (Nat.ne_of_lt hb) hbm]
      ending := ⟨none, by
        have : (replaceNoBranchBlock st mbb (some n) k).instrs mbb =
            pre ++ [mi, lea targetRegOpcode st.nextMBB] := by simp [heq, hne, hpre]
        rw [this, hpre]
        exact .fall hu hc hi rfl (mem_takenBlocks_set hk ht), by simp [heq], by simp⟩
      lanes := fun _ => by
        refine ⟨[⟨some st.nextMBB, none, true⟩], ?_, List.nodup_singleton _, ?_⟩
        · rw [ht]
          simpa using perm_set hk ⟨some st.nextMBB, none, true⟩ []
        · intro lane hl
          cases List.mem_singleton.mp hl
          exact .next (Nat.le_refl _) (by simp [heq]) (by simp [heq]) (by simp [heq, hne.symm])
            (.inr (.inl rfl))
      oneTaken := fun _ => countP_taken_update hk ht
      created := fun b hb hlt => by
        have hn : (replaceNoBranchBlock st mbb (some n) k).nextMBB = st.nextMBB + 1 := by simp [heq]
        obtain rfl : b = st.nextMBB := by omega
        exact .inr (.inl (currents_mem (mem_takenBlocks_set hk ht) rfl))
      empty := fun h => by simp [hpre] at h }

/-- The jump at the end of the block becomes a trampoline. -/
theorem Replaced.of_jump (h : replaceUnconditionalJump st mbb mi k = .ok st')
    (hpre : st.instrs mbb = pre ++ [mi]) (hm : mbb < st.nextMBB) (hk : k < st.takenBlocks.length)
    (hkept : ∀ z ∈ currents (st.takenBlocks.eraseIdx k), z < st.nextMBB)
    (hproc : ∀ b ∈ st.processedMBBs, b < st.nextMBB) (hu : mi.isUnconditionalBranch)
    (hp : ∀ i, pre.getLast? = some i → i.isConditionalBranch = false) :
    Replaced st mbb ft k st' := by
  have hne : mbb ≠ st.nextMBB := Nat.ne_of_lt hm
  obtain ⟨d, hd, he⟩ := replaceUnconditionalJump_ok h
  have key : ∀ dest a c,
      NewLane st.nextMBB (st.instrs mbb) st.processedMBBs ft st' ⟨a, c, false⟩ →
      st'.Leads st.nextMBB d →
      st' = (((st.withTrampoline mbb dest).updateLane k a c false).buildMIBefore mbb
        (lea targetRegOpcode st.nextMBB)).eraseLast mbb → Replaced st mbb ft k st' := by
    intro dest a c hlane hleads he
    obtain ⟨hb, haf, hn, hpr, ht, hi, hbl⟩ := jump_fields hm hpre dest a c he
    exact
      { processedMBBs := hpr
        nextMBB := by omega
        before := ⟨[st.nextMBB], hb, List.nodup_singleton _, by simp [hn]⟩
        instrs := fun b hb hbm => by rw [hi, if_neg hbm, if_neg (Nat.ne_of_lt hb)]
        blocks := fun b hb hbm => hbl b hbm (Nat.ne_of_lt hb)
        ending := ⟨none, by
          rw [hi mbb, if_pos rfl, hpre]
          exact .jump hu hp hd hleads, haf, by simp⟩
        lanes := fun _ => by
          refine ⟨[⟨a, c, false⟩], ?_, ?_, ?_⟩
          · rw [ht]
            simpa using perm_set hk ⟨a, c, false⟩ []
          · cases a
            · exact List.nodup_nil
            · exact List.nodup_singleton _
          · intro lane hl
            cases List.mem_singleton.mp hl
            exact hlane
        oneTaken := fun _ => countP_taken_update hk ht
        created := fun b hb hlt => by
          obtain rfl : b = st.nextMBB := by omega
          exact .inr (Leads.created hleads)
        empty := fun h => by simp [hpre] at h }
  by_cases hdp : d ∈ st.processedMBBs
  · rw [if_pos hdp] at he
    obtain ⟨hb, -, -, hpr, ht, hi, -⟩ := jump_fields hm hpre _ _ _ he
    refine key _ _ _ .dead (.inr ⟨hpr ▸ hdp, ?_, by simp [hb], ?_, ?_⟩) he
    · rw [hpr]
      exact fun h => Nat.lt_irrefl _ (hproc _ h)
    · rw [ht, mem_currents_perm (List.set_perm_cons_eraseIdx hk _)]
      intro hz
      exact Nat.lt_irrefl _ (hkept _ hz)
    · rw [hi, if_neg hne.symm, if_pos rfl]
      rfl
  · rw [if_neg hdp] at he
    obtain ⟨hb, -, hn, hpr, ht, hi, -⟩ := jump_fields hm hpre _ _ _ he
    refine key _ _ _ (.toward (Nat.le_refl _) (by omega) (by simp [hb]) ?_ hdp ⟨mi, ?_, isBranch_of_unconditional hu, hd⟩)
      (.inl ⟨mem_takenBlocks_set hk ht, hpr ▸ hdp⟩) he
    · rw [hi, if_neg hne.symm, if_pos rfl]
      rfl
    · simp [hpre]

theorem ConditionalReplaced.countP_taken {d : Nat} {cc : Cond} {s : PassState}
    (h : ConditionalReplaced s mbb k pre d cc st') (hk : k < s.takenBlocks.length) :
    st'.takenBlocks.countP BlockLane.taken ≤
      1 + (s.takenBlocks.eraseIdx k).countP BlockLane.taken := by
  refine countP_taken_set hk h.takenBlocks fun l hl => ?_
  split at hl
  · cases hl
  · rw [List.mem_singleton.mp hl]

/-- The trampolines and lanes that `replaceConditionalBranch` makes. -/
theorem ConditionalReplaced.lanes {d : Nat} {cc : Cond} {s : PassState}
    (h : ConditionalReplaced s mbb k pre d cc st') (hm : mbb < s.nextMBB)
    (hk : k < s.takenBlocks.length)
    (hkept : ∀ z ∈ currents (s.takenBlocks.eraseIdx k), z < s.nextMBB)
    (hproc : ∀ b ∈ s.processedMBBs, b < s.nextMBB) :
    st'.LeadsNext s.nextMBB ∧ st'.Leads (s.nextMBB + 1) d ∧ st'.instrs s.nextMBB = [] ∧
      ∃ new, st'.takenBlocks.Perm (new ++ s.takenBlocks.eraseIdx k) ∧ (currents new).Nodup ∧
        ∀ lane ∈ new, lane = ⟨some s.nextMBB, none, true⟩ ∨
          lane = ⟨some (s.nextMBB + 1), some d, false⟩ ∧ d ∉ s.processedMBBs ∧
            st'.instrs (s.nextMBB + 1) = [] := by
  have hF : st'.instrs s.nextMBB = [] := by
    rw [h.instrs, if_neg (Nat.ne_of_gt hm), if_neg (by omega), if_pos rfl]
  have hT : st'.instrs (s.nextMBB + 1) = if d ∈ s.processedMBBs then [jmp4 d] else [] := by
    rw [h.instrs, if_neg (by omega), if_pos rfl]
  have ht := h.takenBlocks
  by_cases hp : d ∈ s.processedMBBs
  · rw [if_pos hp] at hT ht
    have hperm := perm_set hk ⟨some s.nextMBB, none, true⟩ []
    rw [← ht] at hperm
    refine ⟨?_, .inr ⟨h.processedMBBs ▸ hp, ?_, by simp [h.before], ?_, hT⟩, hF,
      _, hperm, List.nodup_singleton _, ?_⟩
    · exact hperm.mem_iff.mpr (List.mem_cons_self ..)
    · rw [h.processedMBBs]
      intro hz
      have := hproc _ hz
      omega
    · rw [mem_currents_perm hperm]
      intro hz
      simp only [List.singleton_append, currents, List.filterMap_cons, List.mem_cons] at hz
      rcases hz with hz | hz
      · omega
      · have := hkept _ hz
        omega
    · intro lane hl
      exact .inl (List.mem_singleton.mp hl)
  · rw [if_neg hp] at hT ht
    have hperm := perm_set hk ⟨some s.nextMBB, none, true⟩ [⟨some (s.nextMBB + 1), some d, false⟩]
    rw [← ht] at hperm
    refine ⟨?_, .inl ⟨?_, h.processedMBBs ▸ hp⟩, hF, _, hperm, ?_, ?_⟩
    · exact hperm.mem_iff.mpr (List.mem_cons_self ..)
    · exact hperm.mem_iff.mpr (by simp)
    · simp [currents]
    · intro lane hl
      simp only [List.mem_cons, List.not_mem_nil, or_false] at hl
      exact hl.imp_right fun h => ⟨h, hp, hT⟩

/-- The branch at the end of the block becomes two trampolines. -/
theorem Replaced.of_cond (h : replaceConditionalBranch st mbb mi k = .ok st')
    (hpre : st.instrs mbb = pre ++ [mi]) (hm : mbb < st.nextMBB) (hk : k < st.takenBlocks.length)
    (hkept : ∀ z ∈ currents (st.takenBlocks.eraseIdx k), z < st.nextMBB)
    (hproc : ∀ b ∈ st.processedMBBs, b < st.nextMBB) (hc : mi.isConditionalBranch) : Replaced st mbb ft k st' := by
  obtain ⟨d, cc, hd, ho, hr⟩ := replaceConditionalBranch_ok h hm hpre
  obtain ⟨hF, hT, hFi, new, hperm, hnd, hnew⟩ := hr.lanes hm hk hkept hproc
  have hmi : mi ∈ st.instrs mbb := by simp [hpre]
  have hn := hr.nextMBB
  have hi := hr.instrs
  exact
    { processedMBBs := hr.processedMBBs
      nextMBB := by omega
      before := ⟨[st.nextMBB + 1, st.nextMBB], hr.before, by simp, by simp [hn]⟩
      instrs := fun b hb hbm => by
        rw [hi, if_neg hbm, if_neg (by omega), if_neg (by omega)]
      blocks := fun b hb hbm => hr.blocks b hbm (by omega) (by omega)
      ending := ⟨none, by
        rw [hi mbb, if_pos rfl, hpre]
        exact .cond ho hd hF hT, hr.after, by simp⟩
      lanes := fun _ => by
        refine ⟨new, hperm, hnd, fun lane hl => ?_⟩
        rcases hnew lane hl with rfl | ⟨rfl, hdp, hTi⟩
        · exact .next (Nat.le_refl _) (by omega) (by simp [hr.before]) hFi
            (.inr (.inr ⟨mi, by simp [hpre], hc⟩))
        · exact .toward (by omega) (by omega) (by simp [hr.before]) hTi hdp
            ⟨mi, hmi, isBranch_of_conditional hc, hd⟩
      oneTaken := fun _ => hr.countP_taken hk
      created := fun b hb hlt => by
        obtain rfl | rfl : b = st.nextMBB ∨ b = st.nextMBB + 1 := by omega
        · exact .inr (.inl (LeadsNext.current hF))
        · exact .inr (Leads.created hT)
      empty := fun h => by simp [hpre] at h }

/-- The jump behind a branch goes to a block of its own, and the branch becomes
two trampolines. -/
theorem Replaced.of_split {s : PassState} {jcc : MachineInstr} (hs : splitJump st mbb mi = .ok s)
    (h : replaceConditionalBranch s mbb jcc k = .ok st')
    (hpre : st.instrs mbb = pre ++ [jcc, mi]) (hm : mbb < st.nextMBB)
    (hk : k < st.takenBlocks.length)
    (hkept : ∀ z ∈ currents (st.takenBlocks.eraseIdx k), z < st.nextMBB)
    (hproc : ∀ b ∈ st.processedMBBs, b < st.nextMBB)
    (hbefore : ∀ b ∈ st.before, b < st.nextMBB)
    (hu : mi.isUnconditionalBranch) (hc : jcc.isConditionalBranch) : Replaced st mbb ft k st' := by
  obtain ⟨d', hd', hb, haf, hn, hpr, ht, hi, hN, hbl⟩ :=
    splitJump_ok hs hm (by simpa using hpre : st.instrs mbb = (pre ++ [jcc]) ++ [mi])
  have hspre : s.instrs mbb = pre ++ [jcc] := by rw [hi, if_pos rfl]
  have hsm : mbb < s.nextMBB := by omega
  have hsk : k < s.takenBlocks.length := ht ▸ hk
  obtain ⟨d, cc, hd, ho, hr⟩ := replaceConditionalBranch_ok h hsm hspre
  obtain ⟨hF, hT, hFi, new, hperm, hnd, hnew⟩ := hr.lanes hsm hsk (by
    rw [ht]
    intro z hz
    have := hkept z hz
    omega) (by
    rw [hpr]
    intro b hb
    have := hproc b hb
    omega)
  have hjcc : jcc ∈ st.instrs mbb := by simp [hpre]
  have hn' := hr.nextMBB
  have hi' := hr.instrs
  have hNi : st'.instrs st.nextMBB = [⟨mi.opcode, [.mbb d']⟩] := by
    rw [hi', if_neg (by omega), if_neg (by omega), if_neg (by omega), hi, if_neg (by omega),
      if_pos rfl]
  exact
    { processedMBBs := hr.processedMBBs.trans hpr
      nextMBB := by omega
      before := ⟨[s.nextMBB + 1, s.nextMBB], by rw [hr.before, hb]; rfl, by simp, by
        simp only [List.mem_cons, List.not_mem_nil, or_false]
        omega⟩
      instrs := fun b hb hbm => by
        rw [hi', if_neg hbm, if_neg (by omega), if_neg (by omega), hi, if_neg hbm,
          if_neg (by omega)]
      blocks := fun b hb hbm => by
        rw [hr.blocks b hbm (by omega) (by omega), hbl b hbm (by omega)]
      ending := by
        refine ⟨some st.nextMBB, ?_, by rw [hr.after, haf]; rfl, fun N hN' => ?_⟩
        · rw [hi' mbb, if_pos rfl, hpre]
          exact .split ho hd hu hd' hF hT hNi
        · cases hN'
          refine ⟨Nat.le_refl _, by omega, ?_, ?_⟩
          · rw [hr.before, hb]
            intro hN'
            simp only [List.mem_cons] at hN'
            rcases hN' with h | h | h
            · omega
            · omega
            · exact Nat.lt_irrefl _ (hbefore _ h)
          · rw [hr.blocks _ (by omega) (by omega) (by omega), hN]
      lanes := fun _ => by
        rw [ht] at hperm
        refine ⟨new, hperm, hnd, fun lane hl => ?_⟩
        rcases hnew lane hl with rfl | ⟨rfl, hdp, hTi⟩
        · exact .next (by omega) (by omega) (by simp [hr.before]) hFi
            (.inl (by simp [hr.after, haf]))
        · exact .toward (by omega) (by omega) (by simp [hr.before]) hTi (hpr ▸ hdp)
            ⟨jcc, hjcc, isBranch_of_conditional hc, hd⟩
      oneTaken := fun _ => ht ▸ hr.countP_taken hsk
      created := fun b hb hlt => by
        obtain rfl | rfl | rfl : b = st.nextMBB ∨ b = s.nextMBB ∨ b = s.nextMBB + 1 := by omega
        · exact .inl (by simp [hr.after, haf])
        · exact .inr (.inl (LeadsNext.current hF))
        · exact .inr (Leads.created hT)
      empty := fun h => by simp [hpre] at h }

end

/-- `replaceTerminator` replaces the end of the block. -/
theorem replaceTerminator_spec {st st' : PassState} {mbb k : Nat} {ft : Option Nat}
    (h : replaceTerminator st mbb ft k = .ok st') (hm : mbb < st.nextMBB)
    (hk : k < st.takenBlocks.length)
    (hkept : ∀ z ∈ currents (st.takenBlocks.eraseIdx k), z < st.nextMBB)
    (hproc : ∀ b ∈ st.processedMBBs, b < st.nextMBB)
    (hbefore : ∀ b ∈ st.before, b < st.nextMBB) : Replaced st mbb ft k st' := by
  unfold replaceTerminator at h
  cases hl : (st.instrs mbb).getLast? with
  | none =>
    rw [hl] at h
    cases h
    have he : st.instrs mbb = [] := List.getLast?_eq_none_iff.mp hl
    exact
      { processedMBBs := rfl
        nextMBB := Nat.le_refl _
        before := ⟨[], rfl, List.nodup_nil, by simp⟩
        instrs := fun _ _ _ => rfl
        blocks := fun _ _ _ => rfl
        ending := ⟨none, by rw [he]; exact .empty, rfl, by simp⟩
        lanes := fun hne => absurd he hne
        oneTaken := fun hne => absurd he hne
        created := fun b hb hlt => absurd hlt (Nat.not_lt.mpr hb)
        empty := fun _ => rfl }
  | some pos =>
    rw [hl] at h
    obtain ⟨pre, hpre⟩ : ∃ pre, st.instrs mbb = pre ++ [pos] :=
      (List.getLast?_eq_some_iff.mp hl)
    have hdrop : (st.instrs mbb).dropLast = pre := by simp [hpre]
    simp only [hdrop] at h
    split at h
    · rename_i hu
      cases hj : pre.getLast? with
      | none =>
        rw [hj] at h
        exact .of_jump h hpre hm hk hkept hproc hu (fun i hi => by rw [hj] at hi; cases hi)
      | some jcc =>
        rw [hj] at h
        by_cases hc : jcc.isConditionalBranch
        · simp only [hc, if_true] at h
          obtain ⟨pre', rfl⟩ := List.getLast?_eq_some_iff.mp hj
          cases hs : splitJump st mbb pos with
          | error e =>
            rw [hs] at h
            cases h
          | ok s =>
            rw [hs] at h
            exact .of_split hs h (by simpa using hpre) hm hk hkept hproc hbefore hu hc
        · simp only [hc] at h
          refine .of_jump h hpre hm hk hkept hproc hu (fun i hi => ?_)
          cases hj.symm.trans hi
          exact Bool.eq_false_iff.mpr hc
    · rename_i hu
      have hu := Bool.eq_false_iff.mpr hu
      split at h
      · rename_i hi
        have hc : pos.isConditionalBranch = false := by
          simp [MachineInstr.isConditionalBranch, hi]
        simp only [replaceIndirectJump] at h
        split at h
        · cases h
          exact .of_dead hpre hk hu hc (.inl hi)
        · cases h
      · rename_i hi
        have hi := Bool.eq_false_iff.mpr hi
        split at h
        · rename_i hc
          exact .of_cond h hpre hm hk hkept hproc hc
        · rename_i hc
          have hc := Bool.eq_false_iff.mpr hc
          split at h
          · rename_i hft
            cases h
            cases ft with
            | some n => exact .of_fall hpre hm hk hu hc hi
            | none => exact .of_dead hpre hk hu hc (.inr ⟨rfl, by simpa using hft⟩)
          · cases h

end BS.BranchConversion
