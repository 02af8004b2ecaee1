import BranchShadowing.Proof.BranchConversion.Edits
import BranchShadowing.Proof.BranchConversion.Output
import BranchShadowing.Proof.BranchConversion.Shape
import BranchShadowing.Spec.Output

/-!
# The control flow graph of the output

The pass keeps a function in which instructions name blocks of the function and branches
go to successors (`runOnMachineFunction_cfgSound`): every block created is laid out, and
a trampoline has a successor for each of its jumps (`Trampoline`). But the blocks that
control runs into, the fake blocks, are successors of none of the blocks before them, so
that no block of the output falls through (`getFallThrough_eq_none`).
-/

namespace BS.BranchConversion

open X86 PassState

variable {dummyInstr : Bool} {mf out : MachineFunction} {st st' fin : PassState}
  {mbb m d c : Nat} {rest : List Nat} {B : MachineBasicBlock}

/-! ## Blocks of the pass -/

/-- A block of the input, or one created so far. -/
def Known (mf : MachineFunction) (m d : Nat) : Prop := d ∈ mf.layout ∨ mf.nextMBB ≤ d ∧ d < m

theorem Known.mono {m' : Nat} (h : Known mf m d) (hm : m ≤ m') : Known mf m' d :=
  h.imp_right fun h => ⟨h.1, Nat.lt_of_lt_of_le h.2 hm⟩

theorem Known.concat {ss : List Nat} {x : Nat} (hx : Known mf m x) (hss : ∀ d ∈ ss, Known mf m d) :
    ∀ d ∈ ss ++ [x], Known mf m d := by
  intro d hd
  rcases List.mem_append.mp hd with hd | hd
  · exact hss d hd
  · exact List.mem_singleton.mp hd ▸ hx

/-- A trampoline or a fake block: empty, or it ends in a jump, and it goes to its
successors. -/
structure Trampoline (mf : MachineFunction) (m : Nat) (B : MachineBasicBlock) : Prop where
  operands : ∀ i ∈ B.instrs, ∀ d, .mbb d ∈ i.operands → Known mf m d
  linked : ∀ i ∈ B.instrs, i.isBranch → ∀ d ∈ i.mbb?, d ∈ B.succs
  last : B.instrs = [] ∧ B.succs = [] ∨
    ∃ i, B.instrs.getLast? = some i ∧ (i = jmp64r ∨ ∃ d, i = jmp4 d)

namespace Trampoline

theorem mono {m' : Nat} (h : Trampoline mf m B) (hm : m ≤ m') : Trampoline mf m' B :=
  ⟨fun i hi d hd => (h.operands i hi d hd).mono hm, h.linked, h.last⟩

theorem empty : Trampoline mf m {} := ⟨by simp, by simp, .inl ⟨rfl, rfl⟩⟩

theorem fake : Trampoline mf m { instrs := [jmp64r] } where
  operands := by simp [jmp64r]
  linked := by simp [jmp64r, MachineInstr.mbb?, MachineInstr.getOperand]
  last := .inr ⟨jmp64r, rfl, .inl rfl⟩

/-- A trampoline gets instructions that end in a jump, and the target as successor. -/
theorem extend (h : Trampoline mf m B) {js : List MachineInstr}
    (hops : ∀ i ∈ js, ∀ d', .mbb d' ∈ i.operands → Known mf m d')
    (hjs : ∀ i ∈ js, i.isBranch → i = jmp4 d) (hlast : js.getLast? = some (jmp4 d)) :
    Trampoline mf m (extend B js [d]) where
  operands i hi := by
    rcases List.mem_append.mp hi with hi | hi
    · exact h.operands i hi
    · exact hops i hi
  linked i hi hb d' hd' := by
    refine List.mem_append.mpr ?_
    rcases List.mem_append.mp hi with hi | hi
    · exact .inl (h.linked i hi hb d' hd')
    · rw [hjs i hi hb] at hd'
      exact .inr (List.mem_singleton.mpr (Option.some.inj hd').symm)
  last := by
    refine .inr ⟨jmp4 d, ?_, .inr ⟨d, rfl⟩⟩
    show (B.instrs ++ js).getLast? = _
    rw [List.getLast?_append, hlast]
    rfl

theorem jump (h : Trampoline mf m B) (hd : Known mf m d) :
    Trampoline mf m (BranchConversion.extend B [jmp4 d] [d]) := by
  refine h.extend (fun i hi d' hd' => ?_) (fun i hi _ => List.mem_singleton.mp hi) rfl
  obtain rfl := List.mem_singleton.mp hi
  obtain rfl : d' = d := by simpa [jmp4] using hd'
  exact hd

theorem skip (h : Trampoline mf m B) {k x f : Nat} (hf : Known mf m f) (hx : Known mf m x) :
    Trampoline mf m (BranchConversion.extend B (skipTo dummyInstr k x f) [f]) := by
  have hmem : ∀ i ∈ skipTo dummyInstr k x f,
      i = dummyAdd ∨ i = lea targetRegOpcode x ∨ i = jmp4 f := by
    intro i hi
    simp only [skipTo, List.mem_append, List.mem_cons, List.not_mem_nil, or_false] at hi
    rcases hi with hi | hi | hi
    · split at hi
      · exact .inl (List.eq_of_mem_replicate hi)
      · cases hi
    · exact .inr (.inl hi)
    · exact .inr (.inr hi)
  refine h.extend (fun i hi d' hd' => ?_) (fun i hi hb => ?_) (by simp [skipTo])
  · rcases hmem i hi with rfl | rfl | rfl
    · simp [dummyAdd] at hd'
    · obtain rfl : d' = x := by simpa [lea] using hd'
      exact hx
    · obtain rfl : d' = f := by simpa [jmp4] using hd'
      exact hf
  · rcases hmem i hi with rfl | rfl | rfl
    · cases hb
    · cases hb
    · rfl

end Trampoline

/-- What holds of the blocks on the way to `fin`: successors are known, and blocks that
are not walked are trampolines. -/
def CfgBlock (mf : MachineFunction) (fin : PassState) (m b : Nat) (B : MachineBasicBlock) : Prop :=
  b ∈ mf.layout ∨ mf.nextMBB ≤ b → (∀ d ∈ B.succs, Known mf m d) ∧
    (mf.nextMBB ≤ b → b ∉ fin.processedMBBs → Trampoline mf m B)

/-- The graph so far. What is left to walk is as in the input, or a jump that was split
off. -/
structure CfgBuilt (mf : MachineFunction) (fin st : PassState) : Prop where
  each : Each (CfgBlock mf fin) st
  laidOut : LaidOut mf.layout mf.nextMBB st
  lo : mf.nextMBB ≤ st.nextMBB
  todo : ∀ c ∈ st.after, c ∈ mf.layout ∧ st.blocks c = mf.blocks c ∨
    mf.nextMBB ≤ c ∧ ∃ (i : MachineInstr) (d : Nat), i.isUnconditionalBranch ∧ d ∈ mf.layout ∧
      st.instrs c = [⟨i.opcode, [.mbb d]⟩]

namespace CfgBuilt

theorem start (hmf : WellFormed mf) : CfgBuilt mf fin (start mf) where
  each b hlt hb := by
    rcases hb with hb | hb
    · exact ⟨fun d hd => .inl (hmf.succs b hb d hd),
        fun hn => absurd (hmf.fresh b hb) (Nat.not_lt.mpr hn)⟩
    · exact absurd hlt (Nat.not_lt.mpr hb)
  laidOut b := (or_iff_left fun h => absurd h.2 (Nat.not_lt.mpr h.1)).symm
  lo := Nat.le_refl _
  todo c hc := .inl ⟨hc, rfl⟩

theorem target_mem (h : CfgBuilt mf fin st) (hmf : WellFormed mf) (hc : c ∈ st.after)
    {i : MachineInstr} (hi : i ∈ st.instrs c) (hd : i.mbb? = some d) : d ∈ mf.layout := by
  rcases h.todo c hc with ⟨hcl, hb⟩ | ⟨-, j, d', -, hdl, hj⟩
  · rw [PassState.instrs, hb] at hi
    exact hmf.targets c hcl i hi d hd
  · rw [hj, List.mem_singleton] at hi
    subst hi
    cases hd
    exact hdl

variable (h : CfgBuilt mf fin st) (hmf : WellFormed mf) (hB : Bookkeeping st)
  (ha : st.after = mbb :: rest) (hr : runOnBlock dummyInstr st = .ok st')
  (W : Walk dummyInstr fin st')
include h hmf hB ha hr W

theorem keeps : Keeps (CfgBlock mf fin) (iteration dummyInstr st mbb rest st') := by
  have D := runOnBlock_done hB ha hr
  have hmem : mbb ∈ st.after := by simp [ha]
  have hwalked : mbb ∈ fin.processedMBBs := W.processedMBBs.subset (by simp [D.processedMBBs])
  have hmbb {m : Nat} (hm : mbb < m) : Known mf m mbb :=
    (h.todo mbb hmem).imp And.left fun h => ⟨h.1, hm⟩
  have hnew {m x : Nat} (hx : st.nextMBB ≤ x) (hxm : x < m) : Known mf m x :=
    .inr ⟨Nat.le_trans h.lo hx, hxm⟩
  refine ⟨fun hP hb => ?_, fun hc hP hb => ?_, fun hlo hc hb => ?_⟩
  · exact ⟨fun d hd => ((hP hb).1 d hd).mono (Nat.le_succ _),
      fun hn hp => ((hP hb).2 hn hp).mono (Nat.le_succ _)⟩
  · obtain ⟨hs, ht⟩ := hP hb
    cases hc with
    | arrive _ hm => exact ⟨(hmbb hm).concat hs, fun hn hp => (ht hn hp).jump (hmbb hm)⟩
    | skip _ hf hfm hx hxm =>
      have hf' := hnew (D.fake _ hf).1 hfm
      exact ⟨hf'.concat hs, fun hn hp => (ht hn hp).skip hf' (hnew hx hxm)⟩
    | own => exact ⟨hs, fun _ hp => absurd hwalked hp⟩
    | reach hx hxm => exact ⟨(hnew hx hxm).concat hs, fun _ hp => absurd hwalked hp⟩
  · cases hc with
    | fake => exact ⟨by simp, fun _ _ => .fake⟩
    | empty => exact ⟨by simp, fun _ _ => .empty⟩
    | back hi hid =>
      have hd := h.target_mem hmf hmem hi hid
      exact ⟨fun d' hd' => .inl (List.mem_singleton.mp hd' ▸ hd),
        fun _ _ => Trampoline.empty.jump (.inl hd)⟩
    | split hN => exact ⟨by simp, fun _ hp => absurd (W.mem_processedMBBs hN) hp⟩

/-- One iteration. -/
theorem next : CfgBuilt mf fin st' := by
  have D := runOnBlock_done hB ha hr
  have hE := runOnBlock_edited hB ha hr
  refine ⟨hE.each (h.keeps hmf hB ha hr W) h.each, hE.laidOut h.lo h.laidOut,
    Nat.le_trans h.lo D.nextMBB, fun c hc => ?_⟩
  by_cases hcr : c ∈ rest
  · rcases D.mem_after hB ha hc with ⟨-, hi, hb⟩ | ⟨hn, -⟩
    · rw [hb, hi]
      exact h.todo c (by simp [ha, hcr])
    · exact absurd (hB.fresh c (by simp [ha, hcr])) (Nat.not_lt.mpr hn)
  · obtain ⟨i, hi, d, hu, hd, his⟩ := D.split_instrs hc hcr
    refine .inr ⟨?_, i, d, hu, h.target_mem hmf (by simp [ha]) hi hd, his⟩
    rcases D.mem_after hB ha hc with ⟨hr, -⟩ | ⟨hn, -⟩
    · exact absurd hr hcr
    · exact Nat.le_trans h.lo hn

end CfgBuilt

/-! ## The blocks walked -/

/-- What stands in a block at the end was there, or points to a trampoline. -/
theorem Ending.mem {next : Nat → Prop} {leads : Nat → Nat → Prop} {ft o : Option Nat}
    {instrs : Nat → List MachineInstr} {is is' : List MachineInstr} {i : MachineInstr}
    (h : Ending next leads ft instrs is is' o) (hi : i ∈ is') :
    i ∈ is ∨ i.isBranch = false ∧ ∀ d, .mbb d ∈ i.operands → next d ∨ ∃ d', leads d d' := by
  have lea {r : GPR} {z : Nat} (hz : next z ∨ ∃ d', leads z d') :
      (lea r z).isBranch = false ∧ ∀ d, .mbb d ∈ (lea r z).operands → next d ∨ ∃ d', leads d d' := by
    refine ⟨rfl, fun d hd => ?_⟩
    obtain rfl : d = z := by simpa [BranchConversion.lea] using hd
    exact hz
  have moves {pre : List MachineInstr} {cc : Cond} {d zF zT : Nat} (hF : next zF) (hT : leads zT d)
      (hi : i ∈ pre ++ [BranchConversion.lea targetRegOpcode zF, BranchConversion.lea tmpReg zT,
        cmov (.cmov64rr cc)]) :
      i ∈ pre ∨ i.isBranch = false ∧ ∀ d, .mbb d ∈ i.operands → next d ∨ ∃ d', leads d d' := by
    simp only [List.mem_append, List.mem_cons, List.not_mem_nil, or_false] at hi
    rcases hi with hi | rfl | rfl | rfl
    · exact .inl hi
    · exact .inr (lea (.inl hF))
    · exact .inr (lea (.inr ⟨d, hT⟩))
    · exact .inr ⟨rfl, by simp [cmov]⟩
  cases h with
  | empty => exact .inl hi
  | leave => exact .inl hi
  | fall _ _ _ _ hz =>
    simp only [List.mem_append, List.mem_cons, List.not_mem_nil, or_false] at hi ⊢
    rcases hi with hi | rfl | rfl
    · exact .inl (.inl hi)
    · exact .inl (.inr rfl)
    · exact .inr (lea (.inl hz))
  | jump _ _ _ hz =>
    simp only [List.mem_append, List.mem_singleton] at hi ⊢
    rcases hi with hi | rfl
    · exact .inl (.inl hi)
    · exact .inr (lea (.inr ⟨_, hz⟩))
  | cond _ _ hF hT => exact (moves hF hT hi).imp_left (List.mem_append_left _)
  | split _ _ _ _ hF hT => exact (moves hF hT hi).imp_left (List.mem_append_left _)

/-- The blocks walked name blocks of the function, and branch to their successors. -/
def CfgWalked (mf : MachineFunction) (st : PassState) : Prop :=
  ∀ c ∈ st.processedMBBs, (∀ i ∈ st.instrs c, ∀ d, .mbb d ∈ i.operands → Known mf st.nextMBB d) ∧
    ∀ i ∈ st.instrs c, i.isBranch → ∀ d ∈ i.mbb?, d ∈ (st.blocks c).succs

theorem CfgBuilt.walked_next (h : CfgBuilt mf fin st) (hmf : CfgSound mf) (hB : Bookkeeping st)
    (ha : st.after = mbb :: rest) (hr : runOnBlock dummyInstr st = .ok st')
    (W : Walk dummyInstr fin st') (hw : CfgWalked mf st) : CfgWalked mf st' := by
  have h' := h.next hmf.toWellFormed hB ha hr W
  have D := runOnBlock_done hB ha hr
  have hmem : mbb ∈ st.after := by simp [ha]
  have hm : mbb < st.nextMBB := hB.fresh mbb (by simp [ha])
  intro c hc
  rw [D.processedMBBs, List.mem_append, List.mem_singleton] at hc
  by_cases hcm : c = mbb
  · subst hcm
    obtain ⟨o, ho, -, -⟩ := D.ending
    have hlead (z : Nat) (hz : st'.LeadsNext z ∨ ∃ d, st'.Leads z d) : Known mf st'.nextMBB z := by
      refine (h'.laidOut z).mp (List.mem_append_left _ ?_)
      obtain ⟨tr, code, hb, htr, -⟩ := D.bookkeeping.parts
      have hcur (hz : z ∈ currents st'.takenBlocks) : z ∈ st'.before := by simp [hb, htr z hz]
      rcases hz with hz | ⟨d, ⟨hz, -⟩ | ⟨-, -, hz, -⟩⟩
      · exact hcur (currents_mem hz rfl)
      · exact hcur (currents_mem hz rfl)
      · exact hz
    refine ⟨fun i hi d hd => ?_, fun i hi hbr d hd => ?_⟩
    · rcases ho.mem hi with hi | ⟨-, hz⟩
      · rcases h.todo c hmem with ⟨hcl, hb⟩ | ⟨-, j, d', -, hdl, hj⟩
        · rw [PassState.instrs, hb] at hi
          exact .inl (hmf.operands c hcl i hi d hd)
        · rw [hj, List.mem_singleton] at hi
          obtain rfl : d = d' := by simpa [hi] using hd
          exact .inl hdl
      · exact hlead d (hz d hd)
    · rcases ho.mem hi with hi' | ⟨hno, -⟩
      · obtain ⟨ss, hss, -⟩ := (runOnBlock_edited hB ha hr).succs hm
        rcases h.todo c hmem with ⟨hcl, hb⟩ | ⟨-, j, d', hu, -, hj⟩
        · rw [PassState.instrs, hb] at hi'
          have hd' := hmf.linked c hcl i hi' hbr d hd
          rw [← hb] at hd'
          exact hss ▸ List.mem_append_left _ hd'
        · have hre : Rewritten [⟨j.opcode, [.mbb d']⟩] (st'.instrs c) :=
            ⟨_, _, o, hj ▸ ho.mono (fun _ _ => trivial) (fun _ _ _ => trivial) fun _ _ => rfl⟩
          obtain ⟨z, hz⟩ := rewritten_jump hre hu
          rw [hz, List.mem_singleton] at hi
          rw [hi] at hbr
          cases hbr
      · rw [hno] at hbr
        cases hbr
  · have hcp := hc.resolve_right hcm
    have hb := D.blocks c (hB.processed_lt hcp) hcm fun hz => hB.current_not_processed hz hcp
    rw [PassState.instrs, hb]
    obtain ⟨hop, hlink⟩ := hw c hcp
    exact ⟨fun i hi d hd => (hop i hi d hd).mono D.nextMBB, hlink⟩

/-! ## The output -/

theorem addFrontBlock_frontBlock (entry : Nat) : (addFrontBlock fin entry).mf.blocks fin.nextMBB =
    { instrs := [jmp4 entry], succs := [entry] } := by
  refine (congrFun (jump_extend (fin.withBlock.pushFront fin.nextMBB) _ _) _).trans ?_
  simp [PassState.withBlock, pushFront, extend]

theorem mem_operands_of_mbb? {i : MachineInstr} (h : i.mbb? = some d) : .mbb d ∈ i.operands := by
  simp only [MachineInstr.mbb?, MachineInstr.getOperand] at h
  split at h
  · rename_i b hb
    cases h
    exact List.mem_of_getElem? hb
  · cases h

/-- The pass keeps the control flow graph sound. -/
theorem runOnMachineFunction_cfgSound (hmf : CfgSound mf)
    (h : runOnMachineFunction dummyInstr mf = .ok out) : CfgSound out := by
  obtain ⟨entry, fin, hentry, hloop, rfl⟩ := loop_of_run hmf.toWellFormed h
  have hB := bookkeeping_start hmf.nodup hmf.fresh
  have W := walk_of_blockLoop hloop hB
  obtain ⟨hG, hW⟩ : CfgBuilt mf fin fin ∧ CfgWalked mf fin :=
    blockLoop_invariant (I := fun s => CfgBuilt mf fin s ∧ CfgWalked mf s) hloop hB
      ⟨.start hmf.toWellFormed, by simp [CfgWalked, start]⟩ fun s s' mbb rest hBs ha hr W hI =>
        ⟨hI.1.next hmf.toWellFormed hBs ha hr W, hI.1.walked_next hmf hBs ha hr W hI.2⟩
  have hlaid (d : Nat) : d ∈ fin.before ↔ Known mf fin.nextMBB d := by
    have h := hG.laidOut d
    rwa [W.after_eq_nil, List.append_nil] at h
  have hlayout := addFrontBlock_layout fin entry W.after_eq_nil
  have hmem {d : Nat} (hd : Known mf fin.nextMBB d) : d ∈ (addFrontBlock fin entry).mf.layout := by
    rw [hlayout]
    exact List.mem_cons_of_mem _ ((hlaid d).mpr hd)
  have hentry : Known mf fin.nextMBB entry := .inl (List.mem_of_mem_head? hentry)
  have hcases (c : Nat) (hc : c ∈ (addFrontBlock fin entry).mf.layout) :
      let B := (addFrontBlock fin entry).mf.blocks c
      (∀ d ∈ B.succs, Known mf fin.nextMBB d) ∧
        (∀ i ∈ B.instrs, ∀ d, .mbb d ∈ i.operands → Known mf fin.nextMBB d) ∧
        ∀ i ∈ B.instrs, i.isBranch → ∀ d ∈ i.mbb?, d ∈ B.succs := by
    rw [hlayout, List.mem_cons] at hc
    rcases hc with rfl | hc
    · rw [addFrontBlock_frontBlock]
      have hT : Trampoline mf fin.nextMBB { instrs := [jmp4 entry], succs := [entry] } :=
        Trampoline.empty.jump hentry
      exact ⟨fun d hd => List.mem_singleton.mp hd ▸ hentry, hT.operands, hT.linked⟩
    · rw [W.out_blocks entry hc]
      have hK := (hlaid c).mp hc
      obtain ⟨hs, hT⟩ := hG.each c (W.bookkeeping_fin.fresh c (List.mem_append_left _ hc))
        (hK.imp_right And.left)
      refine ⟨hs, ?_⟩
      by_cases hp : c ∈ fin.processedMBBs
      · exact hW c hp
      · rcases hK with hcl | ⟨hn, -⟩
        · exact absurd (W.mem_processedMBBs (by exact hcl)) hp
        · exact ⟨(hT hn hp).operands, (hT hn hp).linked⟩
  have hfresh : ∀ b ∈ fin.before, b < fin.nextMBB := fun b hb =>
    W.bookkeeping_fin.fresh b (List.mem_append_left _ hb)
  exact
    { nodup := by
        rw [hlayout, List.nodup_cons]
        exact ⟨fun h => Nat.lt_irrefl _ (hfresh _ h),
          (List.nodup_append.mp W.bookkeeping_fin.nodup).1⟩
      fresh := fun b hb => by
        rw [hlayout, List.mem_cons] at hb
        show b < fin.nextMBB + 1
        rcases hb with rfl | hb
        · exact Nat.lt_succ_self _
        · exact Nat.lt_succ_of_lt (hfresh b hb)
      entry := by simp [hlayout]
      targets := fun c hc i hi d hd => hmem ((hcases c hc).2.1 i hi d (mem_operands_of_mbb? hd))
      succs := fun c hc d hd => hmem ((hcases c hc).1 d hd)
      operands := fun c hc i hi d hd => hmem ((hcases c hc).2.1 i hi d hd)
      linked := fun c hc => (hcases c hc).2.2 }

theorem selfLoop_cfgSound : CfgSound selfLoop where
  toWellFormed := selfLoop_convertible.toWellFormed
  operands c hc i hi d hd := by
    obtain rfl | rfl : c = 0 ∨ c = 1 := by simpa [selfLoop] using hc
    · obtain rfl : i = ⟨.jcc1 .e, [.mbb 0]⟩ := by simpa [selfLoop] using hi
      obtain rfl : d = 0 := by simpa using hd
      exact hc
    · obtain rfl : i = ⟨.retq, []⟩ := by simpa [selfLoop] using hi
      cases hd
  linked := by decide

theorem selfLoop_runs : ∃ out, runOnMachineFunction true selfLoop = .ok out := by
  have hlayout : (runOnMachineFunction true selfLoop).map (·.layout) = .ok [5, 4, 3, 0, 2, 1] := by
    decide
  cases hout : runOnMachineFunction true selfLoop with
  | error e =>
    rw [hout] at hlayout
    cases hlayout
  | ok out => exact ⟨out, rfl⟩

theorem runOnMachineFunction_cfgSound_selfLoop :
    ∃ out, runOnMachineFunction true selfLoop = .ok out ∧ CfgSound out := by
  obtain ⟨out, hout⟩ := selfLoop_runs
  exact ⟨out, hout, runOnMachineFunction_cfgSound selfLoop_cfgSound hout⟩

/-! ## Fall-through -/

/-- The block behind a block walked, its fake block, is none of its successors. -/
def FakesApart (fin st : PassState) : Prop :=
  ∀ c ∈ st.processedMBBs, ∀ f, nextOf fin.before c = some f → f ∉ (st.blocks c).succs

theorem CfgBuilt.fakesApart_next (h : CfgBuilt mf fin st) (hmf : WellFormed mf)
    (hB : Bookkeeping st)
    (ha : st.after = mbb :: rest) (hr : runOnBlock dummyInstr st = .ok st')
    (W : Walk dummyInstr fin st') (hj : JumpsStay st) (hf : FakesApart fin st) :
    FakesApart fin st' := by
  have D := runOnBlock_done hB ha hr
  have hm : mbb < st.nextMBB := hB.fresh mbb (by simp [ha])
  intro c hc f hfn
  rw [D.processedMBBs, List.mem_append, List.mem_singleton] at hc
  by_cases hcm : c = mbb
  · subst hcm
    obtain ⟨ss, hss, hnew⟩ := (runOnBlock_edited hB ha hr).succs hm
    have hss : (st'.blocks c).succs = (st.blocks c).succs ++ ss := hss
    have hnew : ∀ x ∈ ss, st.nextMBB ≤ x ∧ x ∉ (insertFakeBlock (advance st c rest) c).1 := hnew
    revert D hnew
    generalize (insertFakeBlock (advance st c rest) c).1 = fakeBlock
    intro D hnew
    cases fakeBlock with
    | none =>
      obtain ⟨rfl, hret⟩ := D.noFake rfl
      rw [Walk.nextOf_of_noFake hB ha D W hj hret] at hfn
      cases hfn
    | some f' =>
      have hff := (Walk.fakeAfter hB ha D W rfl).1
      obtain rfl : f = f' := Option.some.inj (hfn.symm.trans hff)
      rw [hss, List.mem_append]
      rintro (hx | hx)
      · have hle := (D.fake f rfl).1
        have hown := (h.todo c (by simp [ha])).imp And.left And.left
        have hlo := h.lo
        rcases (h.each c hm hown).1 f hx with hx | ⟨-, hx⟩
        · have := hmf.fresh f hx
          omega
        · omega
      · exact (hnew f hx).2 rfl
  · have hcp := hc.resolve_right hcm
    rw [D.blocks c (hB.processed_lt hcp) hcm fun hz => hB.current_not_processed hz hcp]
    exact hf c hcp f hfn

/-- Control does not fall through a block that ends in a jump of the pass. -/
theorem getFallThrough_of_jump {b : Nat} {i : MachineInstr}
    (hi : (mf.blocks b).instrs.getLast? = some i) (hj : i = jmp64r ∨ ∃ d, i = jmp4 d) :
    mf.getFallThrough b = none := by
  have hflags : i.isDebugValue = false ∧ i.isTerminator ∧ i.isBranch ∧ i.isBarrier ∧
      i.opcode ≠ .jmp1 ∧ getCondFromBranchOpc i.opcode = .invalid := by
    rcases hj with rfl | ⟨d, rfl⟩ <;> exact ⟨rfl, rfl, rfl, rfl, by simp [jmp64r, jmp4], rfl⟩
  obtain ⟨hd, ht, hb, hbar, hne, hc⟩ := hflags
  have ha : mf.analyzeBranch b = none := by
    obtain ⟨pre, hpre⟩ := List.getLast?_eq_some_iff.mp hi
    simp [MachineFunction.analyzeBranch, hpre, MachineFunction.analyzeBranchImpl, hd, hb, hne, hc,
      MachineInstr.isUnpredicatedTerminator, ht]
  simp only [MachineFunction.getFallThrough, ha, hi, Option.any_some, hbar, if_true]
  split
  · rfl
  · split <;> rfl

/-- To the passes behind this one no block of its output falls through. -/
theorem getFallThrough_eq_none (hmf : WellFormed mf) (hj : JumpsOnly mf)
    (h : runOnMachineFunction dummyInstr mf = .ok out) :
    ∀ b ∈ out.layout, out.getFallThrough b = none := by
  obtain ⟨entry, fin, -, hloop, rfl⟩ := loop_of_run hmf h
  have hB := bookkeeping_start hmf.nodup hmf.fresh
  have W := walk_of_blockLoop hloop hB
  obtain ⟨hG, -, hF⟩ : CfgBuilt mf fin fin ∧ JumpsStay fin ∧ FakesApart fin fin :=
    blockLoop_invariant (I := fun s => CfgBuilt mf fin s ∧ JumpsStay s ∧ FakesApart fin s) hloop hB
      ⟨.start hmf, hj, by simp [FakesApart, start]⟩ fun s s' mbb rest hBs ha hr W hI =>
        ⟨hI.1.next hmf hBs ha hr W, (runOnBlock_done hBs ha hr).jumpsStay hBs ha hI.2.1,
          hI.1.fakesApart_next hmf hBs ha hr W hI.2.1 hI.2.2⟩
  intro b hb
  rw [addFrontBlock_layout fin entry W.after_eq_nil, List.mem_cons] at hb
  rcases hb with rfl | hb
  · exact getFallThrough_of_jump (by rw [addFrontBlock_frontBlock]; rfl) (.inr ⟨entry, rfl⟩)
  · by_contra hne
    obtain ⟨n, hn⟩ := Option.ne_none_iff_exists'.mp hne
    obtain ⟨hnext, hsucc⟩ := getFallThrough_some hn
    rw [W.out_layoutSucc entry hb] at hnext
    rw [W.out_blocks entry hb] at hsucc
    by_cases hp : b ∈ fin.processedMBBs
    · exact hF b hp n hnext hsucc
    · have hK := (hG.laidOut b).mp (List.mem_append_left _ hb)
      rcases hK with hbl | ⟨hlo, hlt⟩
      · exact hp (W.mem_processedMBBs (by exact hbl))
      · rcases ((hG.each b hlt (.inr hlo)).2 hlo hp).last with ⟨-, hs⟩ | ⟨i, hi, hji⟩
        · rw [hs] at hsucc
          cases hsucc
        · rw [getFallThrough_of_jump (by rw [W.out_blocks entry hb]; exact hi) hji] at hn
          cases hn

/-- The loop fell through to its exit. -/
theorem getFallThrough_eq_none_selfLoop : selfLoop.getFallThrough 0 = some 1 ∧
    ∃ out, runOnMachineFunction true selfLoop = .ok out ∧
      ∀ b ∈ out.layout, out.getFallThrough b = none := by
  obtain ⟨out, hout⟩ := selfLoop_runs
  exact ⟨by decide, out, hout,
    getFallThrough_eq_none selfLoop_convertible.toWellFormed (by unfold JumpsOnly; decide) hout⟩

end BS.BranchConversion
