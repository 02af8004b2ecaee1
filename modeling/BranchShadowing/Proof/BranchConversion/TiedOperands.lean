import BranchShadowing.Proof.BranchConversion.Completeness
import BranchShadowing.Proof.BranchConversion.Reserved

/-!
# Tied operands

The CMOV that replaces a conditional branch has R11 as its destination and R15 tied
to it, where these should be one register. Assembly text writes R11, object code
R15: the two are the same program exactly when no CMOV is inserted
(`readAlike_iff`).
-/

namespace BS.X86.Program

open BranchConversion

variable {σ : Type} {mf : MachineFunction} {T : Target σ} {addr : Nat → BitVec 64}

theorem exec_tied {i : MachineInstr} (h : Tied i) (s : State σ) :
    exec ⟨mf, T, addr, .object⟩ i s = exec ⟨mf, T, addr, .asm⟩ i s := by
  have h : Reading.object.destOperand i = Reading.asm.destOperand i := h.symm
  unfold exec
  simp only [h]
  rfl

/-- Control stays in the blocks of the function, before instructions of theirs. -/
def Within (mf : MachineFunction) : Cfg σ → Prop
  | .run b is _ => b ∈ mf.layout ∧ ∀ i ∈ is, i ∈ (mf.blocks b).instrs
  | _ => True

theorem Within.step {P : Program σ} {t t' : Cfg σ} {ev : List (Event σ)}
    (ht : ∀ b ∈ P.mf.layout, ∀ i ∈ P.instrs b, ∀ d ∈ i.mbb?, d ∈ P.mf.layout)
    (h : Within P.mf t) (hstep : P.step t = some (ev, t')) : Within P.mf t' := by
  have enter {d : Nat} (hd : d ∈ P.mf.layout) (s : State σ) :
      Within P.mf (.run d (P.instrs d) s) := ⟨hd, fun _ hi => hi⟩
  match t with
  | .start s =>
    simp only [Program.step] at hstep
    split at hstep
    · cases hstep
    · rename_i d l hl
      cases hstep
      exact enter (by simp [hl]) s
  | .run b [] s =>
    simp only [Program.step] at hstep
    split at hstep
    · rename_i d hd
      cases hstep
      exact enter (mem_of_nextOf hd) s
    · cases hstep
      exact trivial
  | .run b (i :: is) s =>
    obtain ⟨hb, his⟩ := h
    have hi : i ∈ P.instrs b := his i (List.mem_cons_self ..)
    simp only [Program.step] at hstep
    split at hstep
    · cases hstep
      exact ⟨hb, fun j hj => his j (List.mem_cons_of_mem _ hj)⟩
    · rename_i d s₁ he
      cases hstep
      exact enter (mem_layout_of_exec_goto (ht b hb i hi) he) s₁
    · cases hstep
      exact trivial

/-- A function whose operands are tied and whose branches stay in it is one program
under both readings. -/
theorem same_of_tied {O F : Type*} {obs : Event σ → Option O} (out : Cfg σ → F)
    (ht : ∀ b ∈ mf.layout, ∀ i ∈ (mf.blocks b).instrs, Tied i ∧ ∀ d ∈ i.mbb?, d ∈ mf.layout)
    (s : State σ) :
    SameBehaviour (system ⟨mf, T, addr, .asm⟩) (system ⟨mf, T, addr, .object⟩) obs obs out out
      (.start s) (.start s) := by
  refine .of_step_eq (I := Within mf) (fun t t' ev h hstep => ?_) (fun t h => ?_) trivial
  · exact Within.step (P := ⟨mf, T, addr, .asm⟩) (fun b hb i hi => (ht b hb i hi).2) h hstep
  · match t with
    | .start s => rfl
    | .done .. => rfl
    | .run b [] s => rfl
    | .run b (i :: is) s =>
      have hi := h.2 i (List.mem_cons_self ..)
      simp only [system, step, exec_tied (ht b h.1 i hi).1 s]
      rfl

end BS.X86.Program

namespace BS.BranchConversion

open X86 PassState

variable {dummyInstr : Bool} {mf out : MachineFunction} {st fin : PassState}

theorem dropCommon_subset {α : Type*} [DecidableEq α] (xs ys : List α) : dropCommon xs ys ⊆ ys := by
  induction xs generalizing ys with
  | nil => exact fun _ h => h
  | cons x xs ih =>
    cases ys with
    | nil => exact fun _ h => h
    | cons y ys =>
      rw [dropCommon]
      split
      · exact fun z hz => List.mem_cons_of_mem _ (ih ys hz)
      · exact fun _ h => h

/-! ## Functions without conditional branches -/

/-- Where no block has a conditional branch, a property of its instructions that the
other insertions have is kept by the walk. -/
theorem Walk.filled {K : Nat → Prop} {Q : MachineInstr → Prop} (W : Walk dummyInstr fin st)
    (hQ : Fits Q (· ∈ fin.before)) (hc : ∀ i, Q i → i.isConditionalBranch = false)
    (ht : ∀ i, Q i → ∀ d ∈ i.mbb?, d ∈ fin.before) (hK : ∀ c ∈ st.after, K c)
    (hnew : ∀ b, st.nextMBB ≤ b → K b) (hF : Filled K Q st) : Filled K Q fin := by
  induction W with
  | done => exact hF
  | @block st st' mbb rest fakeBlock hB ha D W ih =>
    have hmem : mbb ∈ st.after := by simp [ha]
    have his : ∀ i ∈ st.instrs mbb, Q i := hF mbb (hB.fresh mbb (by simp [hmem])) (hK mbb hmem)
    have W' := Walk.block hB ha D W
    refine ih (fun c hca => ?_) (fun b hb => hnew b (Nat.le_trans D.nextMBB hb))
      (D.filled K Q _ (W'.mem_before_of_processed (W'.mem_processedMBBs hmem)) (fun f hf => ?_) ?_ hF)
    · rcases D.mem_after hB ha hca with ⟨hr, -⟩ | ⟨hn, -⟩
      · exact hK c (by simp [ha, hr])
      · exact hnew c hn
    · exact mem_of_nextOf (fakeAfter hB ha D W hf).1
    · exact
        { hQ with
          targets := fun i hi => ht i (his i hi)
          moves := fun _ i hi cc ho => by
            have h := hc i (his i hi)
            rw [(flags_of_jcc1 ho).1] at h
            cases h
          splitOff := fun _ _ _ j hj _ _ hjc => by
            rw [hc j (his j hj)] at hjc
            cases hjc }

/-- Then the operands of the output are tied, and its branches stay in it. -/
theorem tied_of_unconditional {entry : Nat} (hmf : WellFormed mf)
    (hentry : mf.layout.head? = some entry) (W : Walk dummyInstr fin (start mf))
    (hin : ∀ c ∈ mf.layout, ∀ i ∈ (mf.blocks c).instrs, Tied i ∧ i.isConditionalBranch = false) :
    ∀ b ∈ (addFrontBlock fin entry).mf.layout,
      ∀ i ∈ ((addFrontBlock fin entry).mf.blocks b).instrs,
        Tied i ∧ ∀ d ∈ i.mbb?, d ∈ (addFrontBlock fin entry).mf.layout := by
  have hlay : ∀ c ∈ mf.layout, c ∈ fin.before := fun c hc =>
    W.mem_before_of_processed (W.mem_processedMBBs hc)
  have hF : Filled (fun b => b ∈ mf.layout ∨ mf.nextMBB ≤ b)
      (fun i => Tied i ∧ i.isConditionalBranch = false ∧ ∀ d ∈ i.mbb?, d ∈ fin.before) fin := by
    refine W.filled ⟨⟨rfl, rfl, nofun⟩, ⟨rfl, rfl, nofun⟩, fun b => ⟨rfl, rfl, nofun⟩,
      fun d hd => ⟨rfl, rfl, fun _ h => Option.some.inj h ▸ hd⟩⟩ (fun _ h => h.2.1)
      (fun _ h => h.2.2) (fun c hc => .inl hc) (fun b hb => .inr hb) fun b hb hK i hi => ?_
    have hb : b ∈ mf.layout := hK.resolve_right (Nat.not_le.mpr hb)
    exact ⟨(hin b hb i hi).1, (hin b hb i hi).2, fun d hd => hlay d (hmf.targets b hb i hi d hd)⟩
  intro b hb i hi
  rw [addFrontBlock_layout _ _ W.after_eq_nil] at hb ⊢
  rcases List.mem_cons.mp hb with rfl | hb
  · rw [addFrontBlock_front, List.mem_singleton] at hi
    subst hi
    refine ⟨rfl, fun d hd => List.mem_cons_of_mem _ ?_⟩
    cases hd
    exact hlay entry (List.mem_of_head? hentry)
  · rw [W.out_blocks entry hb] at hi
    have h := hF b (W.bookkeeping_fin.fresh b (by simp [hb]))
      ((W.mem_layout hb).imp_left fun h => by simpa [start] using h) i hi
    exact ⟨h.1, fun d hd => List.mem_cons_of_mem _ (h.2.2 d hd)⟩

/-! ## Conditional branches -/

theorem cmov_not_tied (cc : Cond) : ¬ Tied (cmov (.cmov64rr cc)) := by
  cases cc <;> decide

/-- A CMOV takes the place of the last conditional branch of a block. -/
theorem cmov_mem_of_rewritten {is is' pre jccs : List MachineInstr} {jmp : Option MachineInstr}
    (h : Rewritten is is') (his : is = pre ++ jccs ++ jmp.toList)
    (hjccs : ∀ i ∈ jccs, ∃ cc, i.opcode = .jcc1 cc) (hjmp : ∀ i ∈ jmp, i.opcode = .jmp1)
    (hne : jccs ≠ []) : ∃ cc, cmov (.cmov64rr cc) ∈ dropCommon is is' := by
  obtain ⟨l, j, rfl⟩ := (List.eq_nil_or_concat jccs).resolve_left hne
  have hj : j.isConditionalBranch ∧ j.isUnconditionalBranch = false := by
    obtain ⟨cc, ho⟩ := hjccs j (by simp)
    exact ⟨(flags_of_jcc1 ho).1, (flags_of_jcc1 ho).2.1⟩
  have inserted {p e : List MachineInstr} {mi : MachineInstr} {cc : Cond} (zF zT : Nat)
      (ho : mi.opcode = .jcc1 cc) : cmov (.cmov64rr cc) ∈ dropCommon (p ++ mi :: e)
        (p ++ [lea targetRegOpcode zF, lea tmpReg zT, cmov (.cmov64rr cc)]) := by
    have hmi : mi ≠ lea targetRegOpcode zF := by
      rintro rfl
      cases ho
    rw [dropCommon_append, dropCommon, if_neg hmi]
    simp
  obtain ⟨ft, instrs, o, h⟩ := h
  cases h with
  | empty => cases jmp <;> simp at his
  | leave hu hc =>
    rcases last_cases his with ⟨rfl, -⟩ | ⟨l', -, hl, -⟩ | ⟨-, hl, -⟩
    · rw [isUnconditionalBranch_of_jmp1 (hjmp _ rfl)] at hu
      cases hu
    · rw [List.concat_eq_append] at hl
      rw [← (last_eq hl).2, hj.1] at hc
      cases hc
    · simp at hl
  | fall hu hc =>
    rcases last_cases his with ⟨rfl, -⟩ | ⟨l', -, hl, -⟩ | ⟨-, hl, -⟩
    · rw [isUnconditionalBranch_of_jmp1 (hjmp _ rfl)] at hu
      cases hu
    · rw [List.concat_eq_append] at hl
      rw [← (last_eq hl).2, hj.1] at hc
      cases hc
    · simp at hl
  | jump hu hp =>
    rcases last_cases his with ⟨-, rfl⟩ | ⟨l', -, hl, -⟩ | ⟨-, hl, -⟩
    · have := hp j (by simp)
      rw [hj.1] at this
      cases this
    · rw [List.concat_eq_append] at hl
      rw [← (last_eq hl).2, hj.2] at hu
      cases hu
    · simp at hl
  | cond ho => exact ⟨_, inserted _ _ ho⟩
  | split ho => exact ⟨_, inserted _ _ ho⟩

/-- Assembly text and object code of the output are the same program exactly when the
input has no conditional branch. -/
theorem readAlike_iff (hmf : WellFormed mf) (hd : DirectBranches mf)
    (hin : ∀ c ∈ mf.layout, ∀ i ∈ (mf.blocks c).instrs, Tied i)
    (h : runOnMachineFunction dummyInstr mf = .ok out) :
    ReadAlike mf out ↔
      ∀ c ∈ mf.layout, ∀ i ∈ (mf.blocks c).instrs, i.isConditionalBranch = false := by
  obtain ⟨entry, fin, hentry, W, rfl⟩ := walk_of_run hmf h
  refine ⟨fun hR c hc i hi => ?_, fun hcond => ?_⟩
  · by_contra hne
    rw [Bool.not_eq_false] at hne
    obtain ⟨pre, jccs, jmp, his, hpre, hjccs, hjmp⟩ := hd c hc
    have hj : i ∈ jccs := by
      rw [his] at hi
      simp only [List.mem_append, Option.mem_toList] at hi
      rcases hi with (hi | hi) | hi
      · rw [(hpre i hi).1] at hne
        cases hne
      · exact hi
      · have := isUnconditionalBranch_of_jmp1 (hjmp i hi).1
        simp only [MachineInstr.isUnconditionalBranch, MachineInstr.isConditionalBranch,
          Bool.and_eq_true, Bool.not_eq_true'] at this hne
        rw [this.1.2] at hne
        cases hne.1.2
    obtain ⟨cc, hcc⟩ := cmov_mem_of_rewritten (W.rewritten hc) his (fun i hi => (hjccs i hi).1)
      (fun i hi => (hjmp i hi).1) (List.ne_nil_of_mem hj)
    have hb := W.mem_before_of_processed (W.mem_processedMBBs hc)
    refine cmov_not_tied cc (hR.tied c ?_ _ ?_)
    · rw [addFrontBlock_layout _ _ W.after_eq_nil]
      exact List.mem_cons_of_mem _ hb
    · rw [insertedInstrs, if_pos hc, W.out_blocks entry hb]
      exact hcc
  · have ht := tied_of_unconditional hmf hentry W fun c hc i hi => ⟨hin c hc i hi, hcond c hc i hi⟩
    refine ⟨fun b hb i hi => (ht b hb i ?_).1, fun σ T addr s => ?_⟩
    · rw [insertedInstrs] at hi
      split at hi
      · exact dropCommon_subset _ _ hi
      · exact hi
    · exact (Program.same_of_tied id ht s).1

/-- The conversion of `hop`, where a jump and two fall-throughs are replaced, reads alike. -/
theorem readAlike_iff_hop :
    ∃ out, runOnMachineFunction true hop = .ok out ∧ ReadAlike hop out := by
  have hok : (runOnMachineFunction true hop).isOk := by decide
  cases hout : runOnMachineFunction true hop with
  | error e =>
    rw [hout] at hok
    cases hok
  | ok out =>
    refine ⟨out, rfl, (readAlike_iff hop_emitted.toWellFormed (fun c hc => ?_) (by decide) hout).mpr
      (by decide)⟩
    have hc : c ∈ [0, 1, 2, 3] := hc
    simp only [List.mem_cons, List.not_mem_nil, or_false] at hc
    rcases hc with rfl | rfl | rfl | rfl
    · exact ⟨[], [], some ⟨.jmp1, [.mbb 3]⟩, rfl, by simp, by simp, by simp [MachineInstr.mbb?,
        MachineInstr.getOperand]⟩
    · exact ⟨List.replicate 3 ⟨.other 0 {}, []⟩, [], none, rfl, by decide, by simp, by simp⟩
    · exact ⟨[], [], none, rfl, by decide, by simp, by simp⟩
    · exact ⟨[⟨.retq, []⟩], [], none, rfl, by decide, by simp, by simp⟩

/-- In `selfLoop` with ZF set the object code loops, while the assembly text leaves. -/
theorem selfLoop_not_readAlike :
    WellFormed selfLoop ∧ DirectBranches selfLoop ∧
      (∀ c ∈ selfLoop.layout, ∀ i ∈ (selfLoop.blocks c).instrs, Tied i) ∧
      ∃ out, runOnMachineFunction false selfLoop = .ok out ∧
        (∃ b ∈ out.layout, ∃ i ∈ insertedInstrs selfLoop out b, ¬ Tied i) ∧
        ∃ os, (Program.system ⟨out, idle, BitVec.ofNat 64, .asm⟩).Emits entered
            (.start { zeroed with eflags := { zeroed.eflags with zf := true } }) os ∧
          ¬ (Program.system ⟨out, idle, BitVec.ofNat 64, .object⟩).Emits entered
            (.start { zeroed with eflags := { zeroed.eflags with zf := true } }) os := by
  refine ⟨selfLoop_convertible.toWellFormed, selfLoop_convertible.directBranches, by decide, ?_⟩
  have htied : ((runOnMachineFunction false selfLoop).map fun out =>
      decide (∃ b ∈ out.layout, ∃ i ∈ insertedInstrs selfLoop out b, ¬ Tied i)) = .ok true := by
    decide
  have hrun : ((runOnMachineFunction false selfLoop).map fun out =>
      ([Reading.asm, .object].map fun rd =>
        ((Program.system ⟨out, idle, BitVec.ofNat 64, rd⟩).shown 8
          (.start { zeroed with eflags := { zeroed.eflags with zf := true } })).filterMap entered)) =
      .ok [[5, 0, 2, 3, 1], [5, 0, 2, 4, 0]] := by decide
  cases hout : runOnMachineFunction false selfLoop with
  | error e =>
    rw [hout] at hrun
    cases hrun
  | ok out =>
    rw [hout] at hrun htied
    have hrun := Except.ok.inj hrun
    beta_reduce at hrun
    simp only [List.map_cons, List.map_nil, List.cons.injEq, and_true] at hrun
    refine ⟨out, rfl, of_decide_eq_true (Except.ok.inj htied), [5, 0, 2, 3, 1], ?_, fun h => ?_⟩
    · rw [← hrun.1]
      exact System.emits_shown entered 8 _
    · have h' := System.emits_shown (M := Program.system ⟨out, idle, BitVec.ofNat 64, .object⟩)
        entered 8 (.start { zeroed with eflags := { zeroed.eflags with zf := true } })
      rw [hrun.2] at h'
      rcases h.prefix_or h' with h | h <;> revert h <;> decide

end BS.BranchConversion
