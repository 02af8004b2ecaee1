import BranchShadowing.Spec.BranchConversion

/-!
# Facts about the semantics

The steps of a program as runs of one step, and what an instruction does that
names neither R13 nor R15: the same in states that differ only there
(`Program.exec_hide`).
-/

namespace BS.X86

variable {σ : Type}

namespace State

theorem hide_gpr (s : State σ) (g : GPR) :
    s.hide.gpr g = if g = .r13 ∨ g = .r15 then 0 else s.gpr g := by
  simp only [hide, setReg_gpr]
  split_ifs <;> simp_all

theorem gpr_eq_of_hide {s s' : State σ} (h : s.hide = s'.hide) {g : GPR} (h₁ : g ≠ .r13)
    (h₂ : g ≠ .r15) : s.gpr g = s'.gpr g := by
  have := congrArg (State.gpr · g) h
  simpa [hide_gpr, h₁, h₂] using this

theorem eflags_eq_of_hide {s s' : State σ} (h : s.hide = s'.hide) : s.eflags = s'.eflags :=
  (State.mk.inj h).2.1

theorem rest_eq_of_hide {s s' : State σ} (h : s.hide = s'.hide) : s.rest = s'.rest :=
  (State.mk.inj h).2.2

/-- States that agree on all but R13 and R15 are the same but for these. -/
theorem hide_eq {s s' : State σ} (hg : ∀ g, g ≠ .r13 → g ≠ .r15 → s.gpr g = s'.gpr g)
    (he : s.eflags = s'.eflags) (hr : s.rest = s'.rest) : s.hide = s'.hide := by
  have hgpr : s.hide.gpr = s'.hide.gpr := by
    funext g
    rw [hide_gpr, hide_gpr]
    split
    · rfl
    · rename_i h
      rw [not_or] at h
      exact hg g h.1 h.2
  exact State.mk.injEq .. ▸ ⟨hgpr, he, hr⟩

theorem setReg_hide_congr {s s' : State σ} (h : s.hide = s'.hide) (g : GPR) (v : BitVec 64) :
    (s.setReg g v).hide = (s'.setReg g v).hide := by
  have he : s.eflags = s'.eflags := eflags_eq_of_hide h
  have hr : s.rest = s'.rest := rest_eq_of_hide h
  refine hide_eq (fun g' h₁ h₂ => ?_) he hr
  rw [setReg_gpr, setReg_gpr, gpr_eq_of_hide h h₁ h₂]

theorem add8_hide_congr {s s' : State σ} (h : s.hide = s'.hide) {g : GPR} (h₁ : g ≠ .r13)
    (h₂ : g ≠ .r15) (i : BitVec 8) : (s.add8 g i).hide = (s'.add8 g i).hide := by
  have hg := gpr_eq_of_hide h h₁ h₂
  have hr : s.rest = s'.rest := rest_eq_of_hide h
  refine hide_eq (fun g' h₁' h₂' => ?_) ?_ hr
  · simp only [add8, setReg_gpr, hg, gpr_eq_of_hide h h₁' h₂']
  · simp only [add8, hg]

theorem setReg_hide (s : State σ) {g : GPR} (hg : g = .r13 ∨ g = .r15) (v : BitVec 64) :
    (s.setReg g v).hide = s.hide := by
  simp only [hide, setReg, State.mk.injEq, and_true]
  funext g'
  simp only [Function.update_apply]
  rcases hg with rfl | rfl <;> split_ifs <;> rfl

end State

namespace Program

variable (P : Program σ) {b c : Nat} {i : MachineInstr} {is : List MachineInstr} {s s' : State σ}

theorem stepsIn_next (h : P.exec i s = .next s') :
    P.system.StepsIn 1 (.run b (i :: is) s) [.exec b i s] (.run b is s') :=
  .one (by simp only [system, step, h])

theorem stepsIn_goto (h : P.exec i s = .goto c s') :
    P.system.StepsIn 1 (.run b (i :: is) s) [.exec b i s, .enter c s']
      (.run c (P.instrs c) s') :=
  .one (by simp only [system, step, h])

theorem stepsIn_exit {o : Exit} (h : P.exec i s = .exit o s') :
    P.system.StepsIn 1 (.run b (i :: is) s) [.exec b i s] (.done b o s') :=
  .one (by simp only [system, step, h])

theorem stepsIn_fall (h : P.mf.layoutSucc b = some c) :
    P.system.StepsIn 1 (.run b [] s) [.enter c s] (.run c (P.instrs c) s) :=
  .one (by simp only [system, step, h])

/-- In a block there is always a next step. -/
theorem step_run_ne_none (b : Nat) (is : List MachineInstr) (s : State σ) :
    P.system.step (.run b is s) ≠ none := by
  show P.step (.run b is s) ≠ none
  cases is with
  | nil =>
    simp only [step]
    split <;> exact Option.some_ne_none _
  | cons i is =>
    simp only [step]
    split <;> exact Option.some_ne_none _

end Program

/-- The state in which an instruction leaves a program, with R13 and R15 hidden. -/
def Next.hide : Next σ → Next σ
  | .next s => .next s.hide
  | .goto b s => .goto b s.hide
  | .exit o s => .exit o s.hide

namespace MachineInstr

theorem mentions_of_mem {i : MachineInstr} {r : Reg} {g : GPR} (h : .reg r ∈ i.operands)
    (hr : r.super = some g) : i.mentions g = true :=
  List.any_eq_true.mpr ⟨_, h, by simp [hr]⟩

theorem mem_of_getOperand {i : MachineInstr} {k : Nat} {o : MachineOperand}
    (h : i.getOperand k = some o) : o ∈ i.operands := List.mem_of_getElem? h

/-- A register that an instruction names, which does not name R13 and R15. -/
theorem ne_scratch {i : MachineInstr} (h₁ : i.mentions .r13 = false)
    (h₂ : i.mentions .r15 = false) {r : Reg} {g : GPR} (h : .reg r ∈ i.operands)
    (hr : r.super = some g) : g ≠ .r13 ∧ g ≠ .r15 := by
  have hg := mentions_of_mem h hr
  refine ⟨?_, ?_⟩ <;> rintro rfl <;> simp_all

end MachineInstr

theorem Reading.destOperand_mem {rd : Reading} {i : MachineInstr} {o : MachineOperand}
    (h : rd.destOperand i = some o) : o ∈ i.operands := by
  cases rd <;> exact MachineInstr.mem_of_getOperand h

namespace Program

open BranchConversion

/-- Only an indirect jump depends on which blocks a program has. -/
theorem exec_congr {P Q : Program σ} (ht : Q.target = P.target) (ha : Q.addr = P.addr)
    (hr : Q.reading = P.reading) {i : MachineInstr} (h₁ : i.opcode ≠ .jmp64r)
    (h₂ : i.opcode ≠ .jmp64m) (s : State σ) : Q.exec i s = P.exec i s := by
  unfold exec
  cases ho : i.opcode with
  | jmp64r => exact absurd ho h₁
  | jmp64m => exact absurd ho h₂
  | _ => simp only [execOther, ht, ha, hr]

theorem execOther_ne_goto (P : Program σ) (i : MachineInstr) (s s' : State σ) (d : Nat) :
    P.execOther i s ≠ .goto d s' := by
  unfold execOther
  split <;> exact fun h => by cases h

/-- A direct branch goes to the block that is its operand. -/
theorem mbb?_of_exec_goto {P : Program σ} {i : MachineInstr} {s s' : State σ} {d : Nat}
    (h₁ : i.opcode ≠ .jmp64r) (h₂ : i.opcode ≠ .jmp64m) (h : P.exec i s = .goto d s') :
    i.mbb? = some d := by
  have hother := P.execOther_ne_goto i s s' d
  unfold exec at h
  cases ho : i.opcode with
  | jmp64r => exact absurd ho h₁
  | jmp64m => exact absurd ho h₂
  | jcc1 cc =>
    simp only [ho] at h
    split at h
    · rename_i b hb
      split at h <;> cases h
      exact hb
    · split at h <;> cases h
  | jmp1 =>
    simp only [ho] at h
    split at h <;> cases h
    assumption
  | jmp4 =>
    simp only [ho] at h
    split at h <;> cases h
    assumption
  | lea64r =>
    simp only [ho] at h
    split at h
    · cases h
    · exact absurd h hother
  | cmov64rr cc =>
    simp only [ho] at h
    split at h
    · cases h
    · exact absurd h hother
  | add8ri =>
    simp only [ho] at h
    split at h
    · cases h
    · exact absurd h hother
  | retq | retiq | tailjmpd64 | tailjmpr64 | tailjmpm64 =>
    simp only [ho] at h
    cases h
  | _ =>
    simp only [ho] at h
    exact absurd h hother

theorem mem_layout_of_jumpTo {P : Program σ} {w : BitVec 64} {s s' : State σ} {d : Nat}
    (h : P.jumpTo w s = .goto d s') : d ∈ P.mf.layout := by
  unfold jumpTo at h
  split at h
  · rename_i b hb
    cases h
    exact List.mem_of_find?_eq_some hb
  · cases h

/-- Whatever jumps in a function, it jumps to a block of it. -/
theorem mem_layout_of_exec_goto {P : Program σ} {i : MachineInstr} {s s' : State σ} {d : Nat}
    (ht : ∀ d ∈ i.mbb?, d ∈ P.mf.layout) (h : P.exec i s = .goto d s') : d ∈ P.mf.layout := by
  by_cases h₁ : i.opcode = .jmp64r
  · simp only [exec, h₁] at h
    split at h
    · exact mem_layout_of_jumpTo h
    · exact absurd h (P.execOther_ne_goto i s s' d)
  by_cases h₂ : i.opcode = .jmp64m
  · simp only [exec, h₂] at h
    exact mem_layout_of_jumpTo h
  · exact ht d (mbb?_of_exec_goto h₁ h₂ h)

variable {P : Program σ} {i : MachineInstr} {s s' : State σ}

theorem execOther_hide (hT : IgnoresScratch P.target) (h₁ : i.mentions .r13 = false)
    (h₂ : i.mentions .r15 = false) (hs : s.hide = s'.hide) :
    (P.execOther i s).hide = (P.execOther i s').hide := by
  have h := hT.exec i s s' h₁ h₂ hs
  unfold execOther
  cases he : P.target.exec i s with
  | none =>
    cases he' : P.target.exec i s' with
    | none => simp only [Next.hide, hs]
    | some t => simp [he, he'] at h
  | some t =>
    cases he' : P.target.exec i s' with
    | none => simp [he, he'] at h
    | some t' =>
      simp only [he, he', Option.map_some, Option.some.injEq] at h
      simp only [Next.hide, h]

theorem jumpTo_hide (hs : s.hide = s'.hide) (w : BitVec 64) :
    (P.jumpTo w s).hide = (P.jumpTo w s').hide := by
  unfold jumpTo
  split <;> simp only [Next.hide, hs]

/-- An instruction that names neither R13 nor R15 does the same whatever these
hold. -/
theorem exec_hide (hT : IgnoresScratch P.target) (h₁ : i.mentions .r13 = false)
    (h₂ : i.mentions .r15 = false) (hs : s.hide = s'.hide) :
    (P.exec i s).hide = (P.exec i s').hide := by
  have hother := execOther_hide hT h₁ h₂ hs
  have hf := State.eflags_eq_of_hide hs
  have hreg {r : Reg} {g : GPR} (hm : MachineOperand.reg r ∈ i.operands)
      (hr : r.super = some g) : g ≠ .r13 ∧ g ≠ .r15 := MachineInstr.ne_scratch h₁ h₂ hm hr
  unfold exec
  cases ho : i.opcode with
  | jcc1 cc =>
    simp only [hf]
    split <;> split <;> simp only [Next.hide, hs]
  | jmp1 =>
    simp only
    split <;> simp only [Next.hide, hs]
  | jmp4 =>
    simp only
    split <;> simp only [Next.hide, hs]
  | jmp64r =>
    simp only
    split
    · rename_i g hg
      have hne := hreg (MachineInstr.mem_of_getOperand hg) rfl
      rw [State.gpr_eq_of_hide hs hne.1 hne.2]
      exact jumpTo_hide hs _
    · exact hother
  | jmp64m =>
    simp only [hT.jumpTarget i s s' h₁ h₂ hs]
    exact jumpTo_hide hs _
  | lea64r =>
    simp only
    split
    · exact congrArg Next.next (State.setReg_hide_congr hs _ _)
    · exact hother
  | cmov64rr cc =>
    simp only [hf]
    split
    · rename_i d src hd hsrc
      have hne := hreg (MachineInstr.mem_of_getOperand hsrc) rfl
      rw [State.gpr_eq_of_hide hs hne.1 hne.2]
      split
      · exact congrArg Next.next (State.setReg_hide_congr hs _ _)
      · simp only [Next.hide, hs]
    · exact hother
  | add8ri =>
    simp only
    split
    · rename_i d n hd hn
      have hne := hreg (Reading.destOperand_mem hd) rfl
      exact congrArg Next.next (State.add8_hide_congr hs hne.1 hne.2 _)
    · exact hother
  | retq => simp only [Next.hide, hs]
  | retiq => simp only [Next.hide, hs]
  | tailjmpd64 => simp only [Next.hide, hs]
  | tailjmpr64 => simp only [Next.hide, hs]
  | tailjmpm64 => simp only [Next.hide, hs]
  | _ => exact hother

theorem exec_of_isCall (P : Program σ) (ho : Ordinary i) (hc : i.isCall) :
    P.exec i s = P.execOther i s := by
  have hr : i.opcode.desc.isReturn = false := ho.isReturn
  have hc : i.opcode.desc.isCall = true := hc
  unfold exec
  cases hop : i.opcode with
  | retq | retiq | tailjmpd64 | tailjmpr64 | tailjmpm64 => simp [hop, Opcode.desc] at hr
  | jcc1 | jmp1 | jmp4 | jmp64r | jmp64m | lea64r | cmov64rr | add8ri =>
    simp [hop, Opcode.desc] at hc
  | _ => rfl

/-- An ordinary instruction leads to the next one, or control is gone. -/
theorem exec_ordinary (P : Program σ) (ho : Ordinary i) (s : State σ) :
    (∃ s₁, P.exec i s = .next s₁) ∨ P.exec i s = .exit .gone s := by
  have hother : (∃ s₁, P.execOther i s = .next s₁) ∨ P.execOther i s = .exit .gone s := by
    unfold execOther
    cases P.target.exec i s with
    | none => exact .inr rfl
    | some t => exact .inl ⟨t, rfl⟩
  have hb : i.opcode.desc.isBranch = false := ho.isBranch
  have hr : i.opcode.desc.isReturn = false := ho.isReturn
  unfold exec
  cases hop : i.opcode with
  | lea64r =>
    simp only
    split
    · exact .inl ⟨_, rfl⟩
    · exact hother
  | cmov64rr cc =>
    simp only
    split
    · exact .inl ⟨_, rfl⟩
    · exact hother
  | add8ri =>
    simp only
    split
    · exact .inl ⟨_, rfl⟩
    · exact hother
  | call64pcrel32 => exact hother
  | call64r => exact hother
  | call64m => exact hother
  | trap => exact hother
  | other n d => exact hother
  | jcc1 | jmp1 | jmp4 | jmp64r | jmp64m | tailjmpd64cc => simp [hop, Opcode.desc] at hb
  | retq | retiq | tailjmpd64 | tailjmpr64 | tailjmpm64 => simp [hop, Opcode.desc] at hr

end Program

end BS.X86
