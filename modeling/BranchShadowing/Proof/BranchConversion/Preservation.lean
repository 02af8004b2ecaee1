import BranchShadowing.Proof.BranchConversion.Execution
import BranchShadowing.Proof.BranchConversion.Shape

/-!
# The conversion keeps the meaning of a function

The converted function simulates the function it was made of (`Related`). While
control stays in a block the two go in step; where it leaves the block, the input
makes one step and the output comes to the same block over a fake block and
trampolines (`Converts.route`), of which nothing is seen.
-/

namespace BS.BranchConversion

open X86 PassState

variable {σ : Type}

/-- `Q` is what the pass makes of `P`, whose function is `mf`. -/
structure Converts (mf : MachineFunction) (P Q : Program σ) (fin : PassState) (entry : Nat) :
    Prop where
  convertible : Convertible mf
  free : ScratchFree mf
  input : P.mf = mf
  head : mf.layout.head? = some entry
  walked : Walked false mf fin
  placed : Placed Q fin entry
  target : Q.target = P.target
  addr : Q.addr = P.addr
  reading : P.reading = Q.reading
  object : Q.reading = .object
  ignores : IgnoresScratch P.target

/-! ## What is seen of a step -/

section

variable {mf : MachineFunction} {c : Nat} {i : MachineInstr} {s s' : State σ}

theorem observe_exec_of_not_mem (h : c ∉ mf.layout) : observe mf (.exec c i s) = none := by
  simp [observe, h]

theorem observe_exec_of_not_kept (h : isKept i = false) : observe mf (.exec c i s) = none := by
  simp [observe, h]

theorem observe_enter_of_not_mem (h : c ∉ mf.layout) : observe mf (.enter c s) = none := by
  simp [observe, h]

theorem observe_enter (h : c ∈ mf.layout) : observe mf (.enter c s) = some (.enter c s.hide) := by
  simp [observe, h]

theorem observe_exec_congr (h : s.hide = s'.hide) :
    observe mf (.exec c i s) = observe mf (.exec c i s') := by simp [observe, h]

theorem observe_enter_congr (h : s.hide = s'.hide) :
    observe mf (.enter c s) = observe mf (.enter c s') := by simp [observe, h]

theorem isKept_of_isBranch (h : i.isBranch = true) : isKept i = false := by simp [isKept, h]

theorem isKept_lea {g : GPR} (h : g = .r13 ∨ g = .r15) (z : Nat) : isKept (lea g z) = false := by
  rcases h with rfl | rfl <;> rfl

theorem isKept_cmov (cc : Cond) : isKept (cmov (.cmov64rr cc)) = false := rfl

/-- An instruction that is not seen. -/
theorem shows_unseen (mf : MachineFunction) (c : Nat) {Q : Program σ} (is : List MachineInstr)
    (h : Q.exec i s = .next s')
    (hk : isKept i = false) :
    Q.system.Shows (observe mf) (.run c (i :: is) s) [] (.run c is s') :=
  (Q.stepsIn_next h).shows (by simp [observe_exec_of_not_kept hk])

end

namespace Converts

variable {mf : MachineFunction} {P Q : Program σ} {fin : PassState} {entry : Nat}
  {c d f i n z : Nat} {s s' : State σ} (C : Converts mf P Q fin entry)
include C

theorem not_mem_of_not_processed (h : z ∉ fin.processedMBBs) : z ∉ mf.layout := fun hz => by
  obtain ⟨i, hi, -⟩ := C.walked.kept z hz
  exact h (List.mem_of_getElem? hi)

theorem not_mem_of_nextMBB_le (h : mf.nextMBB ≤ z) : z ∉ mf.layout := fun hz => by
  have := C.convertible.fresh z hz
  omega

/-- Over a fake block control comes to the trampoline in R15, unseen. -/
theorem fake (hf : FakeAfter fin c f) (hz : Genuine fin z) (hzp : z ∉ fin.processedMBBs)
    (hs : s.gpr .r15 = Q.addr z) :
    Q.system.Shows (observe mf) (.run c [] s) [] (.run z (Q.instrs z) s) := by
  refine (C.placed.run_fake hf hz hs).shows ?_
  have hf' := C.not_mem_of_not_processed hf.2.2
  have hz' := C.not_mem_of_not_processed hzp
  simp [observe_enter_of_not_mem, observe_exec_of_not_mem, hf', hz']

/-- From a trampoline control comes to where it leads, unseen but for that. -/
theorem route (h : Route false fin n z d) (s : State σ) :
    ∃ s', Q.system.Shows (observe mf) (.run z (Q.instrs z) s) (observe mf (.enter d s)).toList
      (.run d (Q.instrs d) s') ∧ s'.hide = s.hide := by
  induction h generalizing s with
  | @arrive n j z d hz hzp hi =>
    refine ⟨s, ?_, rfl⟩
    rw [C.placed.instrs hz, hi]
    refine (Q.stepsIn_goto (exec_jmp4 Q s d)).shows ?_
    rw [List.filterMap_cons_none (observe_exec_of_not_mem (C.not_mem_of_not_processed hzp))]
    cases h : observe mf (.enter d s) <;> simp [h]
  | @skip n k z z' c f d hz hzp _ hf hi hr ih =>
    obtain ⟨-, hzp'⟩ := hr.mem
    obtain ⟨m, es, s₁, hm, hs, he, hh, -⟩ := C.placed.run_skip hf hr.genuine [] s
    rw [List.append_nil, ← hi, ← C.placed.instrs hz] at hs
    have hquiet : Q.system.Shows (observe mf) (.run z (Q.instrs z) s) []
        (.run z' (Q.instrs z') s₁) := by
      refine ⟨m, _, hm, hs, ?_⟩
      rw [List.filterMap_eq_nil_iff]
      intro e hm
      simp only [List.mem_append, List.mem_cons, List.not_mem_nil, or_false] at hm
      rcases hm with hm | rfl | rfl | rfl
      · obtain ⟨i, s, rfl⟩ := he e hm
        exact observe_exec_of_not_mem (C.not_mem_of_not_processed hzp)
      · exact observe_enter_of_not_mem (C.not_mem_of_not_processed hf.2.2)
      · exact observe_exec_of_not_mem (C.not_mem_of_not_processed hf.2.2)
      · exact observe_enter_of_not_mem (C.not_mem_of_not_processed hzp')
    obtain ⟨s', h', hs'⟩ := ih s₁
    rw [observe_enter_congr (hh rfl)] at h'
    exact ⟨s', hquiet.trans h', hs'.trans (hh rfl)⟩

/-- The end that replaces a jump or a fall-through. -/
theorem land (hf : FakeAfter fin c f) (hr : Route false fin n z d) (s : State σ) :
    ∃ s', Q.system.Shows (observe mf) (.run c [lea .r15 z] s) (observe mf (.enter d s)).toList
      (.run d (Q.instrs d) s') ∧ s'.hide = s.hide := by
  have hlea := shows_unseen mf c [] (exec_lea Q s .r15 z) (isKept_lea (.inr rfl) z)
  have hfake := C.fake hf hr.genuine hr.mem.2 (s := s.setReg .r15 (Q.addr z)) (by simp)
  have hide : (s.setReg .r15 (Q.addr z)).hide = s.hide := s.setReg_hide (.inr rfl) _
  obtain ⟨s', hroute, hs'⟩ := C.route hr (s.setReg .r15 (Q.addr z))
  rw [observe_enter_congr hide] at hroute
  exact ⟨s', (hlea.trans hfake).trans hroute, hs'.trans hide⟩

/-- The end that replaces a conditional branch, from its second instruction on. -/
theorem select (cc : Cond) {n' dF dT zF zT : Nat} (hf : FakeAfter fin c f)
    (hF : Route false fin n zF dF) (hT : Route false fin n' zT dT) (s : State σ) :
    ∃ s', Q.system.Shows (observe mf)
      (.run c [lea .r13 zT, cmov (.cmov64rr cc)] (s.setReg .r15 (Q.addr zF)))
      (observe mf (.enter (if cc.holds s.eflags then dT else dF) s)).toList
      (.run (if cc.holds s.eflags then dT else dF)
        (Q.instrs (if cc.holds s.eflags then dT else dF)) s') ∧ s'.hide = s.hide := by
  let s₁ := s.setReg .r15 (Q.addr zF)
  let s₂ := s₁.setReg .r13 (Q.addr zT)
  have hide₂ : s₂.hide = s.hide :=
    (s₁.setReg_hide (.inl rfl) _).trans (s.setReg_hide (.inr rfl) _)
  have hlea := shows_unseen mf c [cmov (.cmov64rr cc)] (exec_lea Q s₁ .r13 zT)
    (isKept_lea (.inl rfl) zT)
  have hcmov := shows_unseen mf c [] (exec_cmov_object Q s₂ C.object cc) (isKept_cmov cc)
  have heflags : s₂.eflags = s.eflags := rfl
  by_cases hc : cc.holds s.eflags
  · simp only [heflags, hc, if_true] at hcmov ⊢
    let s₃ := s₂.setReg .r15 (s₂.gpr .r13)
    have hide₃ : s₃.hide = s.hide := (s₂.setReg_hide (.inr rfl) _).trans hide₂
    have hfake := C.fake hf hT.genuine hT.mem.2 (s := s₃) (by simp [s₃, s₂])
    obtain ⟨s', hroute, hs'⟩ := C.route hT s₃
    rw [observe_enter_congr hide₃] at hroute
    exact ⟨s', ((hlea.trans hcmov).trans hfake).trans hroute, hs'.trans hide₃⟩
  · simp only [heflags, hc, Bool.false_eq_true, if_false] at hcmov ⊢
    have hfake := C.fake hf hF.genuine hF.mem.2 (s := s₂) (by simp [s₂, s₁])
    obtain ⟨s', hroute, hs'⟩ := C.route hF s₂
    rw [observe_enter_congr hide₂] at hroute
    exact ⟨s', ((hlea.trans hcmov).trans hfake).trans hroute, hs'.trans hide₂⟩

end Converts

/-! ## The simulation -/

section

variable {mf : MachineFunction} {i : MachineInstr} {d : Nat}

theorem exec_of_isJmp (P : Program σ) (h : IsJmp mf i) (hd : i.mbb? = some d) (s : State σ) :
    P.exec i s = .goto d s := by
  simp only [Program.exec, h.1, hd]

theorem exec_of_jcc1 (P : Program σ) {cc : Cond} (h : i.opcode = .jcc1 cc) (hd : i.mbb? = some d)
    (s : State σ) : P.exec i s = if cc.holds s.eflags then .goto d s else .next s := by
  simp only [Program.exec, h, hd]

theorem exec_of_isReturn (P : Program σ) (h : IsReturn i) (s : State σ) :
    ∃ o, P.exec i s = .exit o s ∧ (o = .ret ∨ o = .tailCall) := by
  simp only [IsReturn, List.mem_cons, List.not_mem_nil, or_false] at h
  rcases h with h | h | h | h | h
  · exact ⟨.ret, by simp only [Program.exec, h], .inl rfl⟩
  · exact ⟨.ret, by simp only [Program.exec, h], .inl rfl⟩
  all_goals exact ⟨.tailCall, by simp only [Program.exec, h], .inr rfl⟩

theorem ne_of_not_indirect (h : i.isIndirectBranch = false) :
    i.opcode ≠ .jmp64r ∧ i.opcode ≠ .jmp64m := by
  refine ⟨fun ho => ?_, fun ho => ?_⟩ <;>
    simp [MachineInstr.isIndirectBranch, ho, Opcode.desc] at h

theorem IsJmp.target_mem (h : IsJmp mf i) (hd : i.mbb? = some d) : d ∈ mf.layout := by
  obtain ⟨-, d', hd', h⟩ := h
  exact Option.some.inj (h.symm.trans hd) ▸ hd'

theorem IsJcc.target_mem (h : IsJcc mf i) (hd : i.mbb? = some d) : d ∈ mf.layout := by
  obtain ⟨-, d', hd', h⟩ := h
  exact Option.some.inj (h.symm.trans hd) ▸ hd'

theorem IsJcc.isBranch (h : IsJcc mf i) : i.isBranch = true :=
  isBranch_of_conditional h.conditional

theorem IsJmp.isBranch (h : IsJmp mf i) : i.isBranch = true :=
  isBranch_of_unconditional h.unconditional

theorem IsIndirectJump.isBranch (h : IsIndirectJump i) : i.isBranch = true := by
  rcases h with ⟨h, -⟩ | ⟨h, -⟩ <;> simp [MachineInstr.isBranch, h, Opcode.desc]

end

/-- The next step of the input is into block `d`, and only that is seen of it. -/
def Leaves (mf : MachineFunction) (P : Program σ) (c : Nat) (is : List MachineInstr) (s : State σ)
    (d : Nat) : Prop :=
  d ∈ mf.layout ∧ ∃ ev, P.system.step (.run c is s) = some (ev, .run d (P.instrs d) s) ∧
    ev.filterMap (observe mf) = [.enter d s.hide]

theorem leaves_of_goto {mf : MachineFunction} {P : Program σ} {c d : Nat} {mi : MachineInstr}
    {s : State σ} (is : List MachineInstr) (h : P.exec mi s = .goto d s) (hb : mi.isBranch = true)
    (hd : d ∈ mf.layout) : Leaves mf P c (mi :: is) s d := by
  refine ⟨hd, [.exec c mi s, .enter d s], by simp only [Program.system, Program.step, h], ?_⟩
  rw [List.filterMap_cons_none (observe_exec_of_not_kept (isKept_of_isBranch hb)),
    List.filterMap_cons_some (observe_enter hd)]
  rfl

theorem leaves_of_fall {mf : MachineFunction} {P : Program σ} {c d : Nat} (s : State σ)
    (h : P.mf.layoutSucc c = some d) (hd : d ∈ mf.layout) : Leaves mf P c [] s d :=
  ⟨hd, [.enter d s], by simp only [Program.system, Program.step, h],
    by rw [List.filterMap_cons_some (observe_enter hd)]; rfl⟩

/-- What is seen where control enters a block of the input. -/
theorem shows_enter {mf : MachineFunction} {Q : Program σ} {d : Nat} {s s' : State σ}
    {t t' : Cfg σ} (hd : d ∈ mf.layout) (hs : s.hide = s'.hide)
    (h : Q.system.Shows (observe mf) t (observe mf (.enter d s')).toList t') :
    Q.system.Shows (observe mf) t [.enter d s.hide] t' := by
  rwa [observe_enter hd, ← hs, Option.toList_some] at h

/-- Where control is in the input, and where in the output. -/
inductive Related (mf : MachineFunction) (P Q : Program σ) (fin : PassState) :
    Cfg σ → Cfg σ → Prop
  | start (s : State σ) : Related mf P Q fin (.start s) (.start s)
  /-- At the same place of a block. -/
  | block {c i : Nat} {mid e e' : List MachineInstr} {s s' : State σ} : c ∈ mf.layout →
    (∀ j ∈ mid ++ e, j ∈ (mf.blocks c).instrs) → (∀ j ∈ mid, Ordinary j ∨ IsJcc mf j) →
    EndOf false mf fin c i e e' → s.hide = s'.hide →
    Related mf P Q fin (.run c (mid ++ e) s) (.run c (mid ++ e') s')
  /-- The input is about to enter block `d`, the output on its way there. -/
  | leaving {c d : Nat} {is : List MachineInstr} {s s' : State σ} {t : Cfg σ} :
    Leaves mf P c is s d →
    Q.system.Shows (observe mf) t [.enter d s.hide] (.run d (Q.instrs d) s') →
    s'.hide = s.hide → Related mf P Q fin (.run c is s) t
  | done {c : Nat} {o : Exit} {s s' : State σ} : s.hide = s'.hide →
    Related mf P Q fin (.done c o s) (.done c o s')

namespace Converts

variable {mf : MachineFunction} {P Q : Program σ} {fin : PassState} {entry : Nat}
  {c d : Nat} {s s' : State σ} {is is' : List MachineInstr} {mi : MachineInstr}
  {ev : List (Event σ)} {t t' : Cfg σ} (C : Converts mf P Q fin entry)
include C

theorem mem_before (hc : c ∈ mf.layout) : c ∈ fin.before := C.walked.layout hc

theorem genuine (hc : c ∈ mf.layout) : Genuine fin c := by
  obtain ⟨i, hi, -⟩ := C.walked.kept c hc
  exact .of_processed (C.mem_before hc) (List.mem_of_getElem? hi)

theorem related_enter (hd : d ∈ mf.layout) (hs : s.hide = s'.hide) :
    Related mf P Q fin (.run d (P.instrs d) s) (.run d (Q.instrs d) s') := by
  obtain ⟨i, -, mid, e, e', hi, hi', hmid, he⟩ := C.walked.kept d hd
  have hP : P.instrs d = mid ++ e := by rw [Program.instrs, C.input, hi]
  have hQ : Q.instrs d = mid ++ e' := (C.placed.instrs (C.mem_before hd)).trans hi'
  rw [hP, hQ]
  exact .block hd (fun j hj => hi ▸ hj) hmid he hs

/-- A step into the block that the output is on its way to. -/
theorem step_leaving (hP : P.system.step (.run c is s) = some (ev, t))
    (hleave : Leaves mf P c is s d)
    (hQ : Q.system.Shows (observe mf) t' [.enter d s.hide] (.run d (Q.instrs d) s'))
    (hs : s'.hide = s.hide) :
    ∃ t₁, Q.system.Shows (observe mf) t' (ev.filterMap (observe mf)) t₁ ∧
      Related mf P Q fin t t₁ := by
  obtain ⟨hd, ev', hstep, hev⟩ := hleave
  obtain ⟨rfl, rfl⟩ := Prod.mk.inj (Option.some.inj (hP.symm.trans hstep))
  exact ⟨_, hev ▸ hQ, C.related_enter hd hs.symm⟩

/-- An instruction that does the same in both. -/
theorem step_same (hs : s.hide = s'.hide)
    (he : (Q.exec mi s').hide = (P.exec mi s).hide)
    (hnext : ∀ s₁ s₁', P.exec mi s = .next s₁ → s₁.hide = s₁'.hide →
      Related mf P Q fin (.run c is s₁) (.run c is' s₁'))
    (hgoto : ∀ d s₁, P.exec mi s = .goto d s₁ → d ∈ mf.layout)
    (hP : P.system.step (.run c (mi :: is) s) = some (ev, t)) :
    ∃ t₁, Q.system.Shows (observe mf) (.run c (mi :: is') s') (ev.filterMap (observe mf)) t₁ ∧
      Related mf P Q fin t t₁ := by
  have hev : observe mf (.exec c mi s') = observe mf (.exec c mi s) := observe_exec_congr hs.symm
  simp only [Program.system, Program.step] at hP
  cases hp : P.exec mi s with
  | next s₁ =>
    rw [hp] at he hP
    cases hq : Q.exec mi s' with
    | next s₁' =>
      rw [hq] at he
      have hs₁ : s₁.hide = s₁'.hide := (Next.next.inj he).symm
      obtain ⟨rfl, rfl⟩ := Prod.mk.inj (Option.some.inj hP)
      exact ⟨_, (Q.stepsIn_next hq).shows (by simp only [List.filterMap_cons, hev]), hnext _ _ hp hs₁⟩
    | goto => simp [hq, Next.hide] at he
    | exit => simp [hq, Next.hide] at he
  | goto d s₁ =>
    rw [hp] at he hP
    cases hq : Q.exec mi s' with
    | goto d' s₁' =>
      rw [hq] at he
      obtain ⟨rfl, hs₁⟩ := Next.goto.inj he
      obtain ⟨rfl, rfl⟩ := Prod.mk.inj (Option.some.inj hP)
      have hent : observe mf (.enter d' s₁') = observe mf (.enter d' s₁) := observe_enter_congr hs₁
      exact ⟨_, (Q.stepsIn_goto hq).shows (by simp only [List.filterMap_cons, hev, hent]),
        C.related_enter (hgoto _ _ hp) hs₁.symm⟩
    | next => simp [hq, Next.hide] at he
    | exit => simp [hq, Next.hide] at he
  | exit o s₁ =>
    rw [hp] at he hP
    cases hq : Q.exec mi s' with
    | exit o' s₁' =>
      rw [hq] at he
      obtain ⟨rfl, hs₁⟩ := Next.exit.inj he
      obtain ⟨rfl, rfl⟩ := Prod.mk.inj (Option.some.inj hP)
      exact ⟨_, (Q.stepsIn_exit hq).shows (by simp only [List.filterMap_cons, hev]),
        .done hs₁.symm⟩
    | next => simp [hq, Next.hide] at he
    | goto => simp [hq, Next.hide] at he

/-- An instruction of the input that is no indirect branch does the same in both. -/
theorem exec_same (hc : c ∈ mf.layout) (hi : mi ∈ (mf.blocks c).instrs)
    (hind : mi.isIndirectBranch = false) (hs : s.hide = s'.hide) :
    (Q.exec mi s').hide = (P.exec mi s).hide := by
  obtain ⟨h₁, h₂⟩ := C.free c hc mi hi
  rw [Program.exec_congr C.target C.addr C.reading.symm (ne_of_not_indirect hind).1
    (ne_of_not_indirect hind).2]
  exact Program.exec_hide C.ignores h₁ h₂ hs.symm

/-- An indirect jump goes to the same block in both, if it goes to one. -/
theorem exec_indirect (hc : c ∈ mf.layout) (hi : mi ∈ (mf.blocks c).instrs)
    (hind : IsIndirectJump mi) (hs : s.hide = s'.hide) :
    (∃ w, P.exec mi s = .exit (.jump w) s) ∨
      ∃ d ∈ mf.layout, P.exec mi s = .goto d s ∧ Q.exec mi s' = .goto d s' := by
  obtain ⟨h₁, h₂⟩ := C.free c hc mi hi
  obtain ⟨w, hPw, hQw⟩ : ∃ w, P.exec mi s = P.jumpTo w s ∧ Q.exec mi s' = Q.jumpTo w s' := by
    rcases hind with ⟨ho, g, hg⟩ | ⟨ho, -⟩
    · obtain ⟨hg₁, hg₂⟩ :=
        MachineInstr.ne_scratch h₁ h₂ (MachineInstr.mem_of_getOperand hg) (g := g) rfl
      exact ⟨s.gpr g, by simp only [Program.exec, ho, hg],
        by simp only [Program.exec, ho, hg, State.gpr_eq_of_hide hs hg₁ hg₂]⟩
    · exact ⟨P.target.jumpTarget mi s, by simp only [Program.exec, ho],
        by simp only [Program.exec, ho, C.target, C.ignores.jumpTarget mi s s' h₁ h₂ hs]⟩
  rw [hPw, hQw]
  rcases C.placed.jumpTo_input C.addr (fun b hb => C.genuine (C.input ▸ hb)) w s s' with
    h | ⟨d, hd, h⟩
  · exact .inl ⟨w, h⟩
  · exact .inr ⟨d, C.input ▸ hd, h⟩

/-- A conditional branch to `d`. Where it is not taken, the input goes on to `m`;
the output has loaded R15 for that and is on its way to `d` or to `m`. -/
theorem step_cond {cc : Cond} {r : List MachineInstr} {m zF zT : Nat} (hmi : IsJcc mf mi)
    (ho : mi.opcode = .jcc1 cc) (hd : mi.mbb? = some d) (hs : s.hide = s'.hide)
    (hleave : Leaves mf P c r s m)
    (hQ : ∃ s₁, Q.system.Shows (observe mf)
      (.run c [lea .r13 zT, cmov (.cmov64rr cc)] (s'.setReg .r15 (Q.addr zF)))
      (observe mf (.enter (if cc.holds s'.eflags then d else m) s')).toList
      (.run (if cc.holds s'.eflags then d else m)
        (Q.instrs (if cc.holds s'.eflags then d else m)) s₁) ∧ s₁.hide = s'.hide)
    (hP : P.system.step (.run c (mi :: r) s) = some (ev, t)) :
    ∃ t₁, Q.system.Shows (observe mf)
      (.run c [lea .r15 zF, lea .r13 zT, cmov (.cmov64rr cc)] s') (ev.filterMap (observe mf)) t₁ ∧
      Related mf P Q fin t t₁ := by
  obtain ⟨s₁, hQ, hs₁⟩ := hQ
  have hexec := exec_of_jcc1 P ho hd s
  have hlea := shows_unseen mf c [lea .r13 zT, cmov (.cmov64rr cc)] (exec_lea Q s' .r15 zF)
    (isKept_lea (.inr rfl) zF)
  rw [State.eflags_eq_of_hide hs] at hexec
  by_cases hc : cc.holds s'.eflags
  · have hdl := hmi.target_mem hd
    simp only [hc, if_true] at hexec hQ
    exact C.step_leaving hP (leaves_of_goto r hexec hmi.isBranch hdl)
      (shows_enter hdl hs (hlea.trans hQ)) (hs₁.trans hs.symm)
  · simp only [hc, Bool.false_eq_true, if_false] at hexec hQ
    simp only [Program.system, Program.step, hexec] at hP
    obtain ⟨rfl, rfl⟩ := Prod.mk.inj (Option.some.inj hP)
    refine ⟨_, ?_, .leaving hleave (shows_enter hleave.1 hs hQ) (hs₁.trans hs.symm)⟩
    rwa [List.filterMap_cons_none (observe_exec_of_not_kept (isKept_of_isBranch hmi.isBranch))]

/-- A step at the end of a block. -/
theorem step_end {s₀ : State σ} {n i : Nat} {es : List (Event σ)} {e e' : List MachineInstr}
    (hx : SuccsExact P s₀) (hreach : P.system.StepsIn n (.start s₀) es (.run c e s))
    (hc : c ∈ mf.layout) (hi : ∀ j ∈ e, j ∈ (mf.blocks c).instrs)
    (he : EndOf false mf fin c i e e') (hs : s.hide = s'.hide)
    (hP : P.system.step (.run c e s) = some (ev, t)) :
    ∃ t₁, Q.system.Shows (observe mf) (.run c e' s') (ev.filterMap (observe mf)) t₁ ∧
      Related mf P Q fin t t₁ := by
  have hinput : ∀ n, mf.layoutSucc c = some n → P.mf.layoutSucc c = some n := fun n h => C.input ▸ h
  have hsucc : ∀ n, mf.layoutSucc c = some n → n ∈ mf.layout := fun n h => mem_of_nextOf h
  cases he with
  | @indirect mi hmi =>
    rcases C.exec_indirect hc (hi mi (by simp)) hmi hs with ⟨w, hw⟩ | ⟨d, hd, hPd, hQd⟩
    · have hstep := hP
      simp only [Program.system, Program.step, hw] at hstep
      obtain ⟨rfl, rfl⟩ := Prod.mk.inj (Option.some.inj hstep)
      rcases (hx _ _ _ _ _ hreach _ _ hP).2 _ _ _ rfl with h | h | h <;> cases h
    · refine C.step_leaving hP (leaves_of_goto [] hPd hmi.isBranch hd) ?_ hs.symm
      refine shows_enter hd hs ((Q.stepsIn_goto hQd).shows ?_)
      rw [List.filterMap_cons_none (observe_exec_of_not_kept (isKept_of_isBranch hmi.isBranch)),
        List.filterMap_cons_some (observe_enter hd), observe_enter hd]
      rfl
  | @ret mi hmi =>
    refine C.step_same hs (C.exec_same hc (hi mi (by simp)) hmi.flags.2.2.1 hs) ?_ ?_ hP
    · intro s₁ s₁' h
      obtain ⟨o, ho, -⟩ := exec_of_isReturn P hmi s
      cases ho.symm.trans h
    · intro d s₁ h
      obtain ⟨o, ho, -⟩ := exec_of_isReturn P hmi s
      cases ho.symm.trans h
  | @noReturn mi hmi _ hns =>
    refine C.step_same hs (C.exec_same hc (hi mi (by simp)) hmi.isIndirectBranch hs) ?_ ?_ hP
    · intro s₁ s₁' h
      have hreach' : P.system.StepsIn (n + 1) (.start s₀) _ (.run c [] s₁) :=
        hreach.trans (P.stepsIn_next h)
      exact (hx.not_falls hreach' (C.input ▸ hns)).elim
    · intro d s₁ h
      rcases P.exec_ordinary hmi s with ⟨s₂, h'⟩ | h' <;> cases h'.symm.trans h
  | @fall d z f hl hfa hr =>
    obtain ⟨s₁, hQ, hs₁⟩ := C.land hfa hr s'
    exact C.step_leaving hP (leaves_of_fall s (hinput d hl) (hsucc d hl)) (shows_enter (hsucc d hl) hs hQ)
      (hs₁.trans hs.symm)
  | @jump mi d z f hmi hd hfa hr =>
    obtain ⟨s₁, hQ, hs₁⟩ := C.land hfa hr s'
    have hdl := hmi.target_mem hd
    exact C.step_leaving hP (leaves_of_goto [] (exec_of_isJmp P hmi hd s) hmi.isBranch hdl)
      (shows_enter hdl hs hQ) (hs₁.trans hs.symm)
  | @cond jcc cc d m zF zT f hjcc ho hd hl hfa hF hT =>
    exact C.step_cond hjcc ho hd hs (leaves_of_fall s (hinput m hl) (hsucc m hl))
      (C.select cc hfa hF hT s') hP
  | @split jcc mi cc d m zF zT f N z f' hjcc ho hd hmi hm hfa hF hT hN hlo hNi hfN hr =>
    refine C.step_cond hjcc ho hd hs
      (leaves_of_goto [] (exec_of_isJmp P hmi hm s) hmi.isBranch (hmi.target_mem hm)) ?_ hP
    obtain ⟨s₁, hQ, hs₁⟩ := C.select cc hfa hF hT s'
    by_cases hc : cc.holds s'.eflags
    · simp only [hc, if_true] at hQ ⊢
      exact ⟨s₁, hQ, hs₁⟩
    · simp only [hc, Bool.false_eq_true, if_false] at hQ ⊢
      have hNb : N ∈ fin.before := mem_left_of_nextOf hfN.1
      rw [observe_enter_of_not_mem (C.not_mem_of_nextMBB_le hlo), C.placed.instrs hNb, hNi] at hQ
      obtain ⟨s₂, hQ₂, hs₂⟩ := C.land hfN hr s₁
      rw [observe_enter_congr hs₁] at hQ₂
      exact ⟨s₂, hQ.trans hQ₂, hs₂.trans hs₁⟩

/-- The output simulates the input. -/
theorem simulation {s₀ : State σ} (hx : SuccsExact P s₀) :
    Simulation P.system Q.system (observe mf) (observe mf) outcome outcome fun t t' =>
      (∃ n es, P.system.StepsIn n (.start s₀) es t) ∧ Related mf P Q fin t t' where
  step {t₁ t₂ t' ev} h hstep := by
    obtain ⟨⟨n, es, hreach⟩, hR⟩ := h
    suffices ∃ t₃, Q.system.Shows (observe mf) t' (ev.filterMap (observe mf)) t₃ ∧
        Related mf P Q fin t₂ t₃ by
      obtain ⟨t₃, hQ, hR'⟩ := this
      exact ⟨t₃, hQ, ⟨_, _, hreach.trans (.one hstep)⟩, hR'⟩
    cases hR with
    | start s =>
      obtain ⟨l, hl⟩ := List.head?_eq_some_iff.mp C.head
      have hent : entry ∈ mf.layout := hl ▸ List.mem_cons_self ..
      simp only [Program.system, Program.step, C.input, hl] at hstep
      obtain ⟨rfl, rfl⟩ := Prod.mk.inj (Option.some.inj hstep)
      refine ⟨_, ?_, C.related_enter hent rfl⟩
      have hfront : fin.nextMBB ∉ mf.layout := C.not_mem_of_nextMBB_le C.walked.nextMBB
      refine ((C.placed.run_start s).trans (Q.stepsIn_goto (exec_jmp4 Q s entry))).shows ?_
      rw [List.singleton_append, List.filterMap_cons_none (observe_enter_of_not_mem hfront),
        List.filterMap_cons_none (observe_exec_of_not_mem hfront)]
    | @block c i mid e e' s s' hc hi hmid he hs =>
      cases mid with
      | nil => exact C.step_end hx hreach hc hi he hs hstep
      | cons mi mid =>
        have hmi := hmid mi (List.mem_cons_self ..)
        refine C.step_same hs (C.exec_same hc (hi mi (by simp)) ?_ hs) ?_ ?_ hstep
        · rcases hmi with h | h
          · exact h.isIndirectBranch
          · obtain ⟨⟨cc, ho⟩, -⟩ := h
            exact (flags_of_jcc1 ho).2.2
        · intro s₁ s₁' _ hs₁
          exact .block hc (fun j hj => hi j (List.mem_cons_of_mem _ hj))
            (fun j hj => hmid j (List.mem_cons_of_mem _ hj)) he hs₁
        · intro d s₁ h
          rcases hmi with ho | ⟨⟨cc, ho⟩, d', hd', hmb⟩
          · rcases P.exec_ordinary ho s with ⟨s₂, h'⟩ | h' <;> cases h'.symm.trans h
          · rw [exec_of_jcc1 P ho hmb] at h
            split at h <;> cases h
            exact hd'
    | leaving hleave hQ hs => exact C.step_leaving hstep hleave hQ hs
    | done => cases hstep
  halt {t t'} h hstep := by
    cases h.2 with
    | start s =>
      obtain ⟨l, hl⟩ := List.head?_eq_some_iff.mp C.head
      simp only [Program.system, Program.step, C.input, hl] at hstep
      cases hstep
    | block => exact absurd hstep (P.step_run_ne_none _ _ _)
    | leaving => exact absurd hstep (P.step_run_ne_none _ _ _)
    | @done c o s s' hs => exact ⟨0, [], _, .refl _, rfl, rfl, by rw [outcome, outcome, hs]⟩

end Converts

/-- For a function that the back end can hand over, without R13 and R15, the pass
returns a function that does the same wherever its blocks are placed: from every
start state the blocks of the input are entered in the same order, the same
instructions are executed there in the same states but for R13 and R15, and the
one run ends when the other does, in the same way. -/
theorem runOnMachineFunction_preserves {mf : MachineFunction} (hmf : Convertible mf)
    (hfree : ScratchFree mf) {T : Target σ} (hT : IgnoresScratch T) :
    ∃ out, runOnMachineFunction false mf = .ok out ∧
      ∀ (addr : Nat → BitVec 64) (s : State σ),
        (∀ b ∈ out.layout, ∀ b' ∈ out.layout, addr b = addr b' → b = b') →
        SuccsExact ⟨mf, T, addr, .object⟩ s →
        SameBehaviour (Program.system ⟨mf, T, addr, .object⟩)
          (Program.system ⟨out, T, addr, .object⟩)
          (observe mf) (observe mf) outcome outcome (.start s) (.start s) := by
  obtain ⟨entry, fin, hentry, W, hout⟩ := hmf.isOk false
  refine ⟨_, hout, fun addr s haddr hx => ?_⟩
  have C : Converts mf ⟨mf, T, addr, .object⟩ ⟨(addFrontBlock fin entry).mf, T, addr, .object⟩
      fin entry := {
    convertible := hmf
    free := hfree
    input := rfl
    head := hentry
    walked := W
    placed := ⟨rfl, W.bookkeeping, W.after, fun b hb b' hb' h => .inl (haddr b hb b' hb' h)⟩
    target := rfl
    addr := rfl
    reading := rfl
    object := rfl
    ignores := hT }
  exact (C.simulation hx).same ⟨⟨0, [], .refl _⟩, .start s⟩

/-- Other instructions do nothing. -/
def idle : Target Unit := ⟨fun _ s => some s, fun _ _ => 0⟩

def zeroed : State Unit := ⟨fun _ => 0, ⟨false, false, false, false, false, false⟩, ()⟩

theorem idle_ignoresScratch : IgnoresScratch idle :=
  ⟨fun _ s s' _ _ h => by simpa [idle] using h, fun _ _ _ _ _ _ => rfl⟩

/-- Where control can be in a run of `selfLoop`. -/
theorem selfLoop_reaches {T : Target σ} {addr : Nat → BitVec 64} {rd : Reading} {s : State σ}
    {n : Nat} {es : List (Event σ)} {t : Cfg σ}
    (h : (Program.system ⟨selfLoop, T, addr, rd⟩).StepsIn n (.start s) es t) :
    t = .start s ∨ t = .run 0 [⟨.jcc1 .e, [.mbb 0]⟩] s ∨ t = .run 0 [] s ∨
      t = .run 1 [⟨.retq, []⟩] s ∨ t = .done 1 .ret s := by
  refine h.invariant (P := fun t => t = .start s ∨ t = .run 0 [⟨.jcc1 .e, [.mbb 0]⟩] s ∨
    t = .run 0 [] s ∨ t = .run 1 [⟨.retq, []⟩] s ∨ t = .done 1 .ret s) ?_ (.inl rfl)
  intro t t' ev ht hstep
  simp only [Program.system] at hstep
  rcases ht with rfl | rfl | rfl | rfl | rfl
  · cases hstep
    exact .inr (.inl rfl)
  · by_cases hz : s.eflags.zf
    · simp [Program.step, Program.exec, MachineInstr.mbb?, MachineInstr.getOperand, Cond.holds,
        hz] at hstep
      exact .inr (.inl hstep.2.symm)
    · simp [Program.step, Program.exec, MachineInstr.mbb?, MachineInstr.getOperand, Cond.holds,
        hz] at hstep
      exact .inr (.inr (.inl hstep.2.symm))
  · cases hstep
    exact .inr (.inr (.inr (.inl rfl)))
  · cases hstep
    exact .inr (.inr (.inr (.inr rfl)))
  · cases hstep

theorem selfLoop_succsExact (T : Target σ) (addr : Nat → BitVec 64) (rd : Reading) (s : State σ) :
    SuccsExact ⟨selfLoop, T, addr, rd⟩ s := by
  intro n es b is s₁ hrun ev t hstep
  simp only [Program.system] at hstep
  rcases selfLoop_reaches hrun with h | h | h | h | h <;> cases h
  · by_cases hz : s.eflags.zf
    · simp [Program.step, Program.exec, MachineInstr.mbb?, MachineInstr.getOperand, Cond.holds,
        hz] at hstep
      simp [← hstep.1, ← hstep.2, selfLoop]
    · simp [Program.step, Program.exec, MachineInstr.mbb?, MachineInstr.getOperand, Cond.holds,
        hz] at hstep
      simp [← hstep.1, ← hstep.2]
  · cases hstep
    simp [selfLoop]
  · cases hstep
    simp

/-- `selfLoop` converted, in a memory where blocks are placed by number, and run
from a state in which the loop is left at once. -/
theorem runOnMachineFunction_preserves_selfLoop :
    ∃ out, runOnMachineFunction false selfLoop = .ok out ∧
      SameBehaviour (Program.system ⟨selfLoop, idle, BitVec.ofNat 64, .object⟩)
        (Program.system ⟨out, idle, BitVec.ofNat 64, .object⟩)
        (observe selfLoop) (observe selfLoop) outcome outcome (.start zeroed) (.start zeroed) := by
  obtain ⟨out, hout, h⟩ := runOnMachineFunction_preserves selfLoop_convertible (by decide)
    idle_ignoresScratch
  have hlayout : (runOnMachineFunction false selfLoop).map (·.layout) = .ok [5, 4, 3, 0, 2, 1] := by
    decide
  rw [hout] at hlayout
  have hlayout : out.layout = [5, 4, 3, 0, 2, 1] := Except.ok.inj hlayout
  exact ⟨out, hout, h _ _ (by rw [hlayout]; decide) (selfLoop_succsExact _ _ _ _)⟩

end BS.BranchConversion
