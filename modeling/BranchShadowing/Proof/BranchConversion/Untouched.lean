import BranchShadowing.Proof.BranchConversion.Execution
import BranchShadowing.Proof.BranchConversion.Output
import BranchShadowing.Spec.Registers

/-!
# Runs that pass no replaced end

As long as the input comes to no end of a block that the pass replaces, the output
goes in step with it, in the very same states (`Follows.same`).
-/

namespace BS.BranchConversion

open X86 PassState

variable {σ : Type}

/-- Up to the end that it replaces the pass keeps a block. -/
theorem kept_of_rewritten {is is' : List MachineInstr} (h : Rewritten is is') :
    ∃ mid e e', is = mid ++ e ∧ is' = mid ++ e' ∧ atReplacedEnd e := by
  obtain ⟨ft, instrs, o, h⟩ := h
  cases h with
  | empty => exact ⟨[], [], [], rfl, rfl, rfl⟩
  | @leave pre mi => exact ⟨pre ++ [mi], [], [], by simp, by simp, rfl⟩
  | @fall pre mi _ z => exact ⟨pre ++ [mi], [], [lea targetRegOpcode z], by simp, by simp, rfl⟩
  | @jump pre mi _ _ hu => exact ⟨pre, [mi], _, rfl, rfl, by simp [atReplacedEnd, hu]⟩
  | @cond pre mi _ _ _ _ ho =>
    exact ⟨pre, [mi], _, rfl, rfl, by simp [atReplacedEnd, (flags_of_jcc1 ho).1]⟩
  | @split pre jcc mi _ _ _ _ _ _ ho _ hu =>
    exact ⟨pre, [jcc, mi], _, rfl, rfl, by simp [atReplacedEnd, (flags_of_jcc1 ho).1, hu]⟩

/-- Blocks at addresses of their own are apart. -/
theorem apart_ofNat {mf out : MachineFunction}
    (h : ∀ b ∈ out.layout, (BitVec.ofNat 64 b).toNat = b) : Apart mf out (BitVec.ofNat 64) := by
  intro b hb b' hb' heq
  have heq := congrArg BitVec.toNat heq
  rw [h b hb, h b' hb'] at heq
  exact .inl heq

/-- `Q` is what the pass makes of `P`, placed in the same memory. -/
structure Follows (dummyInstr : Bool) (mf : MachineFunction) (P Q : Program σ) (fin : PassState)
    (entry : Nat) : Prop where
  wellFormed : WellFormed mf
  input : P.mf = mf
  head : mf.layout.head? = some entry
  walk : Walk dummyInstr fin (start mf)
  placed : Placed Q fin entry
  target : Q.target = P.target
  addr : Q.addr = P.addr
  reading : Q.reading = P.reading

/-- The block behind an empty one of the input is its fake block. -/
theorem Placed.of_apart {dummyInstr : Bool} {mf : MachineFunction} {fin : PassState} {entry : Nat}
    {T : Target σ} {addr : Nat → BitVec 64} {rd : Reading} (W : Walk dummyInstr fin (start mf))
    (haddr : Apart mf (addFrontBlock fin entry).mf addr) :
    Placed ⟨(addFrontBlock fin entry).mf, T, addr, rd⟩ fin entry where
  mf := rfl
  bookkeeping := W.bookkeeping_fin
  after := W.after_eq_nil
  addr := by
    have hfake {b b' : Nat} (h : EmptyBefore mf (addFrontBlock fin entry).mf b b') :
        FakeAfter fin b b' := by
      obtain ⟨hb, hi, hn⟩ := h
      have hret : (mf.blocks b).isReturnBlock = false := by
        simp [MachineBasicBlock.isReturnBlock, hi]
      obtain ⟨f, hf⟩ := W.exists_fakeAfter hb (.inr hret)
      rw [W.out_layoutSucc entry (W.mem_before_of_processed (W.mem_processedMBBs hb)), hf.1] at hn
      exact Option.some.inj hn ▸ hf
    exact fun b hb b' hb' h => (haddr b hb b' hb' h).imp_right (Or.imp hfake hfake)

theorem Follows.of_walk {dummyInstr : Bool} {mf : MachineFunction} {fin : PassState} {entry : Nat}
    {addr : Nat → BitVec 64} (T : Target σ) (rd : Reading) (hmf : WellFormed mf)
    (hentry : mf.layout.head? = some entry) (W : Walk dummyInstr fin (start mf))
    (haddr : Apart mf (addFrontBlock fin entry).mf addr) :
    Follows dummyInstr mf ⟨mf, T, addr, rd⟩ ⟨(addFrontBlock fin entry).mf, T, addr, rd⟩ fin entry where
  wellFormed := hmf
  input := rfl
  head := hentry
  walk := W
  placed := .of_apart W haddr
  target := rfl
  addr := rfl
  reading := rfl

/-- Control is at the same place of a block in both, in the same state. -/
inductive InStep (mf : MachineFunction) : Cfg σ → Cfg σ → Prop
  | start (s : State σ) : InStep mf (.start s) (.start s)
  | block {c : Nat} {mid e e' : List MachineInstr} (s : State σ) : c ∈ mf.layout →
    (∀ j ∈ mid, j ∈ (mf.blocks c).instrs) → atReplacedEnd e →
    InStep mf (.run c (mid ++ e) s) (.run c (mid ++ e') s)
  | done (c : Nat) (o : Exit) (s : State σ) : InStep mf (.done c o s) (.done c o s)

namespace Follows

variable {dummyInstr : Bool} {mf : MachineFunction} {P Q : Program σ} {fin : PassState}
  {entry c d : Nat} {s : State σ} {mi : MachineInstr} (C : Follows dummyInstr mf P Q fin entry)
include C

theorem mem_before (hc : c ∈ mf.layout) : c ∈ fin.before :=
  C.walk.mem_before_of_processed (C.walk.mem_processedMBBs hc)

theorem genuine (hc : c ∈ mf.layout) : Genuine fin c :=
  .of_processed (C.mem_before hc) (C.walk.mem_processedMBBs hc)

theorem inStep_enter (hd : d ∈ mf.layout) (s : State σ) :
    InStep mf (.run d (P.instrs d) s) (.run d (Q.instrs d) s) := by
  have hrw : Rewritten (mf.blocks d).instrs (fin.instrs d) := C.walk.rewritten hd
  obtain ⟨mid, e, e', hi, hi', he⟩ := kept_of_rewritten hrw
  rw [C.placed.instrs (C.mem_before hd), hi', Program.instrs, C.input, hi]
  exact .block s hd (fun j hj => by simp [hi, hj]) he

/-- An instruction of the input does the same in both, but for a jump to where the
input has no block. -/
theorem exec_eq (hc : c ∈ mf.layout) (hi : mi ∈ (mf.blocks c).instrs) (s : State σ) :
    (∃ w, P.exec mi s = .exit (.jump w) s) ∨
      Q.exec mi s = P.exec mi s ∧ ∀ d s', P.exec mi s = .goto d s' → d ∈ mf.layout := by
  have jump (w : BitVec 64) (hP : P.exec mi s = P.jumpTo w s) (hQ : Q.exec mi s = Q.jumpTo w s) :
      (∃ w, P.exec mi s = .exit (.jump w) s) ∨
        Q.exec mi s = P.exec mi s ∧ ∀ d s', P.exec mi s = .goto d s' → d ∈ mf.layout := by
    rw [hP, hQ]
    have hl : ∀ b ∈ P.mf.layout, Genuine fin b := fun b hb => C.genuine (C.input ▸ hb)
    rcases C.placed.jumpTo_input C.addr hl w s s with h | ⟨d, hd, h, h'⟩
    · exact .inl ⟨w, h⟩
    · rw [h, h']
      refine .inr ⟨rfl, fun d' s' he => ?_⟩
      obtain ⟨rfl, -⟩ := Next.goto.inj he
      exact C.input ▸ hd
  by_cases h₁ : mi.opcode = .jmp64r
  · by_cases hg : ∃ g, mi.getOperand 0 = some (.reg (.r64 g))
    · obtain ⟨g, hg⟩ := hg
      exact jump (s.gpr g) (by simp only [Program.exec, h₁, hg]) (by simp only [Program.exec, h₁, hg])
    · have hother (R : Program σ) : R.exec mi s = R.execOther mi s := by
        simp only [Program.exec, h₁]
        split
        · exact absurd ⟨_, by assumption⟩ hg
        · rfl
      rw [hother, hother]
      exact .inr ⟨by simp only [Program.execOther, C.target],
        fun d s' h => absurd h (P.execOther_ne_goto mi s s' d)⟩
  by_cases h₂ : mi.opcode = .jmp64m
  · exact jump (P.target.jumpTarget mi s) (by simp only [Program.exec, h₂])
      (by simp only [Program.exec, h₂, C.target])
  · exact .inr ⟨Program.exec_congr C.target C.addr C.reading h₁ h₂ s, fun d s' h =>
      C.wellFormed.targets c hc mi hi d (Program.mbb?_of_exec_goto h₁ h₂ h)⟩

/-- The two go in step. -/
theorem simulation {O : Type*} {obs : Event σ → Option O} {s₀ : State σ}
    (hexec : ∀ c i s, obs (.exec c i s) = none)
    (henter : ∀ c s, c ∉ mf.layout → obs (.enter c s) = none)
    (hx : SuccsExact P s₀) (ha : AvoidsReplaced P s₀) :
    Simulation P.system Q.system obs obs id id fun t t' =>
      (∃ n es, P.system.StepsIn n (.start s₀) es t) ∧ InStep mf t t' where
  step {t₁ t₂ t' ev} h hstep := by
    obtain ⟨⟨n, es, hreach⟩, hR⟩ := h
    suffices ∃ t₃, Q.system.Shows obs t' (ev.filterMap obs) t₃ ∧ InStep mf t₂ t₃ by
      obtain ⟨t₃, hQ, hR'⟩ := this
      exact ⟨t₃, hQ, ⟨_, _, hreach.trans (.one hstep)⟩, hR'⟩
    cases hR with
    | start s =>
      obtain ⟨l, hl⟩ := List.head?_eq_some_iff.mp C.head
      simp only [Program.system, Program.step, C.input, hl] at hstep
      obtain ⟨rfl, rfl⟩ := Prod.mk.inj (Option.some.inj hstep)
      refine ⟨_, ?_, C.inStep_enter (hl ▸ List.mem_cons_self ..) s⟩
      have hfront : fin.nextMBB ∉ mf.layout := fun h =>
        absurd (C.wellFormed.fresh _ h) (Nat.not_lt.mpr C.walk.nextMBB_le)
      refine ((C.placed.run_start s).trans (Q.stepsIn_goto (exec_jmp4 Q s entry))).shows ?_
      rw [List.singleton_append, List.filterMap_cons_none (henter _ _ hfront),
        List.filterMap_cons_none (hexec ..)]
    | @block c mid e e' s hc hi he =>
      cases mid with
      | nil =>
        have := ha _ _ _ _ _ hreach
        rw [List.nil_append, he] at this
        cases this
      | cons mi mid =>
        have hi' : ∀ j ∈ mid, j ∈ (mf.blocks c).instrs := fun j hj =>
          hi j (List.mem_cons_of_mem _ hj)
        rcases C.exec_eq hc (hi mi (by simp)) s with ⟨w, hw⟩ | ⟨hQ, hgoto⟩
        · have h := hstep
          simp only [Program.system, List.cons_append, Program.step, hw] at h
          obtain ⟨rfl, rfl⟩ := Prod.mk.inj (Option.some.inj h)
          rcases (hx _ _ _ _ _ hreach _ _ hstep).2 _ _ _ rfl with h | h | h <;> cases h
        · simp only [Program.system, List.cons_append, Program.step] at hstep
          cases hP : P.exec mi s with
          | next s₁ =>
            rw [hP] at hstep hQ
            obtain ⟨rfl, rfl⟩ := Prod.mk.inj (Option.some.inj hstep)
            exact ⟨_, (Q.stepsIn_next hQ).shows rfl, .block s₁ hc hi' he⟩
          | goto d s₁ =>
            rw [hP] at hstep hQ
            obtain ⟨rfl, rfl⟩ := Prod.mk.inj (Option.some.inj hstep)
            exact ⟨_, (Q.stepsIn_goto hQ).shows rfl, C.inStep_enter (hgoto d s₁ hP) s₁⟩
          | exit o s₁ =>
            rw [hP] at hstep hQ
            obtain ⟨rfl, rfl⟩ := Prod.mk.inj (Option.some.inj hstep)
            exact ⟨_, (Q.stepsIn_exit hQ).shows rfl, .done c o s₁⟩
    | done => cases hstep
  halt {t t'} h hstep := by
    cases h.2 with
    | start s =>
      obtain ⟨l, hl⟩ := List.head?_eq_some_iff.mp C.head
      simp only [Program.system, Program.step, C.input, hl] at hstep
      cases hstep
    | block => exact absurd hstep (P.step_run_ne_none _ _ _)
    | done c o s => exact ⟨0, [], _, .refl _, rfl, rfl, rfl⟩

/-- The two runs show the same. -/
theorem same {O : Type*} (obs : Event σ → Option O) {s₀ : State σ}
    (hexec : ∀ c i s, obs (.exec c i s) = none)
    (henter : ∀ c s, c ∉ mf.layout → obs (.enter c s) = none)
    (hx : SuccsExact P s₀) (ha : AvoidsReplaced P s₀) :
    SameBehaviour P.system Q.system obs obs id id (.start s₀) (.start s₀) :=
  (C.simulation hexec henter hx ha).same ⟨⟨0, [], .refl _⟩, .start s₀⟩

end Follows

end BS.BranchConversion
