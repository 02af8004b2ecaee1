import BranchShadowing.Proof.BranchConversion.Walk
import BranchShadowing.Proof.X86.Semantics

/-!
# Running the code that the pass inserts

What a machine makes of the pieces the pass puts in: the end of a block, a fake
block, a trampoline that leads on. `Placed` says that a program is the result of
a walk, placed in memory.
-/

namespace BS.BranchConversion

open X86 PassState

variable {σ : Type}

/-! ## The instructions -/

section

variable (P : Program σ) (s : State σ)

theorem exec_jmp4 (b : Nat) : P.exec (jmp4 b) s = .goto b s := rfl

theorem exec_jmp64r : P.exec jmp64r s = P.jumpTo (s.gpr .r15) s := rfl

theorem exec_lea (d : GPR) (b : Nat) : P.exec (lea d b) s = .next (s.setReg d (P.addr b)) := rfl

theorem exec_dummyAdd : P.exec dummyAdd s = .next (s.add8 .r13 0) := by
  cases h : P.reading <;> simp only [Program.exec, dummyAdd, Reading.destOperand, h] <;> rfl

/-- The object encoder skips R11, the operand that is tied. -/
theorem exec_cmov_object (h : P.reading = .object) (cc : Cond) :
    P.exec (cmov (.cmov64rr cc)) s =
      .next (if cc.holds s.eflags then s.setReg .r15 (s.gpr .r13) else s) := by
  simp only [Program.exec, cmov, Reading.destOperand, h]
  rfl

theorem exec_cmov_asm (h : P.reading = .asm) (cc : Cond) :
    P.exec (cmov (.cmov64rr cc)) s =
      .next (if cc.holds s.eflags then s.setReg .r11 (s.gpr .r13) else s) := by
  simp only [Program.exec, cmov, Reading.destOperand, h]
  rfl

end

/-- The flags before and after a way that executes dummy instructions or none: each
clears AF. -/
def FlagsAfter (dummies : Bool) (f f' : EFlags) : Prop :=
  if dummies then f'.af = false else f' = f

theorem FlagsAfter.trans {a b : Bool} {f g h : EFlags} (h₁ : FlagsAfter a f g)
    (h₂ : FlagsAfter b g h) : FlagsAfter (a || b) f h := by
  cases b with
  | true => simpa [FlagsAfter] using h₂
  | false =>
    obtain rfl : h = g := h₂
    simpa using h₁

theorem flagsAfter_dummyAdd (s : State σ) : FlagsAfter true s.eflags (s.add8 .r13 0).eflags := by
  simp [FlagsAfter, State.add8]

/-! ## The result of a walk in memory -/

/-- `Q` is the result of a walk that ended in `fin`, with its blocks at different
addresses, but for a block and the fake block right behind it. -/
structure Placed (Q : Program σ) (fin : PassState) (entry : Nat) : Prop where
  mf : Q.mf = (addFrontBlock fin entry).mf
  bookkeeping : Bookkeeping fin
  after : fin.after = []
  addr : ∀ b ∈ Q.mf.layout, ∀ b' ∈ Q.mf.layout, Q.addr b = Q.addr b' →
    b = b' ∨ FakeAfter fin b b' ∨ FakeAfter fin b' b

namespace Placed

variable {Q : Program σ} {fin : PassState} {entry b c f z : Nat} (hQ : Placed Q fin entry)
include hQ

theorem layout : Q.mf.layout = fin.nextMBB :: fin.before := by
  rw [hQ.mf, addFrontBlock_layout _ _ hQ.after]

theorem lt_of_mem (hb : b ∈ fin.before) : b < fin.nextMBB := hQ.bookkeeping.fresh b (by simp [hb])

theorem mem_layout (hb : b ∈ fin.before) : b ∈ Q.mf.layout := by
  rw [hQ.layout]
  exact List.mem_cons_of_mem _ hb

theorem instrs (hb : b ∈ fin.before) : Q.instrs b = fin.instrs b := by
  have hne : b ≠ fin.nextMBB := Nat.ne_of_lt (hQ.lt_of_mem hb)
  rw [Program.instrs, hQ.mf, addFrontBlock_blocks _ _ hne]
  rfl

theorem instrs_front : Q.instrs fin.nextMBB = [jmp4 entry] := by
  rw [Program.instrs, hQ.mf, addFrontBlock_front]

theorem run_start (s : State σ) :
    Q.system.StepsIn 1 (.start s) [.enter fin.nextMBB s] (.run fin.nextMBB [jmp4 entry] s) := by
  refine .one ?_
  simp only [Program.system, Program.step, hQ.layout, hQ.instrs_front]

theorem layoutSucc (hf : nextOf fin.before c = some f) : Q.mf.layoutSucc c = some f := by
  have hne : fin.nextMBB ≠ c := by
    have := hQ.lt_of_mem (mem_left_of_nextOf hf)
    omega
  rw [MachineFunction.layoutSucc, hQ.layout, nextOf, if_neg hne, hf]

theorem nodup : Q.mf.layout.Nodup := by
  rw [hQ.layout, List.nodup_cons]
  exact ⟨fun h => Nat.lt_irrefl _ (hQ.lt_of_mem h), (List.nodup_append.mp hQ.bookkeeping.nodup).1⟩

/-- A jump to the address of a block that is no fake block finds it. -/
theorem jumpTo (hz : Genuine fin z) (s : State σ) : Q.jumpTo (Q.addr z) s = .goto z s := by
  have hmem := hQ.mem_layout hz.mem
  have h : Q.mf.layout.find? (fun b => Q.addr b == Q.addr z) = some z := by
    cases hf : Q.mf.layout.find? (fun b => Q.addr b == Q.addr z) with
    | none =>
      have := List.find?_eq_none.mp hf z hmem
      simp at this
    | some b =>
      have hb := List.find?_some hf
      rcases hQ.addr b (List.mem_of_find?_eq_some hf) z hmem (by simpa using hb) with rfl | h | h
      · rfl
      · exact absurd h (hz.notFake b)
      · exact absurd hf (find?_ne_of_nextOf hQ.nodup (hQ.layoutSucc h.1) (by simp))
  simp only [Program.jumpTo, h]

/-- Where a jump to an address finds a block of the input, it finds the same one in
the output. -/
theorem jumpTo_input {P : Program σ} (ha : Q.addr = P.addr)
    (hl : ∀ b ∈ P.mf.layout, Genuine fin b) (w : BitVec 64) (s s' : State σ) :
    P.jumpTo w s = .exit (.jump w) s ∨
      ∃ d ∈ P.mf.layout, P.jumpTo w s = .goto d s ∧ Q.jumpTo w s' = .goto d s' := by
  unfold Program.jumpTo
  cases hf : P.mf.layout.find? (fun b => P.addr b == w) with
  | none => exact .inl rfl
  | some d =>
    have hd := List.mem_of_find?_eq_some hf
    have hw : Q.addr d = w := by
      have := List.find?_some hf
      rw [ha]
      simpa using this
    have hj := hQ.jumpTo (hl d hd) s'
    rw [hw] at hj
    exact .inr ⟨d, hd, rfl, hj⟩

/-- Control that runs off a block goes over its fake block to the trampoline in
R15. -/
theorem run_fake (hf : FakeAfter fin c f) (hz : Genuine fin z) {s : State σ}
    (hs : s.gpr .r15 = Q.addr z) :
    Q.system.StepsIn 2 (.run c [] s) [.enter f s, .exec f jmp64r s, .enter z s]
      (.run z (Q.instrs z) s) := by
  obtain ⟨hn, hi, -⟩ := hf
  have hj : Q.exec jmp64r s = .goto z s := by
    rw [exec_jmp64r, hs, hQ.jumpTo hz]
  have h := (Q.stepsIn_fall (hQ.layoutSucc hn) (s := s)).trans (by
    rw [hQ.instrs (mem_of_nextOf hn), hi]
    exact Q.stepsIn_goto hj)
  exact h

/-- The end that replaces a jump or a fall-through. -/
theorem run_lea (hf : FakeAfter fin c f) (hz : Genuine fin z) (s : State σ) :
    Q.system.StepsIn 3 (.run c [lea .r15 z] s)
      [.exec c (lea .r15 z) s, .enter f (s.setReg .r15 (Q.addr z)),
        .exec f jmp64r (s.setReg .r15 (Q.addr z)), .enter z (s.setReg .r15 (Q.addr z))]
      (.run z (Q.instrs z) (s.setReg .r15 (Q.addr z))) :=
  (Q.stepsIn_next (exec_lea Q s .r15 z)).trans (hQ.run_fake hf hz (by simp))

omit hQ in
/-- Dummy instructions change R13 and the flags only. -/
theorem run_dummies (k : Nat) (is : List MachineInstr) (s : State σ) :
    ∃ es s', Q.system.StepsIn k (.run z (List.replicate k dummyAdd ++ is) s) es (.run z is s') ∧
      (∀ e ∈ es, ∃ s, e = .exec z dummyAdd s) ∧ (∀ g, g ≠ .r13 → s'.gpr g = s.gpr g) ∧
      FlagsAfter (decide (0 < k)) s.eflags s'.eflags := by
  induction k generalizing s with
  | zero => exact ⟨[], s, .refl _, by simp, fun _ _ => rfl, rfl⟩
  | succ k ih =>
    obtain ⟨es, s', hs, he, hg, hf⟩ := ih (s.add8 .r13 0)
    refine ⟨.exec z dummyAdd s :: es, s', ?_, ?_, fun g hne => (hg g hne).trans ?_, ?_⟩
    · rw [List.replicate_succ, List.cons_append, Nat.add_comm]
      exact (Q.stepsIn_next (exec_dummyAdd Q s)).trans hs
    · intro e hm
      rcases List.mem_cons.mp hm with h | h
      · exact ⟨s, h⟩
      · exact he e h
    · simp [State.add8, hne]
    · simpa using (flagsAfter_dummyAdd s).trans hf

/-- A trampoline that skips a block goes over the fake block of that block to the
next trampoline. -/
theorem run_skip {dummyInstr : Bool} {n z' : Nat} (hf : FakeAfter fin c f) (hz : Genuine fin z')
    (is : List MachineInstr) (s : State σ) :
    ∃ k es s', 0 < k ∧
      Q.system.StepsIn k (.run z (skipTo dummyInstr n z' f ++ is) s)
        (es ++ [.enter f s', .exec f jmp64r s', .enter z' s']) (.run z' (Q.instrs z') s') ∧
      (∀ e ∈ es, ∃ i s, e = .exec z i s) ∧ (dummyInstr = false → s'.hide = s.hide) ∧
      FlagsAfter (dummyInstr && decide (2 < n)) s.eflags s'.eflags ∧ s'.gpr .r15 = Q.addr z' := by
  obtain ⟨hn, hi, -⟩ := hf
  have tail (s : State σ) : Q.system.StepsIn 3 (.run z (lea .r15 z' :: jmp4 f :: is) s)
      [.exec z (lea .r15 z') s, .exec z (jmp4 f) (s.setReg .r15 (Q.addr z')),
        .enter f (s.setReg .r15 (Q.addr z')), .exec f jmp64r (s.setReg .r15 (Q.addr z')),
        .enter z' (s.setReg .r15 (Q.addr z'))]
      (.run z' (Q.instrs z') (s.setReg .r15 (Q.addr z'))) := by
    have hj : Q.exec jmp64r (s.setReg .r15 (Q.addr z')) = .goto z' (s.setReg .r15 (Q.addr z')) := by
      rw [exec_jmp64r, State.setReg_gpr, if_pos rfl, hQ.jumpTo hz]
    have h₂ : Q.system.StepsIn 1 (.run z (jmp4 f :: is) (s.setReg .r15 (Q.addr z'))) _ _ :=
      Q.stepsIn_goto (exec_jmp4 Q (s.setReg .r15 (Q.addr z')) f)
    rw [hQ.instrs (mem_of_nextOf hn), hi] at h₂
    exact ((Q.stepsIn_next (exec_lea Q s .r15 z')).trans h₂).trans (Q.stepsIn_goto hj)
  cases dummyInstr with
  | false =>
    refine ⟨3, [.exec z (lea .r15 z') s, .exec z (jmp4 f) (s.setReg .r15 (Q.addr z'))], _,
      by omega, tail s, ?_, fun _ => s.setReg_hide (.inr rfl) _, rfl, by simp⟩
    simp
  | true =>
    obtain ⟨es, s₁, hs, he, -, hf⟩ :=
      run_dummies (Q := Q) (z := z) (n - 2) (lea .r15 z' :: jmp4 f :: is) s
    have hlong : 0 < n - 2 ↔ 2 < n := by omega
    refine ⟨n - 2 + 3, es ++ [.exec z (lea .r15 z') s₁,
      .exec z (jmp4 f) (s₁.setReg .r15 (Q.addr z'))], s₁.setReg .r15 (Q.addr z'), by omega, ?_, ?_,
      (fun h => by cases h), ?_, by simp⟩
    · simpa [skipTo, targetRegOpcode] using hs.trans (tail s₁)
    · intro e hm
      rcases List.mem_append.mp hm with h | h
      · obtain ⟨s, rfl⟩ := he e h
        exact ⟨_, _, rfl⟩
      · simp only [List.mem_cons, List.not_mem_nil, or_false] at h
        rcases h with rfl | rfl <;> exact ⟨_, _, rfl⟩
    · rwa [Bool.true_and, ← decide_eq_decide.mpr hlong]

end Placed

end BS.BranchConversion
