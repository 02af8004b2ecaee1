import BranchShadowing.Proof.BranchConversion.Completeness
import BranchShadowing.Proof.BranchConversion.Preservation
import BranchShadowing.Proof.BranchConversion.Untouched

/-!
# Callee-saved registers

The pass runs after the prologue and epilogue have been made, and saves neither R13
nor R15, which are callee-saved. A run keeps them only where it comes to no end of a
block that the pass has replaced (`restores_of_avoidsReplaced`).
-/

namespace BS.BranchConversion

open X86 PassState

variable {σ : Type}

/-- A run of the output restores the callee-saved registers if that of the input
does and comes to no end of a block that the pass replaces. -/
theorem restores_of_avoidsReplaced {dummyInstr : Bool} {mf out : MachineFunction}
    {T : Target σ} {addr : Nat → BitVec 64} {rd : Reading} {s : State σ} (hmf : WellFormed mf)
    (h : runOnMachineFunction dummyInstr mf = .ok out)
    (haddr : Apart mf out addr)
    (hx : SuccsExact ⟨mf, T, addr, rd⟩ s) (hin : Restores ⟨mf, T, addr, rd⟩ s)
    (ha : AvoidsReplaced ⟨mf, T, addr, rd⟩ s) : Restores ⟨out, T, addr, rd⟩ s := by
  obtain ⟨entry, fin, hentry, W, rfl⟩ := walk_of_run hmf h
  have C := Follows.of_walk T rd hmf hentry W haddr
  intro n es b o s' hrun ho
  have hsame := C.same (fun _ => (none : Option Unit)) (fun _ _ _ => rfl)
    (fun _ _ _ => rfl) hx ha
  obtain ⟨m, es', t, hrun', -, -, ht⟩ :=
    (hsame.2 [] (.done b o s')).mpr ⟨n, es, _, hrun, rfl, by simp, rfl⟩
  have ht : t = .done b o s' := ht
  exact hin m es' b o s' (ht ▸ hrun') ho

/-- Where control can be in a run of `jneJp` whose first branch is taken. -/
theorem jneJp_reaches {T : Target σ} {addr : Nat → BitVec 64} {rd : Reading} {s : State σ}
    (hz : s.eflags.zf = false) {n : Nat} {es : List (Event σ)} {t : Cfg σ}
    (h : (Program.system ⟨jneJp, T, addr, rd⟩).StepsIn n (.start s) es t) :
    t = .start s ∨ t = .run 0 [⟨.jcc1 .ne, [.mbb 2]⟩, ⟨.jcc1 .p, [.mbb 2]⟩] s ∨
      t = .run 2 [⟨.retq, []⟩] s ∨ t = .done 2 .ret s := by
  refine h.invariant (P := fun t => t = .start s ∨
    t = .run 0 [⟨.jcc1 .ne, [.mbb 2]⟩, ⟨.jcc1 .p, [.mbb 2]⟩] s ∨ t = .run 2 [⟨.retq, []⟩] s ∨
      t = .done 2 .ret s) ?_ (.inl rfl)
  intro t t' ev ht hstep
  simp only [Program.system] at hstep
  rcases ht with rfl | rfl | rfl | rfl
  · cases hstep
    exact .inr (.inl rfl)
  · simp [Program.step, Program.exec, MachineInstr.mbb?, MachineInstr.getOperand, Cond.holds,
      hz] at hstep
    exact .inr (.inr (.inl hstep.2.symm))
  · cases hstep
    exact .inr (.inr (.inr rfl))
  · cases hstep

/-- The JP of `jneJp` is replaced. Where the JNE is taken the conversion returns with the
callee-saved registers as they were. -/
theorem restores_of_avoidsReplaced_jneJp :
    ∃ out, runOnMachineFunction false jneJp = .ok out ∧
      Restores ⟨out, idle, BitVec.ofNat 64, .object⟩ zeroed := by
  have hlt : ((runOnMachineFunction false jneJp).map fun out =>
      decide (∀ b ∈ out.layout, (BitVec.ofNat 64 b).toNat = b)) = .ok true := by decide
  cases hout : runOnMachineFunction false jneJp with
  | error e =>
    rw [hout] at hlt
    cases hlt
  | ok out =>
    rw [hout] at hlt
    refine ⟨out, rfl, restores_of_avoidsReplaced
      ⟨by decide, by decide, by decide, by decide, by decide⟩ hout
      (apart_ofNat (of_decide_eq_true (Except.ok.inj hlt))) ?_ ?_ ?_⟩
    · intro n es b is s₁ hrun ev t hstep
      rcases jneJp_reaches rfl hrun with h | h | h | h <;> cases h
      · cases hstep
        simp [jneJp]
      · cases hstep
        simp
    · intro n es b o s' hrun ho g hg
      rcases jneJp_reaches rfl hrun with h | h | h | h <;> cases h
      rfl
    · intro n es b is s' hrun
      rcases jneJp_reaches rfl hrun with h | h | h | h <;> cases h <;> rfl

/-- Left at once, `selfLoop` keeps all registers. Its conversion returns with the address
of a trampoline in R15. -/
theorem selfLoop_not_restores :
    (∀ s, Restores ⟨selfLoop, idle, BitVec.ofNat 64, .object⟩ s) ∧
      ∃ out, runOnMachineFunction false selfLoop = .ok out ∧
        ¬ Restores ⟨out, idle, BitVec.ofNat 64, .object⟩ zeroed := by
  refine ⟨fun s n es b o s' hrun ho g hg => ?_, ?_⟩
  · rcases selfLoop_reaches hrun with h | h | h | h | h <;> cases h
    rfl
  have hrun : ((runOnMachineFunction false selfLoop).map fun out =>
      Cfg.casesOn (motive := fun _ => Bool)
        ((Program.system ⟨out, idle, BitVec.ofNat 64, .object⟩).after 9 (.start zeroed))
        (fun _ => false) (fun _ _ _ => false)
        fun _ o s' => decide (o = .ret ∧ s'.gpr .r15 ≠ 0)) = .ok true := by decide
  cases hout : runOnMachineFunction false selfLoop with
  | error e =>
    rw [hout] at hrun
    cases hrun
  | ok out =>
    rw [hout] at hrun
    refine ⟨out, rfl, fun h => ?_⟩
    obtain ⟨k, es, hk⟩ :=
      System.stepsIn_after (M := Program.system ⟨out, idle, BitVec.ofNat 64, .object⟩) 9
        (.start zeroed)
    have hrun := Except.ok.inj hrun
    beta_reduce at hrun
    cases hdone : (Program.system ⟨out, idle, BitVec.ofNat 64, .object⟩).after 9 (.start zeroed) with
    | start =>
      rw [hdone] at hrun
      cases hrun
    | run =>
      rw [hdone] at hrun
      cases hrun
    | done b o s' =>
      rw [hdone] at hrun hk
      obtain ⟨ho, hr⟩ := of_decide_eq_true hrun
      exact hr (h k es b o s' hk (.inl ho) .r15 (by decide))

end BS.BranchConversion
