import BranchShadowing.Proof.BranchConversion.Output
import BranchShadowing.Proof.BranchConversion.Preservation

/-!
# Which endings are accepted

Of the ways in which code generation may leave the end of a block the pass handles
all but two. A conditional tail call is a conditional branch to something that is no
block, where it gives up on purpose: apart from traps, it accepts a function exactly
when there is none (`isOk_iff`).
-/

namespace BS.BranchConversion

open X86 PassState

variable {mf : MachineFunction} {is is' : List MachineInstr}

theorem IsCondTailCall.conditional {i : MachineInstr} (h : IsCondTailCall i) :
    i.isConditionalBranch = true ∧ i.isUnconditionalBranch = false := by
  simp [MachineInstr.isConditionalBranch, MachineInstr.isUnconditionalBranch,
    MachineInstr.isBranch, MachineInstr.isBarrier, MachineInstr.isIndirectBranch, h.1, Opcode.desc]

/-- A conditional tail call at the end of a block, or before its jump, is not replaced
by anything. -/
theorem not_rewritten_condTail {pre : List MachineInstr} {i : MachineInstr}
    {jmp : Option MachineInstr} (hi : IsCondTailCall i) (hjmp : ∀ j ∈ jmp, j.opcode = .jmp1) :
    ¬ Rewritten (pre ++ i :: jmp.toList) is' := by
  rintro ⟨ft, instrs, o, h⟩
  generalize his : pre ++ i :: jmp.toList = is at h
  obtain ⟨hc, hu⟩ := hi.conditional
  have hop {mi : MachineInstr} {cc : Cond} (ho : mi.opcode = .jcc1 cc) : mi ≠ i := by
    rintro rfl
    cases ho.symm.trans hi.1
  have hlast {p : List MachineInstr} {mi : MachineInstr} (h : p ++ [mi] = is) :
      jmp = none ∧ mi = i ∨ jmp = some mi ∧ p = pre ++ [i] := by
    rw [← his] at h
    cases jmp with
    | none => exact .inl ⟨rfl, (last_eq h).2⟩
    | some j =>
      have h : p ++ [mi] = (pre ++ [i]) ++ [j] := by simpa using h
      obtain ⟨rfl, rfl⟩ := last_eq h
      exact .inr ⟨rfl, rfl⟩
  cases h with
  | empty => simp at his
  | leave hmu hmc =>
    rcases hlast rfl with ⟨-, rfl⟩ | ⟨rfl, -⟩
    · rw [hc] at hmc
      cases hmc
    · rw [isUnconditionalBranch_of_jmp1 (hjmp _ rfl)] at hmu
      cases hmu
  | fall hmu hmc =>
    rcases hlast rfl with ⟨-, rfl⟩ | ⟨rfl, -⟩
    · rw [hc] at hmc
      cases hmc
    · rw [isUnconditionalBranch_of_jmp1 (hjmp _ rfl)] at hmu
      cases hmu
  | jump hmu hp =>
    rcases hlast rfl with ⟨-, rfl⟩ | ⟨-, rfl⟩
    · rw [hu] at hmu
      cases hmu
    · rw [hp i List.getLast?_concat] at hc
      cases hc
  | cond ho =>
    rcases hlast rfl with ⟨-, rfl⟩ | ⟨rfl, -⟩
    · exact hop ho rfl
    · cases ho.symm.trans (hjmp _ rfl)
  | @split p jcc mi _ _ _ _ _ _ ho _ hmu =>
    have his : (p ++ [jcc]) ++ [mi] = p ++ [jcc, mi] := by simp
    rcases hlast his with ⟨-, rfl⟩ | ⟨-, h⟩
    · rw [hu] at hmu
      cases hmu
    · exact hop ho (last_eq h).2

/-- Without traps and conditional tail calls the pass handles every block. -/
theorem BackEnd.convertible (hmf : BackEnd mf) (htrap : ∀ c ∈ mf.layout, ¬ EndsInTrap mf c)
    (hc : ∀ c ∈ mf.layout, ∀ i ∈ (mf.blocks c).instrs, i.opcode ≠ .tailjmpd64cc) :
    Convertible mf where
  toWellFormed := hmf.toWellFormed
  nonempty := hmf.nonempty
  shape c hcl := by
    cases hmf.shape c hcl with
    | shape h => exact h
    | condTail pre i jmp his _ hi => exact absurd hi.1 (hc c hcl i (by simp [his]))
    | trap _ _ _ _ h => exact absurd h (htrap c hcl)

/-- A function of the back end that has no trap at the end of a block is accepted
exactly when it has no conditional tail call. -/
theorem isOk_iff (dummyInstr : Bool) (hmf : BackEnd mf)
    (htrap : ∀ c ∈ mf.layout, ¬ EndsInTrap mf c) :
    (∃ out, runOnMachineFunction dummyInstr mf = .ok out) ↔
      ∀ c ∈ mf.layout, ∀ i ∈ (mf.blocks c).instrs, i.opcode ≠ .tailjmpd64cc := by
  refine ⟨fun ⟨out, h⟩ c hc i hi ho => ?_, fun hcond => ?_⟩
  · obtain ⟨entry, fin, -, W, -⟩ := walk_of_run hmf.toWellFormed h
    have hb : i.isBranch := by simp [MachineInstr.isBranch, ho, Opcode.desc]
    have hord : ¬ Ordinary i := fun h => by
      rw [h.isBranch] at hb
      cases hb
    have hrw := W.rewritten hc
    cases hmf.shape c hc with
    | trap _ _ _ _ h => exact htrap c hc h
    | condTail pre j jmp his _ hj hjmp =>
      have his : (start mf).instrs c = pre ++ j :: jmp.toList := his
      rw [his] at hrw
      exact not_rewritten_condTail hj (fun k hk => (hjmp k hk).1) hrw
    | shape h =>
      cases h with
      | branches pre jccs jmp his hpre hjccs hjmp =>
        rw [his] at hi
        simp only [List.mem_append, Option.mem_toList] at hi
        rcases hi with (hi | hi) | hi
        · exact hord (hpre i hi)
        · obtain ⟨cc, h⟩ := (hjccs i hi).1
          cases ho.symm.trans h
        · cases ho.symm.trans (hjmp i hi).1
      | indirect pre j his hpre hj =>
        rw [his, List.mem_append, List.mem_singleton] at hi
        rcases hi with hi | rfl
        · exact hord (hpre i hi)
        · rcases hj with ⟨h, -⟩ | ⟨h, -⟩ <;> cases ho.symm.trans h
      | ret pre j his hpre hj =>
        rw [his, List.mem_append, List.mem_singleton] at hi
        rcases hi with hi | rfl
        · exact hord (hpre i hi)
        · rw [IsReturn, ho] at hj
          revert hj
          decide
      | noReturn pre j his hpre hj =>
        rw [his, List.mem_append, List.mem_singleton] at hi
        rcases hi with hi | rfl
        · exact hord (hpre i hi)
        · exact hord hj
      | fall n hall => exact hord (hall i hi)
  · obtain ⟨entry, fin, -, -, hout⟩ := (hmf.convertible htrap hcond).isOk dummyInstr
    exact ⟨_, hout⟩

/-- `selfLoop` is accepted. -/
theorem isOk_iff_selfLoop : ∃ out, runOnMachineFunction true selfLoop = .ok out :=
  (isOk_iff true
    ⟨selfLoop_convertible.toWellFormed, fun c hc => .shape (selfLoop_convertible.shape c hc),
      selfLoop_convertible.nonempty⟩
    (fun c hc ⟨i, hi, ho, _⟩ => by
      have h : ∀ c ∈ selfLoop.layout, ∀ i ∈ (selfLoop.blocks c).instrs, i.opcode ≠ .trap := by decide
      exact h c hc i (List.mem_of_getLast? hi) ho)).mpr (by decide)

/-- A conditional tail call, else a return. -/
def condTailCall : MachineFunction where
  layout := [0, 1]
  blocks b := if b = 0 then ⟨[⟨.tailjmpd64cc, [.other 0, .imm 4]⟩], [1], false⟩
    else ⟨[⟨.retq, []⟩], [], false⟩
  nextMBB := 2

/-- A function that only traps. -/
def trapOnly : MachineFunction where
  layout := [0]
  blocks _ := ⟨[⟨.trap, []⟩], [], false⟩
  nextMBB := 1

/-- The pass stops at the conditional tail call; nor does it accept the trap. -/
theorem backEnd_not_accepted :
    BackEnd condTailCall ∧ BackEnd trapOnly ∧
      ∀ dummyInstr, (∀ out, runOnMachineFunction dummyInstr condTailCall ≠ .ok out) ∧
        ∀ out, runOnMachineFunction dummyInstr trapOnly ≠ .ok out := by
  refine ⟨⟨⟨by decide, by decide, by decide, by decide, by decide⟩, fun c hc => ?_, by decide⟩,
    ⟨⟨by decide, by decide, by decide, by decide, by decide⟩, fun c hc => ?_, by decide⟩,
    fun dummyInstr => ⟨fun out h => ?_, fun out h => ?_⟩⟩
  · obtain rfl | rfl : c = 0 ∨ c = 1 := by simpa [condTailCall] using hc
    · exact .condTail [] _ none rfl (by simp) ⟨rfl, rfl⟩ (by simp) (by simp; decide)
    · exact .shape (.ret [] ⟨.retq, []⟩ rfl (by simp) (by simp [IsReturn]))
  · obtain rfl := List.mem_singleton.mp hc
    exact .trap [] ⟨.trap, []⟩ rfl (by simp) ⟨_, rfl, rfl, fun n h => by cases h⟩
  · have hrun : ∀ d, (runOnMachineFunction d condTailCall).isOk = false := by decide
    have := hrun dummyInstr
    rw [h] at this
    cases this
  · have hrun : ∀ d, (runOnMachineFunction d trapOnly).isOk = false := by decide
    have := hrun dummyInstr
    rw [h] at this
    cases this

end BS.BranchConversion
