import BranchShadowing.Proof.BranchConversion.Output
import BranchShadowing.Proof.BranchConversion.Shape
import BranchShadowing.Spec.Mitigation

/-!
# Which branches are left

The pass looks at the last instruction of a block, and at the one before it where
that is a jump. So it replaces the last conditional branch of a block and no other:
the output is `Complete` exactly when no block has two (`complete_iff`). The two
branches for a floating-point `!=` are such a pair (`jneJp_not_complete`).
-/

namespace BS.BranchConversion

open X86 PassState

/-! ## The instructions of a block -/

section

variable {is is' : List MachineInstr}

/-- Where no conditional branch is left, there was at most one. -/
theorem countP_le_one_of_rewritten (h : Rewritten is is')
    (hc : ∀ i ∈ is', i.isConditionalBranch = false) :
    is.countP MachineInstr.isConditionalBranch ≤ 1 := by
  obtain ⟨ft, instrs, o, h⟩ := h
  have hpre {pre : List MachineInstr} (h : ∀ i ∈ pre, i ∈ is') :
      pre.countP MachineInstr.isConditionalBranch = 0 :=
    List.countP_eq_zero.mpr fun i hi => by simp [hc i (h i hi)]
  have hu {mi : MachineInstr} (h : mi.isUnconditionalBranch) : mi.isConditionalBranch = false := by
    simp only [MachineInstr.isUnconditionalBranch, MachineInstr.isConditionalBranch,
      Bool.and_eq_true] at h ⊢
    simp [h.1.2]
  cases h with
  | empty => exact Nat.zero_le _
  | leave =>
    rw [hpre fun _ h => h]
    exact Nat.zero_le _
  | fall _ hi =>
    rw [List.countP_append, hpre fun i h => by simp [h]]
    simp [hi]
  | jump h =>
    rw [List.countP_append, hpre fun i h => by simp [h]]
    simp [hu h]
  | cond =>
    rw [List.countP_append, hpre fun i h => by simp [h], Nat.zero_add]
    exact List.countP_le_length
  | split _ _ h =>
    rw [List.countP_append, hpre fun i h => by simp [h], Nat.zero_add, List.countP_cons,
      List.countP_cons, List.countP_nil, hu h]
    simp only [Bool.false_eq_true, if_false]
    split <;> omega

/-- The last instruction of a block is its jump, or its last conditional branch, or
stands before all direct branches. -/
theorem last_cases {pre jccs p : List MachineInstr} {jmp : Option MachineInstr}
    {mi : MachineInstr} (h : p ++ [mi] = pre ++ jccs ++ jmp.toList) :
    (jmp = some mi ∧ p = pre ++ jccs) ∨
      (∃ l, jmp = none ∧ jccs = l ++ [mi] ∧ p = pre ++ l) ∨
      (jmp = none ∧ jccs = [] ∧ p ++ [mi] = pre) := by
  cases jmp with
  | some j =>
    obtain ⟨rfl, rfl⟩ := last_eq h
    exact .inl ⟨rfl, rfl⟩
  | none =>
    rw [Option.toList_none, List.append_nil] at h
    rcases List.eq_nil_or_concat jccs with rfl | ⟨l, k, rfl⟩
    · exact .inr (.inr ⟨rfl, rfl, by rw [h, List.append_nil]⟩)
    · rw [List.concat_eq_append, ← List.append_assoc] at h
      obtain ⟨rfl, rfl⟩ := last_eq h
      exact .inr (.inl ⟨l, rfl, List.concat_eq_append, rfl⟩)

/-- Of the direct branches at the end of a block none is left if there was at most
one conditional branch. -/
theorem direct_of_rewritten {pre jccs : List MachineInstr} {jmp : Option MachineInstr}
    (h : Rewritten is is') (his : is = pre ++ jccs ++ jmp.toList)
    (hpre : ∀ i ∈ pre, i.isConditionalBranch = false ∧ i.isUnconditionalBranch = false)
    (hjccs : ∀ i ∈ jccs, ∃ cc, i.opcode = .jcc1 cc) (hjmp : ∀ i ∈ jmp, i.opcode = .jmp1)
    (hone : is.countP MachineInstr.isConditionalBranch ≤ 1) :
    ∀ i ∈ is', i.isBranch → i ∈ pre := by
  have hjcc {i : MachineInstr} (hi : i ∈ jccs) : i.isConditionalBranch = true ∧
      i.isUnconditionalBranch = false := by
    obtain ⟨cc, ho⟩ := hjccs i hi
    exact ⟨(flags_of_jcc1 ho).1, (flags_of_jcc1 ho).2.1⟩
  have hlen : jccs.length ≤ 1 := by
    rw [his, List.countP_append, List.countP_append] at hone
    have : jccs.countP MachineInstr.isConditionalBranch = jccs.length :=
      List.countP_eq_length.mpr fun i hi => (hjcc hi).1
    omega
  obtain ⟨ft, instrs, o, h⟩ := h
  cases h with
  | empty => simp
  | leave hu hc =>
    rcases last_cases his with ⟨rfl, -⟩ | ⟨l, -, rfl, -⟩ | ⟨-, -, rfl⟩
    · rw [isUnconditionalBranch_of_jmp1 (hjmp _ rfl)] at hu
      cases hu
    · rw [(hjcc (by simp)).1] at hc
      cases hc
    · exact fun i hi _ => hi
  | fall hu hc =>
    rcases last_cases his with ⟨rfl, -⟩ | ⟨l, -, rfl, -⟩ | ⟨-, -, rfl⟩
    · rw [isUnconditionalBranch_of_jmp1 (hjmp _ rfl)] at hu
      cases hu
    · rw [(hjcc (by simp)).1] at hc
      cases hc
    · intro i hi hb
      simp only [List.mem_append, List.mem_cons, List.not_mem_nil, or_false] at hi ⊢
      rcases hi with hi | rfl | rfl
      · exact .inl hi
      · exact .inr rfl
      · cases hb
  | jump hu hlast =>
    rcases last_cases his with ⟨rfl, rfl⟩ | ⟨l, -, rfl, -⟩ | ⟨-, -, rfl⟩
    · have hnil : jccs = [] := by
        by_contra hne
        obtain ⟨l, k, rfl⟩ := List.eq_nil_or_concat jccs |>.resolve_left hne
        have := hlast k (by simp)
        rw [(hjcc (by simp)).1] at this
        cases this
      intro i hi hb
      rw [hnil, List.append_nil, List.mem_append, List.mem_singleton] at hi
      rcases hi with hi | rfl
      · exact hi
      · cases hb
    · rw [(hjcc (by simp)).2] at hu
      cases hu
    · rw [(hpre _ (by simp)).2] at hu
      cases hu
  | cond ho =>
    have hc := (flags_of_jcc1 ho).1
    rcases last_cases his with ⟨rfl, -⟩ | ⟨l, -, rfl, rfl⟩ | ⟨-, -, rfl⟩
    · rw [hjmp _ rfl] at ho
      cases ho
    · obtain rfl : l = [] := List.eq_nil_of_length_eq_zero (by simpa using hlen)
      intro i hi hb
      simp only [List.append_nil, List.mem_append, List.mem_cons, List.not_mem_nil, or_false] at hi
      rcases hi with hi | rfl | rfl | rfl
      · exact hi
      all_goals cases hb
    · rw [(hpre _ (by simp)).1] at hc
      cases hc
  | @split p jcc mi _ _ _ _ _ _ ho _ hu =>
    have hc := (flags_of_jcc1 ho).1
    rcases last_cases (p := p ++ [jcc]) (by simpa using his) with
      ⟨rfl, hp⟩ | ⟨l, -, rfl, -⟩ | ⟨-, -, rfl⟩
    · rcases List.eq_nil_or_concat jccs with rfl | ⟨l, k, rfl⟩
      · rw [List.append_nil] at hp
        have hmem : jcc ∈ pre := by simp [← hp]
        rw [(hpre jcc hmem).1] at hc
        cases hc
      · obtain rfl : l = [] := List.eq_nil_of_length_eq_zero (by simpa using hlen)
        obtain ⟨rfl, -⟩ := last_eq (y := k) (by simpa using hp)
        intro i hi hb
        simp only [List.mem_append, List.mem_cons, List.not_mem_nil, or_false] at hi
        rcases hi with hi | rfl | rfl | rfl
        · exact hi
        all_goals cases hb
    · rw [(hjcc (by simp)).2] at hu
      cases hu
    · rw [(hpre _ (by simp)).2] at hu
      cases hu

end

/-! ## The output -/

section

variable {dummyInstr : Bool} {mf out : MachineFunction} {fin : PassState} {entry : Nat}

theorem Convertible.directBranches (hmf : Convertible mf) : DirectBranches mf := by
  have hother {i : MachineInstr} (h : i.isBranch = false) :
      i.isConditionalBranch = false ∧ i.isUnconditionalBranch = false := by
    simp [MachineInstr.isConditionalBranch, MachineInstr.isUnconditionalBranch, h]
  have hlast {pre : List MachineInstr} {mi : MachineInstr} (hp : ∀ i ∈ pre, Ordinary i)
      (hm : mi.isConditionalBranch = false ∧ mi.isUnconditionalBranch = false) :
      ∀ i ∈ pre ++ [mi], i.isConditionalBranch = false ∧ i.isUnconditionalBranch = false := by
    intro i hi
    rcases List.mem_append.mp hi with h | h
    · exact hother (hp i h).isBranch
    · exact List.mem_singleton.mp h ▸ hm
  intro c hc
  cases hmf.shape c hc with
  | branches pre jccs jmp hi hpre hjccs hjmp =>
    refine ⟨pre, jccs, jmp, hi, fun i h => hother (hpre i h).isBranch, fun i h => ?_, fun i h => ?_⟩
    · obtain ⟨ho, d, -, hd⟩ := hjccs i h
      exact ⟨ho, d, hd⟩
    · obtain ⟨ho, d, -, hd⟩ := hjmp i h
      exact ⟨ho, d, hd⟩
  | indirect pre mi hi hpre hmi =>
    exact ⟨_, [], none, by simpa using hi, hlast hpre ⟨hmi.flags.2.2.2, hmi.flags.2.2.1⟩, by simp,
      by simp⟩
  | ret pre mi hi hpre hmi =>
    exact ⟨_, [], none, by simpa using hi, hlast hpre (hother hmi.flags.2.1), by simp, by simp⟩
  | noReturn pre mi hi hpre hmi =>
    exact ⟨_, [], none, by simpa using hi, hlast hpre (hother hmi.isBranch), by simp, by simp⟩
  | fall n hall =>
    exact ⟨_, [], none, by simp, fun i h => hother (hall i h).isBranch, by simp, by simp⟩

theorem jumpsStay_start (hd : DirectBranches mf) : JumpsStay (start mf) := by
  intro c hc i hi hu
  obtain ⟨pre, jccs, jmp, his, hpre, hjccs, hjmp⟩ := hd c hc
  have hi' : i ∈ (mf.blocks c).instrs := hi
  rw [his, List.mem_append, List.mem_append] at hi'
  rcases hi' with (hi' | hi') | hi'
  · rw [(hpre i hi').2] at hu
    cases hu
  · obtain ⟨⟨cc, ho⟩, -⟩ := hjccs i hi'
    rw [(flags_of_jcc1 ho).2.1] at hu
    cases hu
  · obtain ⟨ho, -⟩ := hjmp i (Option.mem_toList.mp hi')
    simp [MachineInstr.isReturn, ho, Opcode.desc]

/-- From the entry on the layout is the blocks walked and their fake blocks in turn. -/
theorem codeBlocks_of_walk (hmf : WellFormed mf) (hj : JumpsStay (start mf))
    (hentry : mf.layout.head? = some entry) (W : Walk dummyInstr fin (start mf)) :
    ∃ cs fs, (∃ tr, fin.before = tr ++ weave cs fs) ∧ fin.processedMBBs = cs ∧
      fs.length ≤ cs.length ∧ cs.length ≤ fs.length + 1 ∧ (∀ b ∈ weave cs fs, b ∈ fin.before) ∧
      codeBlocks mf (addFrontBlock fin entry).mf = weave cs fs ∧
      ∀ f ∈ fs, mf.nextMBB ≤ f ∧ fin.instrs f = [jmp64r] ∧ f ∉ fin.processedMBBs := by
  obtain ⟨tr, cs, fs, hlay, htr, hproc, hle, hle', hfs⟩ := W.woven hj
  have hlay : fin.before = tr ++ weave cs fs := by simpa [start] using hlay
  have hproc : fin.processedMBBs = cs := by simpa [start] using hproc
  have hhead : (weave cs fs).head? = some entry := by
    have h : fin.processedMBBs[0]? = some entry := W.getElem?_length.trans hentry
    rw [hproc, ← List.head?_eq_getElem?] at h
    rw [head?_weave (fun hnil => by rw [hnil] at h; cases h), h]
  refine ⟨cs, fs, ⟨tr, hlay⟩, hproc, hle, hle', by simp +contextual [hlay], ?_, hfs⟩
  obtain ⟨l, hl⟩ := List.head?_eq_some_iff.mp hhead
  have hlt := hmf.fresh entry (List.mem_of_head? hentry)
  rw [codeBlocks, addFrontBlock_layout _ _ W.after_eq_nil, hlay, hentry, ← List.cons_append,
    List.dropWhile_append_of_pos]
  · simp [hl]
  · intro b hb
    have hne : entry ≠ b := by
      rcases List.mem_cons.mp hb with rfl | hb
      · have : mf.nextMBB ≤ fin.nextMBB := W.nextMBB_le
        omega
      · have : mf.nextMBB ≤ b := htr b hb
        omega
    simpa using hne

/-- Behind a block that was walked stands its fake block. -/
theorem leavesOverFake_fake (hmf : WellFormed mf) (hd : DirectBranches mf)
    (W : Walk dummyInstr fin (start mf)) (entry : Nat) {c : Nat} (hc : c ∈ fin.processedMBBs) :
    (∃ f, (addFrontBlock fin entry).mf.layoutSucc c = some f ∧ f ∉ mf.layout ∧
      ((addFrontBlock fin entry).mf.blocks f).instrs = [jmp64r]) ∨
    c ∈ mf.layout ∧ (addFrontBlock fin entry).mf.layoutSucc c = none ∧
      ((addFrontBlock fin entry).mf.blocks c).isReturnBlock := by
  have hb := W.mem_before_of_processed hc
  rw [W.out_layoutSucc entry hb]
  rcases W.fakes (jumpsStay_start hd) hc (by simp [start]) with ⟨f, hf, hn⟩ | ⟨hcl, h, hret, hi⟩
  · refine .inl ⟨f, hf.1, fun hfl => ?_, ?_⟩
    · exact absurd (hmf.fresh f hfl) (Nat.not_lt.mpr hn)
    · rw [W.out_blocks entry (mem_of_nextOf hf.1)]
      exact hf.2.1
  · refine .inr ⟨hcl, h, ?_⟩
    have hi' : (fin.blocks c).instrs = (mf.blocks c).instrs := hi
    rw [W.out_blocks entry hb, MachineBasicBlock.isReturnBlock, hi']
    exact hret

/-- Where there is one conditional branch at most in each block, none slips through. -/
theorem complete_of_walk (hmf : WellFormed mf) (hd : DirectBranches mf)
    (hentry : mf.layout.head? = some entry) (W : Walk dummyInstr fin (start mf))
    (hone : ∀ c ∈ mf.layout, (mf.blocks c).instrs.countP MachineInstr.isConditionalBranch ≤ 1) :
    Complete mf (addFrontBlock fin entry).mf := by
  have hinstrs {b : Nat} (hb : b ∈ fin.before) :
      ((addFrontBlock fin entry).mf.blocks b).instrs = fin.instrs b := by
    rw [W.out_blocks entry hb]
    rfl
  have horig {c : Nat} (hc : c ∈ mf.layout) : ∀ i ∈ fin.instrs c, i.isBranch →
      i ∈ (mf.blocks c).instrs ∧ i.isConditionalBranch = false ∧
        i.isUnconditionalBranch = false := by
    obtain ⟨pre, jccs, jmp, his, hpre, hjccs, hjmp⟩ := hd c hc
    intro i hi hb
    have hmem := direct_of_rewritten (W.rewritten hc) his hpre (fun i hi => (hjccs i hi).1)
      (fun i hi => (hjmp i hi).1) (hone c hc) i hi hb
    exact ⟨by simp [his, hmem], hpre i hmem⟩
  have hmade : Made mf.nextMBB [] fin := W.made (Nat.le_refl _) (made_start) (moved_start hmf)
  refine ⟨fun b hb i hi => ?_, fun b hb => ?_, fun b hb hbl => ?_⟩
  · rw [addFrontBlock_layout _ _ W.after_eq_nil] at hb
    rcases List.mem_cons.mp hb with rfl | hb
    · rw [addFrontBlock_front, List.mem_singleton] at hi
      exact hi ▸ rfl
    · rw [hinstrs hb] at hi
      rcases W.mem_layout hb with h | h
      · by_contra hne
        rw [Bool.not_eq_false] at hne
        rw [(horig h i hi (isBranch_of_conditional hne)).2.1] at hne
        cases hne
      · exact (hmade b h (W.bookkeeping_fin.fresh b (by simp [hb])) (by simp) i hi).not_conditional
  · have hp := W.mem_processedMBBs hb
    have hbb := W.mem_before_of_processed hp
    refine ⟨fun i hi hbr => ?_, ?_⟩
    · rw [hinstrs hbb] at hi
      obtain ⟨hmem, hc, hu⟩ := horig hb i hi hbr
      refine ⟨?_, hb, hmem⟩
      simp only [MachineInstr.isConditionalBranch, MachineInstr.isUnconditionalBranch, hbr,
        Bool.true_and] at hc hu
      cases hbar : i.isBarrier <;> simp_all
    · exact (leavesOverFake_fake hmf hd W entry hp).imp_right And.right
  · obtain ⟨cs, fs, -, hproc, -, -, hlay, hcode, hfs⟩ :=
      codeBlocks_of_walk hmf (jumpsStay_start hd) hentry W
    rw [hcode, mem_weave] at hb
    rcases hb with hp | hf
    · rw [← hproc] at hp
      have hbb := W.mem_before_of_processed hp
      obtain ⟨-, z, hz⟩ := W.splitOff hp (by simp [start]) hbl
      refine .inr ⟨fun i hi hbr => ?_, (leavesOverFake_fake hmf hd W entry hp).imp_right And.right⟩
      rw [hinstrs hbb, hz, List.mem_singleton] at hi
      subst hi
      cases hbr
    · exact .inl ((hinstrs (hlay b (mem_weave.mpr (.inr hf)))).trans (hfs b hf).2.1)

/-- The output is complete exactly when no block of the input has two conditional
branches. -/
theorem complete_iff (hmf : WellFormed mf) (hd : DirectBranches mf)
    (h : runOnMachineFunction dummyInstr mf = .ok out) :
    Complete mf out ↔
      ∀ c ∈ mf.layout, (mf.blocks c).instrs.countP MachineInstr.isConditionalBranch ≤ 1 := by
  obtain ⟨entry, fin, hentry, W, rfl⟩ := walk_of_run hmf h
  refine ⟨fun hc c hcl => ?_, complete_of_walk hmf hd hentry W⟩
  have hb := W.mem_before_of_processed (W.mem_processedMBBs hcl)
  refine countP_le_one_of_rewritten (W.rewritten hcl) fun i hi => ?_
  refine hc.conditional c ?_ i ?_
  · rw [addFrontBlock_layout _ _ W.after_eq_nil]
    exact List.mem_cons_of_mem _ hb
  · rw [W.out_blocks entry hb]
    exact hi

/-- Of `selfLoop` no direct branch is left. -/
theorem complete_iff_selfLoop :
    ∃ out, runOnMachineFunction false selfLoop = .ok out ∧ Complete selfLoop out := by
  obtain ⟨entry, fin, -, -, hout⟩ := selfLoop_convertible.isOk false
  exact ⟨_, hout, (complete_iff selfLoop_convertible.toWellFormed
    selfLoop_convertible.directBranches hout).mpr (by decide)⟩

end

/-! ## Two conditional branches -/

/-- `if (a != b)` for floating-point numbers: JNE and JP to block 2, else fall through
to block 1. -/
def jneJp : MachineFunction where
  layout := [0, 1, 2]
  blocks b := if b = 0 then ⟨[⟨.jcc1 .ne, [.mbb 2]⟩, ⟨.jcc1 .p, [.mbb 2]⟩], [2, 1], false⟩
    else ⟨[⟨.retq, []⟩], [], false⟩
  nextMBB := 3

/-- The JNE of `jneJp` is left in the output. -/
theorem jneJp_not_complete :
    WellFormed jneJp ∧ DirectBranches jneJp ∧
      ∃ out, runOnMachineFunction false jneJp = .ok out ∧ ¬ Complete jneJp out := by
  refine ⟨⟨by decide, by decide, by decide, by decide, by decide⟩, fun c hc => ?_, ?_⟩
  · obtain rfl | rfl | rfl : c = 0 ∨ c = 1 ∨ c = 2 := by simpa [jneJp] using hc
    · exact ⟨[], [⟨.jcc1 .ne, [.mbb 2]⟩, ⟨.jcc1 .p, [.mbb 2]⟩], none, rfl, by simp,
        by simpa using ⟨⟨2, rfl⟩, 2, rfl⟩, by simp⟩
    · exact ⟨[⟨.retq, []⟩], [], none, rfl, by decide, by simp, by simp⟩
    · exact ⟨[⟨.retq, []⟩], [], none, rfl, by decide, by simp, by simp⟩
  · have hrun : (runOnMachineFunction false jneJp).map
        (fun out => decide (0 ∈ out.layout ∧ ⟨.jcc1 .ne, [.mbb 2]⟩ ∈ (out.blocks 0).instrs)) =
        .ok true := by decide
    cases hout : runOnMachineFunction false jneJp with
    | error e =>
      rw [hout] at hrun
      cases hrun
    | ok out =>
      rw [hout] at hrun
      obtain ⟨hb, hi⟩ := of_decide_eq_true (Except.ok.inj hrun)
      refine ⟨out, rfl, fun h => ?_⟩
      cases h.conditional 0 hb _ hi

end BS.BranchConversion
