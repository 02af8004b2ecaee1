import BranchShadowing.Proof.BranchConversion.CalleeSaved

/-!
# Reserved registers

`getReservedRegs` keeps R13 and R14 from the allocator, and the pass writes R13 and
R15: the inserted instructions write only reserved registers exactly when no LEA
into R15 is inserted, which is when no block with instructions ends in a direct
branch or falls through. Such a function is left as it is (`Quiet`), but for the fake
blocks between its blocks, where control that falls through an empty block goes to
where R15 points (`clobbersReserved_iff`).
-/

namespace BS.BranchConversion

open X86 PassState

/-! ## The fall-through of a block -/

section

variable {mf mf' : MachineFunction} {b : Nat}

theorem getFallThroughMBB_congr {TBB : Option Nat} {succs : List Nat} {ft : Option Nat}
    (hs : ∀ d ∈ succs, (mf'.blocks d).isEHPad = (mf.blocks d).isEHPad) :
    mf'.getFallThroughMBB TBB succs ft = mf.getFallThroughMBB TBB succs ft := by
  induction succs generalizing ft with
  | nil => rfl
  | cons d ds ih =>
    have hd := hs d (List.mem_cons_self ..)
    have ih (ft : Option Nat) :
        mf'.getFallThroughMBB TBB ds ft = mf.getFallThroughMBB TBB ds ft :=
      ih fun e he => hs e (List.mem_cons_of_mem _ he)
    simp only [MachineFunction.getFallThroughMBB, hd, ih]

theorem analyzeBranchImpl_congr (hb : mf'.blocks b = mf.blocks b)
    (hs : ∀ d ∈ (mf.blocks b).succs, (mf'.blocks d).isEHPad = (mf.blocks d).isEHPad)
    (is : List MachineInstr) (a : BranchAnalysis) :
    mf'.analyzeBranchImpl b is a = mf.analyzeBranchImpl b is a := by
  induction is generalizing a with
  | nil => rfl
  | cons i is ih =>
    simp only [MachineFunction.analyzeBranchImpl, ih, hb, getFallThroughMBB_congr hs]

/-- The fall-through depends on the block, the one behind it, and on which successors
are landing pads. -/
theorem getFallThrough_congr (hl : mf'.layoutSucc b = mf.layoutSucc b)
    (hb : mf'.blocks b = mf.blocks b)
    (hs : ∀ d ∈ (mf.blocks b).succs, (mf'.blocks d).isEHPad = (mf.blocks d).isEHPad) :
    mf'.getFallThrough b = mf.getFallThrough b := by
  simp only [MachineFunction.getFallThrough, MachineFunction.analyzeBranch, hl, hb,
    analyzeBranchImpl_congr hb hs]

end

/-! ## Blocks that are left as they are -/

/-- So far the pass has changed no block of `mf`, and has put nothing but fake blocks
between them. -/
structure Quiet (mf : MachineFunction) (st : PassState) : Prop where
  lanes : currents st.takenBlocks = []
  blocks : ∀ b < mf.nextMBB, st.blocks b = mf.blocks b
  nextMBB : mf.nextMBB ≤ st.nextMBB
  new : ∀ b, mf.nextMBB ≤ b → b < st.nextMBB → st.instrs b = [jmp64r]
  after : st.after <:+ mf.layout

section

variable {dummyInstr : Bool} {mf : MachineFunction} {st st' : PassState} {mbb k : Nat}
  {rest : List Nat}

theorem updateLanes_quiet {fakeBlock : Option Nat} {lanes : List BlockLane} {tk tk' : Option Nat}
    (h : updateLanes dummyInstr mbb fakeBlock lanes st tk = .ok (st', tk'))
    (hc : currents lanes = []) (hs : currents st.takenBlocks = []) :
    st'.blocks = st.blocks ∧ st'.after = st.after ∧ st'.nextMBB = st.nextMBB ∧
      currents st'.takenBlocks = [] := by
  induction lanes generalizing st tk with
  | nil =>
    simp only [updateLanes, Except.ok.injEq, Prod.mk.injEq] at h
    exact h.1 ▸ ⟨rfl, rfl, rfl, hs⟩
  | cons lane rest ih =>
    rw [← List.singleton_append, currents_append, List.append_eq_nil_iff] at hc
    have hz : lane.currentMBB = none := by
      by_contra hne
      obtain ⟨z, hz⟩ := Option.ne_none_iff_exists'.mp hne
      have := currents_mem (List.mem_singleton_self lane) hz
      rw [hc.1] at this
      cases this
    by_cases ha : lane.Arrives mbb
    · rw [updateLanes_arrive ha, hz] at h
      cases tk with
      | none =>
        have h' : updateLanes dummyInstr mbb fakeBlock rest (st.pushLane lane)
            (some st.takenBlocks.length) = .ok (st', tk') := h
        have hs' : currents (st.pushLane lane).takenBlocks = [] := by
          rw [pushLane_takenBlocks, currents_append, hs, hc.1]
          rfl
        have hq := ih h' hc.2 hs'
        exact hq
      | some k => exact ih h hc.2 hs
    · rw [updateLanes_dead ha hz] at h
      exact ih h hc.2 hs

theorem currents_set {lanes : List BlockLane} (h : currents lanes = []) (k : Nat) (d : Option Nat)
    (t : Bool) : currents (lanes.set k ⟨none, d, t⟩) = [] := by
  rw [currents, List.filterMap_eq_nil_iff] at h ⊢
  intro lane hl
  rcases List.mem_or_eq_of_mem_set hl with hl | rfl
  · exact h lane hl
  · rfl

/-- Where the pass keeps the end of a block it changes no block. -/
theorem replaceTerminator_quiet {ft : Option Nat} (h : replaceTerminator st mbb ft k = .ok st')
    (hkeep : ∀ i, (st.instrs mbb).getLast? = some i → i.isUnconditionalBranch = false ∧
      i.isConditionalBranch = false ∧ (i.isIndirectBranch ∨ ft = none))
    (hs : currents st.takenBlocks = []) :
    st'.blocks = st.blocks ∧ st'.after = st.after ∧ st'.nextMBB = st.nextMBB ∧
      currents st'.takenBlocks = [] := by
  unfold replaceTerminator at h
  cases hl : (st.instrs mbb).getLast? with
  | none =>
    rw [hl] at h
    cases h
    exact ⟨rfl, rfl, rfl, hs⟩
  | some pos =>
    obtain ⟨hu, hc, hi⟩ := hkeep pos hl
    rw [hl] at h
    simp only [hu, hc, Bool.false_eq_true, if_false] at h
    split at h
    · simp only [replaceIndirectJump] at h
      split at h
      · cases h
        exact ⟨rfl, rfl, rfl, currents_set hs ..⟩
      · cases h
    · rename_i hind
      rw [hi.resolve_left hind] at h
      split at h
      · cases h
        exact ⟨rfl, rfl, rfl, currents_set hs ..⟩
      · cases h

/-- So far the fall-through is the one in the input. -/
theorem Quiet.getFallThrough (hQ : Quiet mf st) (hmf : WellFormed mf) (hB : Bookkeeping st)
    (ha : st.after = mbb :: rest) :
    (advance st mbb rest).mf.getFallThrough mbb = mf.getFallThrough mbb := by
  obtain ⟨front, hfront⟩ := hQ.after
  have hmem : mbb ∈ mf.layout := by simp [← hfront, ha]
  have hblocks : ∀ d ∈ mf.layout, st.blocks d = mf.blocks d := fun d hd =>
    hQ.blocks d (hmf.fresh d hd)
  refine getFallThrough_congr ?_ (hblocks mbb hmem) fun d hd => ?_
  · have hnd := hmf.nodup
    rw [BlockDone.layoutSucc_advance hB ha, MachineFunction.layoutSucc, ← hfront, ha]
    rw [← hfront, ha] at hnd
    refine (nextOf_append_cons fun h => ?_).symm
    exact (List.nodup_append.mp hnd).2.2 mbb h mbb (List.mem_cons_self ..) rfl
  · exact congrArg MachineBasicBlock.isEHPad (hblocks d (hmf.succs mbb hmem d hd))

theorem insertFakeBlock_quiet {fakeBlock : Option Nat} (hQ : Quiet mf st)
    (h : insertFakeBlock st mbb = (fakeBlock, st')) : Quiet mf st' := by
  simp only [insertFakeBlock, createMachineBasicBlock_eq] at h
  split at h
  · cases h
    exact hQ
  · cases h
    refine ⟨hQ.lanes, fun b hb => ?_, Nat.le_succ_of_le hQ.nextMBB, fun b hn hb => ?_, hQ.after⟩
    · have hne : b ≠ st.nextMBB := Nat.ne_of_lt (Nat.lt_of_lt_of_le hb hQ.nextMBB)
      rw [buildMI, setInstrs_blocks _ _ hne]
      exact (withBlock_blocks st hne).trans (hQ.blocks b hb)
    · rw [buildMI, setInstrs_instrs]
      split
      · show st.withBlock.instrs st.nextMBB ++ [jmp64r] = [jmp64r]
        rw [withBlock_instrs, if_pos rfl, List.nil_append]
      · rename_i hne
        have hlt : b < st.nextMBB + 1 := hb
        show st.withBlock.instrs b = [jmp64r]
        rw [withBlock_instrs, if_neg hne]
        exact hQ.new b hn (by omega)

/-- A block whose end is kept is left as it is. -/
theorem runOnBlock_quiet (hQ : Quiet mf st) (hmf : WellFormed mf) (hB : Bookkeeping st)
    (ha : st.after = mbb :: rest) (h : runOnBlock dummyInstr st = .ok st')
    (hkeep : KeepsEnd mf mbb) : Quiet mf st' := by
  have hft := hQ.getFallThrough hmf hB ha
  have hmem : mbb ∈ mf.layout := hQ.after.subset (by simp [ha])
  have hmbb := hQ.blocks mbb (hmf.fresh mbb hmem)
  simp only [runOnBlock, ha] at h
  rcases hf : insertFakeBlock (advance st mbb rest) mbb with ⟨fakeBlock, s₁⟩
  rw [hf] at h
  cases hl : updateLanes dummyInstr mbb fakeBlock s₁.takenBlocks { s₁ with takenBlocks := [] } none
    with
  | error e =>
    rw [hl] at h
    cases h
  | ok p =>
    obtain ⟨s₂, tk⟩ := p
    rw [hl] at h
    rcases ht : takeLane s₂ tk with ⟨k, s₃⟩
    simp only [bind, Except.bind, ht] at h
    have hadv : Quiet mf (advance st mbb rest) :=
      { hQ with after := (List.suffix_cons mbb rest).trans (ha ▸ hQ.after) }
    have h₁ := insertFakeBlock_quiet hadv hf
    obtain ⟨hb₂, ha₂, hn₂, hc₂⟩ := updateLanes_quiet hl h₁.lanes rfl
    have h₃ : s₃.blocks = s₂.blocks ∧ s₃.after = s₂.after ∧ s₃.nextMBB = s₂.nextMBB ∧
        currents s₃.takenBlocks = [] := by
      cases tk <;> cases ht
      · refine ⟨rfl, rfl, rfl, ?_⟩
        rw [pushLane_takenBlocks, currents_append, hc₂]
        rfl
      · exact ⟨rfl, rfl, rfl, hc₂⟩
    have hb₃ : s₃.blocks = s₁.blocks := h₃.1.trans hb₂
    have hi : s₃.instrs mbb = (mf.blocks mbb).instrs := by
      rw [PassState.instrs, hb₃, h₁.blocks mbb (hmf.fresh mbb hmem)]
    obtain ⟨hb, hat, hn, hc⟩ :=
      replaceTerminator_quiet h (fun i hl => hft ▸ hkeep i (hi ▸ hl)) h₃.2.2.2
    refine ⟨hc, fun b hlt => ?_, ?_, fun b hge hlt => ?_, ?_⟩
    · rw [hb, hb₃, h₁.blocks b hlt]
    · rw [hn, h₃.2.2.1, hn₂]
      exact h₁.nextMBB
    · rw [hn, h₃.2.2.1, hn₂] at hlt
      rw [PassState.instrs, hb, hb₃]
      exact h₁.new b hge hlt
    · rw [hat, h₃.2.1, ha₂]
      exact h₁.after

/-! ## Blocks that are changed -/

theorem dropCommon_append {α : Type*} [DecidableEq α] (pre xs ys : List α) :
    dropCommon (pre ++ xs) (pre ++ ys) = dropCommon xs ys := by
  induction pre with
  | nil => rfl
  | cons x pre ih => simpa [dropCommon] using ih

theorem dropCommon_self {α : Type*} [DecidableEq α] (xs : List α) : dropCommon xs xs = [] := by
  induction xs with
  | nil => rfl
  | cons x xs ih => simpa [dropCommon] using ih

/-- Where the pass does not keep the end of a block, it inserts a LEA into R15. -/
theorem lea_mem_of_ending {next : Nat → Prop} {leads : Nat → Nat → Prop} {ft : Option Nat}
    {instrs : Nat → List MachineInstr} {is is' : List MachineInstr} {o : Option Nat}
    (h : Ending next leads ft instrs is is' o)
    (hkeep : ¬ ∀ i, is.getLast? = some i → i.isUnconditionalBranch = false ∧
      i.isConditionalBranch = false ∧ (i.isIndirectBranch ∨ ft = none)) :
    ∃ z, lea .r15 z ∈ dropCommon is is' := by
  have hne {mi : MachineInstr} (z : Nat) (hb : mi.isBranch) : mi ≠ lea targetRegOpcode z := by
    rintro rfl
    cases hb
  cases h with
  | empty => exact absurd (by simp) hkeep
  | leave hu hc hi =>
    refine absurd (fun i hl => ?_) hkeep
    rw [List.getLast?_concat] at hl
    cases hl
    exact ⟨hu, hc, hi.imp_right And.left⟩
  | @fall pre mi n z =>
    refine ⟨z, ?_⟩
    have := dropCommon_append (pre ++ [mi]) [] [lea targetRegOpcode z]
    simp only [List.append_assoc, List.append_nil, List.singleton_append] at this
    rw [this]
    exact List.mem_cons_self ..
  | @jump pre mi d z hu =>
    refine ⟨z, ?_⟩
    rw [dropCommon_append, dropCommon, if_neg (hne z (isBranch_of_unconditional hu))]
    exact List.mem_cons_self ..
  | @cond pre mi cc d zF zT ho =>
    refine ⟨zF, ?_⟩
    rw [dropCommon_append, dropCommon,
      if_neg (hne zF (isBranch_of_conditional (flags_of_jcc1 ho).1))]
    exact List.mem_cons_self ..
  | @split pre jcc mi cc d d' zF zT N ho =>
    refine ⟨zF, ?_⟩
    rw [dropCommon_append, dropCommon,
      if_neg (hne zF (isBranch_of_conditional (flags_of_jcc1 ho).1))]
    exact List.mem_cons_self ..

/-- Either the pass keeps the ends of all blocks, and changes nothing, or it inserts a
LEA into R15. -/
theorem quiet_or_lea {fin : PassState} {n : Nat} (hmf : WellFormed mf)
    (h : blockLoop dummyInstr n st = .ok fin) (hB : Bookkeeping st) (hQ : Quiet mf st) :
    (Quiet mf fin ∧ ∀ c ∈ st.after, KeepsEnd mf c) ∨
      ∃ c ∈ mf.layout, ¬ KeepsEnd mf c ∧
        ∃ z, lea .r15 z ∈ dropCommon (mf.blocks c).instrs (fin.instrs c) := by
  induction n generalizing st with
  | zero =>
    simp only [blockLoop] at h
    split at h
    · rename_i ha
      cases h
      exact .inl ⟨hQ, by simp [ha]⟩
    · cases h
  | succ n ih =>
    simp only [blockLoop] at h
    split at h
    · rename_i ha
      cases h
      exact .inl ⟨hQ, by simp [ha]⟩
    · rename_i ha
      obtain ⟨mbb, rest, ha⟩ := List.exists_cons_of_ne_nil ha
      cases hr : runOnBlock dummyInstr st with
      | error e =>
        rw [hr] at h
        cases h
      | ok st₁ =>
        rw [hr] at h
        have hloop : blockLoop dummyInstr n st₁ = .ok fin := h
        obtain ⟨fakeBlock, D⟩ := runOnBlock_spec hB ha hr
        have hmem : mbb ∈ mf.layout := hQ.after.subset (by simp [ha])
        by_cases hkeep : KeepsEnd mf mbb
        · have hQ₁ := runOnBlock_quiet hQ hmf hB ha hr hkeep
          rcases ih hloop D.bookkeeping hQ₁ with ⟨hQf, hall⟩ | h
          · refine .inl ⟨hQf, fun c hc => ?_⟩
            rw [ha, List.mem_cons] at hc
            obtain ⟨o, -, hao, -⟩ := D.ending
            rcases hc with rfl | hc
            · exact hkeep
            · exact hall c (by rw [hao]; exact List.mem_append_right _ hc)
          · exact .inr h
        · refine .inr ⟨mbb, hmem, hkeep, ?_⟩
          obtain ⟨o, ho, -, -⟩ := D.ending
          have hi : st.instrs mbb = (mf.blocks mbb).instrs := by
            rw [PassState.instrs, hQ.blocks mbb (hmf.fresh mbb hmem)]
          rw [hQ.getFallThrough hmf hB ha, hi] at ho
          rw [Walk.frozen_walked hB ha D (walk_of_blockLoop hloop D.bookkeeping)]
          exact lea_mem_of_ending ho hkeep

theorem quiet_start : Quiet mf (start mf) where
  lanes := rfl
  blocks _ _ := rfl
  nextMBB := Nat.le_refl _
  new _ hn hb := absurd hb (Nat.not_lt.mpr hn)
  after := List.suffix_refl _

end

/-! ## The set of reserved registers -/

theorem r15_not_reserved {q : FrameInfo} {R : List Reg} (h : getReservedRegs q = some R)
    (h64 : q.is64Bit) : .r64 .r15 ∉ R := by
  unfold getReservedRegs at h
  split at h
  · cases h
  · cases h
    rw [h64]
    simp [subRegs, basePtr, h64]

section

variable {σ O : Type} {dummyInstr : Bool} {mf : MachineFunction} {P Q : Program σ}
  {fin : PassState} {entry c d n : Nat} {s₀ s : State σ} {es : List (Event σ)}

/-- Control is in a block of the function, before an instruction of it or at its end. -/
def Within (P : Program σ) : Cfg σ → Prop
  | .run c is _ => c ∈ P.mf.layout ∧ is <:+ P.instrs c
  | _ => True

/-- Control is at the end of a block, and R15 does not hold the address of the next. -/
def Strays (P : Program σ) : Cfg σ → Prop
  | .run c [] s => ∃ d, P.mf.layoutSucc c = some d ∧ s.gpr .r15 ≠ P.addr d
  | _ => False

theorem Strays.at_end {t : Cfg σ} (h : Strays P t) :
    ∃ c s d, t = .run c [] s ∧ P.mf.layoutSucc c = some d ∧ s.gpr .r15 ≠ P.addr d := by
  cases t with
  | run c is s =>
    cases is with
    | nil =>
      obtain ⟨d, hd, hne⟩ := h
      exact ⟨c, s, d, rfl, hd, hne⟩
    | cons => cases h
  | start => cases h
  | done => cases h

namespace Follows

variable (C : Follows dummyInstr mf P Q fin entry) (hQ : Quiet mf fin)
include C

theorem quiet_instrs (hQ : Quiet mf fin) (hc : c ∈ mf.layout) : Q.instrs c = P.instrs c := by
  rw [C.placed.instrs (C.mem_before hc), PassState.instrs, hQ.blocks c (C.wellFormed.fresh c hc),
    Program.instrs, C.input]

/-- The fake block behind a block that is not the last. -/
theorem fakeAfter (hd : P.mf.layoutSucc c = some d) : ∃ f, FakeAfter fin c f := by
  rw [C.input] at hd
  refine C.walk.exists_fakeAfter (c := c) (mem_left_of_nextOf hd) (.inl ?_)
  rw [show nextOf (start mf).after c = some d from hd]
  exact Option.some_ne_none d

theorem front_not_mem : fin.nextMBB ∉ mf.layout := fun h =>
  absurd (C.wellFormed.fresh _ h) (Nat.not_lt.mpr C.walk.nextMBB_le)

include hQ

/-- Where the pass has left all blocks as they are the output makes the steps of the input,
but where control strays. -/
theorem quiet_step {obs : Event σ → Option O} (hexec : ∀ c i s, obs (.exec c i s) = none)
    (henter : ∀ c s, c ∉ mf.layout → obs (.enter c s) = none) (hx : SuccsExact P s₀)
    {t t' : Cfg σ} {ev : List (Event σ)} (hreach : P.system.StepsIn n (.start s₀) es t)
    (hin : Within P t) (hs : ¬ Strays P t) (hstep : P.system.step t = some (ev, t')) :
    Q.system.Shows obs t (ev.filterMap obs) t' ∧ Within P t' := by
  have hmem (b : Nat) (hb : b ∈ mf.layout) (s : State σ) : Within P (.run b (P.instrs b) s) :=
    ⟨C.input ▸ hb, List.suffix_refl _⟩
  have hrun := hstep
  match t with
  | .start s =>
    obtain ⟨l, hl⟩ := List.head?_eq_some_iff.mp C.head
    have hentry : entry ∈ mf.layout := by simp [hl]
    simp only [Program.system, Program.step, C.input, hl] at hstep
    obtain ⟨rfl, rfl⟩ := Prod.mk.inj (Option.some.inj hstep)
    refine ⟨?_, hmem entry hentry s⟩
    rw [← C.quiet_instrs hQ hentry]
    refine ((C.placed.run_start s).trans (Q.stepsIn_goto (exec_jmp4 Q s entry))).shows ?_
    rw [List.singleton_append, List.filterMap_cons_none (henter _ _ C.front_not_mem),
      List.filterMap_cons_none (hexec ..)]
  | .run c [] s =>
    simp only [Program.system, Program.step] at hstep
    split at hstep
    · rename_i d hd
      obtain ⟨rfl, rfl⟩ := Prod.mk.inj (Option.some.inj hstep)
      have hdl : d ∈ mf.layout := C.input ▸ mem_of_nextOf hd
      have hr15 : s.gpr .r15 = Q.addr d := by
        by_contra hne
        exact hs ⟨d, hd, C.addr ▸ hne⟩
      obtain ⟨f, hf⟩ := C.fakeAfter hd
      refine ⟨?_, hmem d hdl s⟩
      rw [← C.quiet_instrs hQ hdl]
      refine (C.placed.run_fake hf (C.genuine hdl) hr15).shows ?_
      have hfl : f ∉ mf.layout := fun h => hf.2.2 (C.walk.mem_processedMBBs h)
      rw [List.filterMap_cons_none (henter _ _ hfl), List.filterMap_cons_none (hexec ..)]
    · obtain ⟨rfl, rfl⟩ := Prod.mk.inj (Option.some.inj hstep)
      rcases (hx _ _ _ _ _ hreach _ _ hrun).2 _ _ _ rfl with h | h | h <;> cases h
  | .run c (i :: is) s =>
    obtain ⟨hc, hsuf⟩ := hin
    rw [C.input] at hc
    have hi : i ∈ (mf.blocks c).instrs := by
      have := hsuf.subset (List.mem_cons_self ..)
      rwa [Program.instrs, C.input] at this
    simp only [Program.system, Program.step] at hstep
    rcases C.exec_eq hc hi s with ⟨w, hw⟩ | ⟨heq, hgoto⟩
    · rw [hw] at hstep
      obtain ⟨rfl, rfl⟩ := Prod.mk.inj (Option.some.inj hstep)
      rcases (hx _ _ _ _ _ hreach _ _ hrun).2 _ _ _ rfl with h | h | h <;> cases h
    · cases he : P.exec i s with
      | next s₁ =>
        rw [he] at hstep heq
        obtain ⟨rfl, rfl⟩ := Prod.mk.inj (Option.some.inj hstep)
        exact ⟨(Q.stepsIn_next heq).shows rfl, C.input ▸ hc, (List.suffix_cons i is).trans hsuf⟩
      | goto d s₁ =>
        rw [he] at hstep heq
        obtain ⟨rfl, rfl⟩ := Prod.mk.inj (Option.some.inj hstep)
        have hdl := hgoto d s₁ he
        refine ⟨?_, hmem d hdl s₁⟩
        rw [← C.quiet_instrs hQ hdl]
        exact (Q.stepsIn_goto heq).shows rfl
      | exit o s₁ =>
        rw [he] at hstep heq
        obtain ⟨rfl, rfl⟩ := Prod.mk.inj (Option.some.inj hstep)
        exact ⟨(Q.stepsIn_exit heq).shows rfl, trivial⟩
  | .done .. => cases hstep

/-- Behind a run that does not stray the output enters the blocks that the input enters. -/
theorem quiet_same {obs : Event σ → Option O} (hexec : ∀ c i s, obs (.exec c i s) = none)
    (henter : ∀ c s, c ∉ mf.layout → obs (.enter c s) = none) (hx : SuccsExact P s₀)
    (hs : ∀ n es t, P.system.StepsIn n (.start s₀) es t → ¬ Strays P t) :
    SameBehaviour P.system Q.system obs obs id id (.start s₀) (.start s₀) := by
  refine Simulation.same (R := fun t t' => (∃ n es, P.system.StepsIn n (.start s₀) es t) ∧
    t' = t ∧ Within P t) ⟨?_, ?_⟩ ⟨⟨0, [], .refl _⟩, rfl, trivial⟩
  · rintro t t₁ t' ev ⟨⟨n, es, hreach⟩, rfl, hin⟩ hstep
    obtain ⟨hshow, hin₁⟩ :=
      C.quiet_step hQ hexec henter hx hreach hin (hs _ _ _ hreach) hstep
    exact ⟨t₁, hshow, ⟨_, _, hreach.trans (.one hstep)⟩, rfl, hin₁⟩
  · rintro _ t ⟨-, rfl, -⟩ hstep
    refine ⟨0, [], t, .refl t, ?_, rfl, rfl⟩
    match t with
    | .start s =>
      obtain ⟨l, hl⟩ := List.head?_eq_some_iff.mp C.head
      simp only [Program.system, Program.step, C.input, hl] at hstep
      cases hstep
    | .run c is s => exact absurd hstep (P.step_run_ne_none _ _ _)
    | .done .. => rfl

/-- Control that strays does not come to the next block. -/
theorem stray_ne {R : List Reg} (hd : P.mf.layoutSucc c = some d) (hr : s.gpr .r15 ≠ P.addr d)
    {o : Nat × (GPR → Option (BitVec 64)) × EFlags × σ}
    (h : Q.system.Emits (unreserved R mf) (.run c [] s) [o]) : o.1 ≠ d := by
  have henter {b : Nat} (hb : b ∉ mf.layout) (s : State σ) :
      unreserved R mf (.enter b s) = none := if_neg hb
  have hexec (b : Nat) (i : MachineInstr) (s : State σ) : unreserved R mf (.exec b i s) = none := rfl
  have lands {g b : Nat} {i : MachineInstr} {t t' : Cfg σ} (hb : b ∈ mf.layout) (hbd : b ≠ d)
      (hg : Q.system.StepsIn 1 t [.exec g i s, .enter b s] t')
      (h : Q.system.Emits (unreserved R mf) t [o]) : o.1 ≠ d := by
    have hobs : unreserved R mf (.enter b s) = some (b, _) := if_pos hb
    have hseen := List.filterMap_cons_some (l := []) hobs
    rw [h.cons_eq ⟨1, _, _, hg, by rw [List.filterMap_cons_none (hexec ..), hseen]⟩]
    exact hbd
  obtain ⟨f, hf⟩ := C.fakeAfter hd
  have hfl : f ∉ mf.layout := fun h => hf.2.2 (C.walk.mem_processedMBBs h)
  have hfall := Q.stepsIn_fall (C.placed.layoutSucc hf.1) (s := s)
  rw [C.placed.instrs (mem_of_nextOf hf.1), hf.2.1] at hfall
  rw [hfall.emits_iff_of_unseen (by rw [List.filterMap_cons_none (henter hfl s)]; rfl)] at h
  have hjump : Q.exec jmp64r s = Q.jumpTo (s.gpr .r15) s := exec_jmp64r Q s
  rw [Program.jumpTo] at hjump
  cases hfind : Q.mf.layout.find? (fun b => Q.addr b == s.gpr .r15) with
  | none =>
    rw [hfind] at hjump
    have hexit : Q.system.StepsIn 1 (.run f [jmp64r] s) [.exec f jmp64r s] (.done f _ s) :=
      Q.stepsIn_exit hjump
    rw [hexit.emits_iff_of_unseen rfl] at h
    cases h.of_halted rfl
  | some b =>
    rw [hfind] at hjump
    have hgoto (e : Nat) : Q.system.StepsIn 1 (.run e [jmp64r] s) [.exec e jmp64r s, .enter b s]
        (.run b (Q.instrs b) s) := Q.stepsIn_goto hjump
    have hb : Q.addr b = s.gpr .r15 := by simpa using List.find?_some hfind
    have hbl := List.mem_of_find?_eq_some hfind
    rw [C.placed.layout, List.mem_cons] at hbl
    by_cases hbm : b ∈ mf.layout
    · refine lands hbm ?_ (hgoto f) h
      rintro rfl
      exact hr (hb.symm.trans (congrFun C.addr b))
    · have hunseen : ([.exec f jmp64r s, .enter b s] : List (Event σ)).filterMap
          (unreserved R mf) = [] := by
        rw [List.filterMap_cons_none (hexec ..), List.filterMap_cons_none (henter hbm s)]
        rfl
      rcases hbl with rfl | hbl
      · rw [(hgoto f).emits_iff_of_unseen hunseen, C.placed.instrs_front] at h
        obtain ⟨l, hl⟩ := List.head?_eq_some_iff.mp C.head
        refine lands (by simp [hl]) ?_ (Q.stepsIn_goto (exec_jmp4 Q s entry)) h
        rintro rfl
        exact nextOf_ne_head C.wellFormed.nodup C.head (C.input ▸ hd)
      · have hi : Q.instrs b = [jmp64r] := by
          rw [C.placed.instrs hbl]
          exact hQ.new b ((C.walk.mem_layout hbl).resolve_left hbm) (C.placed.lt_of_mem hbl)
        rw [(hgoto f).emits_iff_of_unseen hunseen] at h
        have hcycle := hgoto b
        rw [hi] at h hcycle
        cases h.of_cycle Nat.one_pos hcycle (by
          rw [List.filterMap_cons_none (hexec ..), List.filterMap_cons_none (henter hbm s)]
          rfl)

/-- So the registers are kept exactly in a run that does not stray. -/
theorem quiet_emits_iff {R : List Reg} (hx : SuccsExact P s₀) :
    (∀ os, P.system.Emits (unreserved R mf) (.start s₀) os ↔
      Q.system.Emits (unreserved R mf) (.start s₀) os) ↔
    ∀ n es t, P.system.StepsIn n (.start s₀) es t → ¬ Strays P t := by
  have hexec (c : Nat) (i : MachineInstr) (s : State σ) : unreserved R mf (.exec c i s) = none := rfl
  have henter (c : Nat) (s : State σ) (hc : c ∉ mf.layout) :
      unreserved R mf (.enter c s) = none := if_neg hc
  refine ⟨fun hk n es t hrun hs => ?_, fun h => (C.quiet_same hQ hexec henter hx h).1⟩
  obtain ⟨k, es', t₁, m, fs, t', h₁, hbad, h₂, hseen, -, rfl, -⟩ := hrun.matched_until
    (R := fun t t' => (∃ n es, P.system.StepsIn n (.start s₀) es t) ∧ t' = t ∧ Within P t)
    (fun {t t₁ t' ev} hR hs hstep => by
      obtain ⟨⟨n, es, hreach⟩, rfl, hin⟩ := hR
      obtain ⟨hshow, hin₁⟩ := C.quiet_step hQ hexec henter hx hreach hin hs hstep
      exact ⟨t₁, hshow, ⟨_, _, hreach.trans (.one hstep)⟩, rfl, hin₁⟩)
    ⟨⟨0, [], .refl _⟩, rfl, trivial⟩ hs
  obtain ⟨c, s, d, rfl, hd, hne⟩ := hbad.at_end
  obtain ⟨o, hobs, ho⟩ : ∃ o, unreserved R mf (.enter d s) = some o ∧ o.1 = d :=
    ⟨_, if_pos (C.input ▸ mem_of_nextOf hd), rfl⟩
  have hin : P.system.Emits (unreserved R mf) (.start s₀) (es'.filterMap (unreserved R mf) ++ [o]) :=
    (h₁.emits_iff [o]).mpr ⟨1, _, _, P.stepsIn_fall hd, by rw [List.filterMap_cons_some hobs]; rfl⟩
  rw [hk, ← hseen, h₂.emits_iff] at hin
  exact C.stray_ne hQ hd hne hin ho

end Follows

end

/-- A block whose end is kept ends where control leaves it, or does not come back. -/
theorem leaves_of_keepsEnd {mf : MachineFunction} {c : Nat} (hs : BlockShape mf c)
    (hne : (mf.blocks c).instrs ≠ []) (hk : KeepsEnd mf c) :
    ∃ i, (mf.blocks c).instrs.getLast? = some i ∧
      (IsIndirectJump i ∨ IsReturn i ∨
        ∀ n, mf.layoutSucc c = some n → n ∉ (mf.blocks c).succs) := by
  cases hs with
  | branches pre jccs jmp hi _ hjccs hjmp hnone =>
    cases jmp with
    | some j =>
      have := (hk j (by simp [hi])).1
      rw [(hjmp j rfl).unconditional] at this
      cases this
    | none =>
      obtain ⟨l, j, hl⟩ := List.eq_nil_or_concat jccs |>.resolve_left (hnone rfl).1
      have := (hk j (by simp [hi, hl])).2.1
      rw [(hjccs j (by simp [hl])).conditional] at this
      cases this
  | indirect pre i hi _ hmi => exact ⟨i, by simp [hi], .inl hmi⟩
  | ret pre i hi _ hmi => exact ⟨i, by simp [hi], .inr (.inl hmi)⟩
  | noReturn pre i hi _ _ _ hns => exact ⟨i, by simp [hi], .inr (.inr hns)⟩
  | fall n hall hn hsucc =>
    obtain ⟨l, j, hl⟩ := List.eq_nil_or_concat _ |>.resolve_left hne
    have hlast : (mf.blocks c).instrs.getLast? = some j := by simp [hl]
    have hj := hall j (List.mem_of_getLast? hlast)
    rcases (hk j hlast).2.2 with h | h
    · rw [hj.isIndirectBranch] at h
      cases h
    · rw [getFallThrough_of_no_terminator hn hsucc fun i hi => (hall i hi).isTerminator] at h
      cases h

section

variable {σ : Type} {P : Program σ} {s₀ s s₁ : State σ} {c : Nat} {i : MachineInstr}

/-- Behind a block whose end is kept control does not come. -/
theorem exec_ne_next (h : IsIndirectJump i ∨ IsReturn i) : P.exec i s ≠ .next s₁ := by
  have hjump (w : BitVec 64) : P.jumpTo w s ≠ .next s₁ := by
    unfold Program.jumpTo
    split <;> exact fun h => by cases h
  rcases h with (⟨ho, g, hg⟩ | ⟨ho, -⟩) | h
  · simp only [Program.exec, ho, hg]
    exact hjump _
  · simp only [Program.exec, ho]
    exact hjump _
  · obtain ⟨o, h, -⟩ := exec_of_isReturn P h s
    rw [h]
    simp

/-- Control is in a block of the function, before an instruction of it. -/
def Inside (P : Program σ) : Cfg σ → Prop
  | .run c is _ => c ∈ P.mf.layout ∧ is ≠ [] ∧ is <:+ P.instrs c
  | _ => True

variable (hmf : Convertible P.mf) (hk : ∀ c ∈ P.mf.layout, KeepsEnd P.mf c)
  (hx : SuccsExact P s₀)
include hmf hk hx

theorem Inside.step {n : Nat} {es ev : List (Event σ)} {t t' : Cfg σ}
    (hreach : P.system.StepsIn n (.start s₀) es t) (h : Inside P t)
    (hstep : P.system.step t = some (ev, t')) : Inside P t' := by
  have henter : ∀ d ∈ P.mf.layout, ∀ s, Inside P (.run d (P.instrs d) s) := fun d hd _ =>
    ⟨hd, hmf.nonempty d hd, List.suffix_refl _⟩
  match t with
  | .start s =>
    simp only [Program.system, Program.step] at hstep
    split at hstep
    · cases hstep
    · rename_i d l hl
      cases hstep
      exact henter d (by simp [hl]) s
  | .run c [] s => exact absurd rfl h.2.1
  | .run c (i :: is) s =>
    obtain ⟨hc, -, hs⟩ := h
    have hi : i ∈ (P.mf.blocks c).instrs := hs.subset (List.mem_cons_self ..)
    have hrun := hstep
    simp only [Program.system, Program.step] at hstep
    cases he : P.exec i s with
    | next s₁ =>
      rw [he] at hstep
      cases hstep
      refine ⟨hc, ?_, (List.suffix_cons i is).trans hs⟩
      rintro rfl
      obtain ⟨j, hj, hleave⟩ := leaves_of_keepsEnd (hmf.shape c hc) (hmf.nonempty c hc) (hk c hc)
      obtain ⟨pre, hpre⟩ := hs
      have hpre : pre ++ [i] = (P.mf.blocks c).instrs := hpre
      obtain rfl : i = j := by simpa [← hpre] using hj
      rw [← or_assoc] at hleave
      rcases hleave with hleave | hns
      · exact exec_ne_next hleave he
      · exact hx.not_falls (hreach.trans (.one hrun)) hns
    | goto d s₁ =>
      rw [he] at hstep
      cases hstep
      exact henter d (Program.mem_layout_of_exec_goto (hmf.targets c hc i hi) he) s₁
    | exit o s₁ =>
      rw [he] at hstep
      cases hstep
      exact trivial
  | .done .. => cases hstep

/-- Where all ends are kept no block is left by a fall-through. -/
theorem ne_end_of_keepsEnd {n : Nat} {es : List (Event σ)}
    (hreach : P.system.StepsIn n (.start s₀) es (.run c [] s)) : False := by
  have hinv := hreach.invariant
    (P := fun t => (∃ n es, P.system.StepsIn n (.start s₀) es t) ∧ Inside P t)
    (fun ⟨⟨_, _, h⟩, hin⟩ hstep =>
      ⟨⟨_, _, h.trans (.one hstep)⟩, Inside.step hmf hk hx h hin hstep⟩)
    ⟨⟨0, [], .refl _⟩, trivial⟩
  exact hinv.2.2.1 rfl

end

/-- In a function without empty blocks it is enough that all ends are kept. -/
theorem fallsToR15_of_keepsEnd {mf : MachineFunction} (out : MachineFunction)
    (hmf : Convertible mf) (hk : ∀ c ∈ mf.layout, KeepsEnd mf c) : FallsToR15 mf out :=
  fun _ _ _ _ _ _ hx _ _ _ _ _ hrun _ => (ne_end_of_keepsEnd hmf hk hx hrun).elim

/-! ## The registers that are written -/

variable {dummyInstr : Bool} {mf out : MachineFunction} {R : List Reg} {q : FrameInfo}

/-- What a function that is left as it is gets inserted writes no register. -/
theorem clobbersOnly_of_quiet {fin : PassState} {entry : Nat} (hmf : WellFormed mf)
    (W : Walk dummyInstr fin (start mf)) (hQ : Quiet mf fin) :
    ClobbersOnly R mf (addFrontBlock fin entry).mf := by
  intro b hb i hi r hr
  have hfresh := W.bookkeeping_fin.fresh
  have hfront : fin.nextMBB ∉ mf.layout := fun h =>
    absurd (hmf.fresh _ h) (Nat.not_lt.mpr W.nextMBB_le)
  rw [addFrontBlock_layout _ _ W.after_eq_nil, List.mem_cons] at hb
  rcases hb with rfl | hb
  · rw [insertedInstrs, if_neg hfront, addFrontBlock_front, List.mem_singleton] at hi
    rw [hi] at hr
    cases hr
  · rw [insertedInstrs, W.out_blocks entry hb] at hi
    split at hi
    · rename_i hmem
      rw [hQ.blocks b (hmf.fresh b hmem), dropCommon_self] at hi
      cases hi
    · rename_i hmem
      rcases W.mem_layout hb with h | h
      · exact absurd h hmem
      · rw [← PassState.instrs, hQ.new b h (hfresh b (by simp [hb])), List.mem_singleton] at hi
        rw [hi] at hr
        cases hr

/-- Where the pass has left all blocks as they are, the registers are kept exactly when R15
leads control over the fake blocks to where it fell in the input. -/
theorem keepsUnreserved_iff {fin : PassState} {entry : Nat} (hmf : WellFormed mf)
    (hentry : mf.layout.head? = some entry) (W : Walk dummyInstr fin (start mf))
    (hQ : Quiet mf fin) : KeepsUnreserved R mf (addFrontBlock fin entry).mf ↔
      FallsToR15 mf (addFrontBlock fin entry).mf := by
  refine forall_congr' fun hres => forall₄_congr fun σ T addr s => forall₂_congr fun haddr hx => ?_
  refine ((Follows.of_walk T .object hmf hentry W haddr).quiet_emits_iff hQ hx).trans ?_
  constructor
  · intro h n es c s' d hrun hd
    by_contra hne
    exact h n es _ hrun ⟨d, hd, hne⟩
  · intro h n es t hrun hs
    obtain ⟨c, s', d, rfl, hd, hne⟩ := hs.at_end
    exact hne (h n es c s' d hrun hd)

/-- The inserted instructions write only reserved registers, and so keep all others,
exactly when the pass keeps the ends of all blocks and no fall-through is lost. -/
theorem clobbersReserved_iff (hmf : WellFormed mf)
    (h : runOnMachineFunction dummyInstr mf = .ok out) (hR : getReservedRegs q = some R)
    (h64 : q.is64Bit) :
    (ClobbersOnly R mf out ∧ KeepsUnreserved R mf out) ↔
      (∀ c ∈ mf.layout, KeepsEnd mf c) ∧ FallsToR15 mf out := by
  obtain ⟨entry, fin, hentry, hfin, rfl⟩ := loop_of_run hmf h
  have hB := bookkeeping_start hmf.nodup hmf.fresh
  have W := walk_of_blockLoop hfin hB
  rcases quiet_or_lea hmf hfin hB quiet_start with ⟨hQ, hkeep⟩ | ⟨c, hc, hkeep, z, hz⟩
  · rw [keepsUnreserved_iff hmf hentry W hQ]
    exact ⟨fun h => ⟨hkeep, h.2⟩, fun h => ⟨clobbersOnly_of_quiet hmf W hQ, h.2⟩⟩
  · refine ⟨fun ⟨hclob, _⟩ => ?_, fun h => absurd (h.1 c hc) hkeep⟩
    have hb : c ∈ fin.before := W.mem_before_of_processed (W.mem_processedMBBs hc)
    have hi : lea .r15 z ∈ insertedInstrs mf (addFrontBlock fin entry).mf c := by
      rw [insertedInstrs, if_pos hc, W.out_blocks entry hb]
      exact hz
    have hmem : c ∈ (addFrontBlock fin entry).mf.layout := by
      rw [addFrontBlock_layout _ _ W.after_eq_nil]
      exact List.mem_cons_of_mem _ hb
    exact absurd (hclob c hmem _ hi (.r64 .r15) (List.mem_singleton_self _))
      (r15_not_reserved hR h64)

/-- A 64-bit function without a frame. -/
def frameless : FrameInfo where
  is64Bit := true
  hasFP := false
  hasBasePointer := false
  baseClobbered := false
  hasAVX512 := false

/-- An indirect jump, perhaps to an empty block, with the address of the block behind that
one in R15. -/
def throughEmpty : MachineFunction where
  layout := [0, 1, 2]
  blocks b :=
    if b = 0 then ⟨[lea .r15 2, ⟨.jmp64r, [.reg (.r64 .rax)]⟩], [1, 2], false⟩
    else if b = 1 then ⟨[], [2], false⟩
    else ⟨[⟨.retq, []⟩], [], false⟩
  nextMBB := 3

/-- Where control can be in a run of `throughEmpty`. -/
def AtThroughEmpty {σ : Type} (addr : Nat → BitVec 64) : Cfg σ → Prop
  | .run c is s => c = 0 ∧ is = [lea .r15 2, ⟨.jmp64r, [.reg (.r64 .rax)]⟩] ∨
      c = 2 ∧ is = [⟨.retq, []⟩] ∨ s.gpr .r15 = addr 2 ∧
        (c = 0 ∧ is = [⟨.jmp64r, [.reg (.r64 .rax)]⟩] ∨ c = 1 ∧ is = [])
  | _ => True

theorem throughEmpty_reaches {σ : Type} {T : Target σ} {addr : Nat → BitVec 64} {s : State σ}
    {n : Nat} {es : List (Event σ)} {t : Cfg σ}
    (h : (Program.system ⟨throughEmpty, T, addr, .object⟩).StepsIn n (.start s) es t) :
    AtThroughEmpty addr t := by
  refine h.invariant (P := AtThroughEmpty addr) (fun {t t' ev} ht hstep => ?_) trivial
  have henter (b : Nat) (hb : b ∈ [0, 1, 2]) (s : State σ) (hs : s.gpr .r15 = addr 2) :
      AtThroughEmpty addr (.run b (throughEmpty.blocks b).instrs s) := by
    simp only [List.mem_cons, List.not_mem_nil, or_false] at hb
    rcases hb with rfl | rfl | rfl
    · exact .inl ⟨rfl, rfl⟩
    · exact .inr (.inr ⟨hs, .inr ⟨rfl, rfl⟩⟩)
    · exact .inr (.inl ⟨rfl, rfl⟩)
  match t with
  | .start s =>
    cases hstep
    exact .inl ⟨rfl, rfl⟩
  | .run c is s =>
    rcases ht with ⟨rfl, rfl⟩ | ⟨rfl, rfl⟩ | ⟨hs, ⟨rfl, rfl⟩ | ⟨rfl, rfl⟩⟩
    · cases hstep
      exact .inr (.inr ⟨by simp, .inl ⟨rfl, rfl⟩⟩)
    · cases hstep
      exact trivial
    · simp only [Program.system, Program.step, Program.exec, MachineInstr.getOperand,
        List.getElem?_cons_zero, Program.jumpTo] at hstep
      cases hf : throughEmpty.layout.find? (fun b => addr b == s.gpr .rax) with
      | none =>
        rw [hf] at hstep
        cases hstep
        exact trivial
      | some b =>
        rw [hf] at hstep
        cases hstep
        exact henter b (List.mem_of_find?_eq_some hf) s hs
    · cases hstep
      exact henter 2 (by simp) s hs

/-- The conversion of `throughEmpty`, with a fake block behind each but the last, keeps all
registers. -/
theorem clobbersReserved_iff_throughEmpty :
    ∃ out R, runOnMachineFunction false throughEmpty = .ok out ∧
      getReservedRegs frameless = some R ∧
      ClobbersOnly R throughEmpty out ∧ KeepsUnreserved R throughEmpty out := by
  have hlayout : (runOnMachineFunction false throughEmpty).map (·.layout) = .ok [5, 0, 3, 1, 4, 2] := by
    decide
  cases hout : runOnMachineFunction false throughEmpty with
  | error e =>
    rw [hout] at hlayout
    cases hlayout
  | ok out =>
    cases hR : getReservedRegs frameless with
    | none => cases hR
    | some R =>
      have hmf : WellFormed throughEmpty := ⟨by decide, by decide, by decide, by decide, by decide⟩
      refine ⟨out, R, rfl, rfl, (clobbersReserved_iff hmf hout hR rfl).mpr ⟨fun c hc i hi => ?_, ?_⟩⟩
      · have hkeep : ∀ c ∈ throughEmpty.layout, ∀ i ∈ (throughEmpty.blocks c).instrs.getLast?,
            i.isUnconditionalBranch = false ∧ i.isConditionalBranch = false ∧
              (i.isIndirectBranch ∨ throughEmpty.getFallThrough c = none) := by decide
        exact hkeep c hc i hi
      · intro _ σ T addr s _ _ n es c s' d hrun hd
        rcases throughEmpty_reaches hrun with ⟨-, h⟩ | ⟨-, h⟩ | ⟨hs, ⟨-, h⟩ | ⟨rfl, -⟩⟩
        · cases h
        · cases h
        · cases h
        · cases hd
          exact hs

/-- The conversion of `selfLoop` writes R15, which is not reserved. -/
theorem selfLoop_not_clobbersOnly :
    ∃ out R, runOnMachineFunction false selfLoop = .ok out ∧ getReservedRegs frameless = some R ∧
      ¬ ClobbersOnly R selfLoop out := by
  have hlea : ((runOnMachineFunction false selfLoop).map fun out =>
      decide (0 ∈ out.layout) && (insertedInstrs selfLoop out 0).any
        fun i => decide (.r64 .r15 ∈ encodedDefs i)) = .ok true := by decide
  cases hout : runOnMachineFunction false selfLoop with
  | error e =>
    rw [hout] at hlea
    cases hlea
  | ok out =>
    rw [hout] at hlea
    have hlea := Except.ok.inj hlea
    beta_reduce at hlea
    simp only [Bool.and_eq_true, decide_eq_true_eq, List.any_eq_true] at hlea
    obtain ⟨hmem, i, hi, hr⟩ := hlea
    cases hR : getReservedRegs frameless with
    | none => cases hR
    | some R =>
      exact ⟨out, R, rfl, rfl, fun h => r15_not_reserved hR rfl (h 0 hmem i hi _ hr)⟩

end BS.BranchConversion
