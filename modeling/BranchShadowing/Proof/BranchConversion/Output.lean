import BranchShadowing.Proof.BranchConversion.Walk
import BranchShadowing.Spec.BranchConversion

/-!
# The blocks of the output

What a walk leaves in each block, whatever it is given: a block of the input has
its end rewritten (`Walk.rewritten`), a block split off holds one LEA
(`Walk.splitOff`), every other new block only what the pass inserts
(`Walk.made`). From the entry on, each block has its fake block behind it
(`Walk.fakes`), and no others stand between them (`Walk.woven`).
-/

namespace BS.BranchConversion

open X86 PassState

variable {dummyInstr : Bool} {st fin : PassState} {n c : Nat}

/-- The instructions of a block before and after its end was replaced, by
whatever trampolines. -/
def Rewritten (is is' : List MachineInstr) : Prop :=
  ∃ ft instrs o, Ending (fun _ => True) (fun _ _ => True) ft instrs is is' o

theorem rewritten_jump {mi : MachineInstr} {is : List MachineInstr} (h : Rewritten [mi] is)
    (hu : mi.isUnconditionalBranch) : ∃ z, is = [lea targetRegOpcode z] := by
  obtain ⟨ft, instrs, o, h⟩ := h
  generalize his : [mi] = old at h
  cases h with
  | empty => cases his
  | leave hu' =>
    rw [(Walk.singleton_eq_append his).2, hu] at hu'
    cases hu'
  | fall hu' =>
    rw [(Walk.singleton_eq_append his).2, hu] at hu'
    cases hu'
  | jump =>
    rw [(Walk.singleton_eq_append his).1]
    exact ⟨_, rfl⟩
  | cond ho =>
    rw [(Walk.singleton_eq_append his).2] at ho
    simp [MachineInstr.isUnconditionalBranch, MachineInstr.isBarrier, Opcode.desc, ho] at hu
  | split =>
    have := congrArg List.length his
    simp at this

/-- The blocks left to walk from number `n` on were split off: each holds one jump. -/
def Moved (n : Nat) (st : PassState) : Prop :=
  ∀ c ∈ st.after, n ≤ c → ∃ mi, st.instrs c = [mi] ∧ mi.isUnconditionalBranch

/-- No jump left to walk returns. -/
def JumpsStay (st : PassState) : Prop :=
  ∀ c ∈ st.after, ∀ i ∈ st.instrs c, i.isUnconditionalBranch → i.isReturn = false

section

variable {st' : PassState} {mbb : Nat} {rest : List Nat} {ft fakeBlock : Option Nat}
  (D : BlockDone dummyInstr st mbb rest ft fakeBlock st') (hB : Bookkeeping st)
  (ha : st.after = mbb :: rest)
include D hB ha

/-- A block still to walk after an iteration was there before, or has been split
off and holds the jump. -/
theorem BlockDone.mem_after (hc : c ∈ st'.after) :
    c ∈ rest ∧ st'.instrs c = st.instrs c ∧ st'.blocks c = st.blocks c ∨
      st.nextMBB ≤ c ∧ ∃ mi d, (st.instrs mbb).getLast? = some mi ∧ mi.isUnconditionalBranch ∧
        st'.instrs c = [⟨mi.opcode, [.mbb d]⟩] := by
  obtain ⟨o, ho, hao, hN⟩ := D.ending
  rw [hao] at hc
  rcases List.mem_append.mp hc with h | h
  · have hco := Option.mem_toList.mp h
    refine .inr ⟨(hN c hco).1, ?_⟩
    generalize st.instrs mbb = is at ho ⊢
    generalize st'.instrs mbb = is' at ho
    cases ho with
    | split _ _ hu _ _ _ hNi =>
      cases hco
      exact ⟨_, _, by simp, hu, hNi⟩
    | _ => cases hco
  · have hmem : c ∈ st.after := by simp [ha, h]
    have hne : c ≠ mbb := by
      rintro rfl
      have := (List.nodup_append.mp hB.nodup).2.1
      rw [ha, List.nodup_cons] at this
      exact this.1 h
    exact .inl ⟨h, D.instrs_rest hB ha h,
      D.blocks c (hB.fresh c (by simp [hmem])) hne (hB.not_current hmem)⟩

theorem BlockDone.moved (h : Moved n st) : Moved n st' := by
  intro c hc hnc
  rcases D.mem_after hB ha hc with ⟨hr, hi, -⟩ | ⟨-, mi, d, -, hu, hi⟩
  · rw [hi]
    exact h c (by simp [ha, hr]) hnc
  · exact ⟨_, hi, hu⟩

theorem BlockDone.jumpsStay (h : JumpsStay st) : JumpsStay st' := by
  intro c hc i hi hu
  rcases D.mem_after hB ha hc with ⟨hr, hi', -⟩ | ⟨-, mi, d, hmi, hu', hi'⟩
  · exact h c (by simp [ha, hr]) i (hi' ▸ hi) hu
  · rw [hi', List.mem_singleton] at hi
    subst hi
    exact h mbb (by simp [ha]) mi (List.mem_of_getLast? hmi) hu'

end

/-- The blocks that an iteration creates are filled with inserted instructions; the
block it splits off is still to be walked. -/
theorem BlockDone.made {st' : PassState} {mbb : Nat} {rest : List Nat} {ft fakeBlock : Option Nat}
    (D : BlockDone dummyInstr st mbb rest ft fakeBlock st') (ha : st.after = mbb :: rest)
    (hM : Made n st.after st) : Made n (mbb :: st'.after) st' := by
  obtain ⟨o, -, hao, -⟩ := D.ending
  have hkept : ∀ b, b ∉ mbb :: st'.after → b ∉ st.after := fun b hb h => by
    rw [hao, List.mem_cons, List.mem_append, not_or, not_or] at hb
    rw [ha, List.mem_cons] at h
    exact h.elim hb.1 hb.2.2
  refine made_iff_filled.mpr (D.filled _ _ (fun _ => True) trivial (fun _ _ => trivial) ?_
    fun b hb hK => made_iff_filled.mp hM b hb ⟨hK.1, hkept b hK.2⟩)
  exact
    { Inserted.fits with
      targets := fun _ _ _ _ => trivial
      moves := fun hK => absurd (List.mem_cons_self ..) hK.2
      splitOff := fun N hN hK => absurd (List.mem_cons_of_mem _ hN) hK.2 }

namespace Walk

variable {st' : PassState}

theorem rewritten (W : Walk dummyInstr fin st) (hc : c ∈ st.after) :
    Rewritten (st.instrs c) (fin.instrs c) := by
  induction W with
  | done _ hnil =>
    rw [hnil] at hc
    cases hc
  | @block st st' mbb rest fakeBlock hB ha D W ih =>
    by_cases hcm : c = mbb
    · subst hcm
      obtain ⟨o, ho, -, -⟩ := D.ending
      rw [frozen_walked hB ha D W]
      exact ⟨_, _, o, ho.mono (fun _ _ => trivial) (fun _ _ _ => trivial) fun _ _ => rfl⟩
    · have hr : c ∈ rest := by simpa [ha, hcm] using hc
      obtain ⟨o, -, hao, -⟩ := D.ending
      rw [← D.instrs_rest hB ha hr]
      exact ih (by rw [hao]; exact List.mem_append_right _ hr)

/-- In the end the blocks that are new hold only what the pass inserts. -/
theorem made (W : Walk dummyInstr fin st) (hn : n ≤ st.nextMBB) (hM : Made n st.after st)
    (hmv : Moved n st) : Made n [] fin := by
  induction W with
  | done _ hnil => exact hnil ▸ hM
  | @block st st' mbb rest fakeBlock hB ha D W ih =>
    refine ih (Nat.le_trans hn D.nextMBB) (fun b hnb hb hba i hi => ?_) (D.moved hB ha hmv)
    by_cases hbm : b = mbb
    · subst hbm
      obtain ⟨mi, hmi, hu⟩ := hmv b (by simp [ha]) hnb
      have hrw := (Walk.block hB ha D W).rewritten (c := b) (by simp [ha])
      rw [hmi, frozen_walked hB ha D W] at hrw
      obtain ⟨z, hz⟩ := rewritten_jump hrw hu
      rw [hz, List.mem_singleton] at hi
      exact hi ▸ .leaTarget z
    · exact D.made ha hM b hnb hb (by simp [hbm, hba]) i hi

/-- A block that was split off. -/
theorem splitOff (W : Walk dummyInstr fin st) (hc : c ∈ fin.processedMBBs)
    (hcp : c ∉ st.processedMBBs) (hca : c ∉ st.after) :
    st.nextMBB ≤ c ∧ ∃ z, fin.instrs c = [lea targetRegOpcode z] := by
  induction W with
  | done => exact absurd hc hcp
  | @block st st' mbb rest fakeBlock hB ha D W ih =>
    rw [ha, List.mem_cons, not_or] at hca
    by_cases hc' : c ∈ st'.after
    · rcases D.mem_after hB ha hc' with ⟨hr, -⟩ | ⟨hn, mi, d, -, hu, hi⟩
      · exact absurd hr hca.2
      · refine ⟨hn, rewritten_jump ?_ (show (⟨mi.opcode, [.mbb d]⟩ : MachineInstr).isUnconditionalBranch from hu)⟩
        exact hi ▸ W.rewritten hc'
    · obtain ⟨hn, h⟩ := ih (by simp [D.processedMBBs, hcp, hca.1]) hc'
      exact ⟨Nat.le_trans D.nextMBB hn, h⟩

/-- A last block that returns is left as it is. -/
theorem instrs_of_noFake (hB : Bookkeeping st) (ha : st.after = [c])
    (D : BlockDone dummyInstr st c [] ((advance st c []).mf.getFallThrough c) none st')
    (W : Walk dummyInstr fin st') (hj : JumpsStay st) (hret : (st.blocks c).isReturnBlock) :
    fin.instrs c = st.instrs c := by
  have hlast {i : MachineInstr} (h : (st.instrs c).getLast? = some i) : i.isReturn := by
    have h' : (st.blocks c).instrs.getLast? = some i := h
    rwa [MachineBasicBlock.isReturnBlock, h', Option.any_some] at hret
  have hnone : (advance st c []).mf.getFallThrough c = none := by
    by_contra hne
    obtain ⟨n, hn⟩ := Option.ne_none_iff_exists'.mp hne
    have := (BlockDone.layoutSucc_advance hB ha).symm.trans (getFallThrough_some hn).1
    cases this
  have hjump {i : MachineInstr} (h : (st.instrs c).getLast? = some i)
      (hu : i.isUnconditionalBranch) : False := by
    have := hj c (by simp [ha]) i (List.mem_of_getLast? h) hu
    rw [hlast h] at this
    cases this
  obtain ⟨o, ho, -, -⟩ := D.ending
  rw [frozen_walked hB ha D W]
  generalize st.instrs c = is at ho hlast hjump ⊢
  generalize st'.instrs c = is' at ho
  cases ho with
  | empty => rfl
  | leave => rfl
  | fall _ _ _ h =>
    rw [hnone] at h
    cases h
  | @jump _ mi _ _ hu => exact (hjump (i := mi) (by simp) hu).elim
  | @cond _ mi _ _ _ _ ho =>
    have := hlast (i := mi) (by simp)
    simp [MachineInstr.isReturn, ho, Opcode.desc] at this
  | @split _ _ mi _ _ _ _ _ _ _ _ hu => exact (hjump (i := mi) (by simp) hu).elim

/-- From a last block that returns nothing is split off. -/
theorem after_eq_nil_of_noFake {ft : Option Nat} (hB : Bookkeeping st) (ha : st.after = [c])
    (D : BlockDone dummyInstr st c [] ft none st') (hj : JumpsStay st)
    (hret : (st.blocks c).isReturnBlock) : st'.after = [] := by
  by_contra hne
  obtain ⟨b, l, hl⟩ := List.exists_cons_of_ne_nil hne
  rcases D.mem_after hB ha (c := b) (by simp [hl]) with ⟨hr, -⟩ | ⟨-, mi, d, hmi, hu, -⟩
  · cases hr
  · have hl : (st.blocks c).instrs.getLast? = some mi := hmi
    rw [MachineBasicBlock.isReturnBlock, hl, Option.any_some,
      hj c (by simp [ha]) mi (List.mem_of_getLast? hl) hu] at hret
    cases hret

/-- It stays the last block. -/
theorem nextOf_of_noFake {ft : Option Nat} (hB : Bookkeeping st) (ha : st.after = [c])
    (D : BlockDone dummyInstr st c [] ft none st') (W : Walk dummyInstr fin st')
    (hj : JumpsStay st) (hret : (st.blocks c).isReturnBlock) : nextOf fin.before c = none := by
  have hnil := after_eq_nil_of_noFake hB ha D hj hret
  cases W with
  | done hB' _ =>
    obtain ⟨tr, hb, -⟩ := D.before
    have hb' : fin.before = (tr ++ st.before) ++ [c] := by simp [hb]
    rw [hb']
    refine nextOf_append_cons fun h => ?_
    have hnd := (List.nodup_append.mp hB'.nodup).1
    rw [hb'] at hnd
    exact (List.nodup_append.mp hnd).2.2 c h c (List.mem_singleton_self c) rfl
  | block _ ha' =>
    rw [hnil] at ha'
    cases ha'

/-- Behind every block walked stands its fake block; only a last block that returns
can be without one. -/
theorem fakes (W : Walk dummyInstr fin st) (hj : JumpsStay st) (hc : c ∈ fin.processedMBBs)
    (hcp : c ∉ st.processedMBBs) :
    (∃ f, FakeAfter fin c f ∧ st.nextMBB ≤ f) ∨
      c ∈ st.after ∧ nextOf fin.before c = none ∧ (st.blocks c).isReturnBlock ∧
        fin.instrs c = st.instrs c := by
  induction W with
  | done => exact absurd hc hcp
  | @block st st' mbb rest fakeBlock hB ha D W ih =>
    have hj' := D.jumpsStay hB ha hj
    by_cases hcm : c = mbb
    · subst hcm
      cases hf : fakeBlock with
      | some f => exact .inl ⟨f, fakeAfter hB ha D W hf, (D.fake f hf).1⟩
      | none =>
        obtain ⟨hrest, hret⟩ := D.noFake hf
        subst hf hrest
        exact .inr ⟨by simp [ha], nextOf_of_noFake hB ha D W hj hret, hret,
          instrs_of_noFake hB ha D W hj hret⟩
    · rcases ih hj' (by simp [D.processedMBBs, hcp, hcm]) with ⟨f, hf, hn⟩ | ⟨hc', hnone, hret, hsame⟩
      · exact .inl ⟨f, hf, Nat.le_trans D.nextMBB hn⟩
      · rcases D.mem_after hB ha hc' with ⟨hr, hi, hbl⟩ | ⟨-, mi, d, -, hu, hi⟩
        · exact .inr ⟨by simp [ha, hr], hnone, hbl ▸ hret, hsame.trans hi⟩
        · have hst := hj' c hc' ⟨mi.opcode, [.mbb d]⟩ (by simp [hi]) hu
          have hlast : (st'.blocks c).instrs.getLast? = some ⟨mi.opcode, [.mbb d]⟩ := by
            show (st'.instrs c).getLast? = _
            rw [hi]
            rfl
          rw [MachineBasicBlock.isReturnBlock, hlast, Option.any_some, hst] at hret
          cases hret

theorem mem_processedMBBs (W : Walk dummyInstr fin st) (hc : c ∈ st.after) :
    c ∈ fin.processedMBBs := by
  induction W with
  | done _ hnil =>
    rw [hnil] at hc
    cases hc
  | @block st st' mbb rest fakeBlock hB ha D W ih =>
    rw [ha, List.mem_cons] at hc
    rcases hc with rfl | hr
    · refine W.processedMBBs.subset ?_
      simp [D.processedMBBs]
    · obtain ⟨o, -, hao, -⟩ := D.ending
      exact ih (by rw [hao]; exact List.mem_append_right _ hr)

theorem mem_before_of_processed (W : Walk dummyInstr fin st) (hc : c ∈ fin.processedMBBs) :
    c ∈ fin.before := by
  obtain ⟨tr, code, hb, -, hcode⟩ := W.bookkeeping_fin.parts
  rw [hb]
  exact List.mem_append_right _ (hcode c hc)

/-- The walk comes to every block left. -/
theorem atBlock (W : Walk dummyInstr fin st) {pre rest : List Nat}
    (ha : st.after = pre ++ c :: rest) :
    ∃ st₁ st₂ fakeBlock, Bookkeeping st₁ ∧ st₁.after = c :: rest ∧
      BlockDone dummyInstr st₁ c rest ((advance st₁ c rest).mf.getFallThrough c) fakeBlock st₂ ∧
      Walk dummyInstr fin st₂ ∧ st.nextMBB ≤ st₁.nextMBB ∧
      (∀ b ∈ st.processedMBBs ++ pre, b ∈ st₁.processedMBBs) ∧
      ∀ b ∈ c :: rest, st₁.blocks b = st.blocks b := by
  induction W generalizing pre with
  | done _ hnil =>
    rw [hnil] at ha
    simp at ha
  | @block st st' mbb r fakeBlock hB har D W ih =>
    have ha' := har.symm.trans ha
    cases pre with
    | nil =>
      obtain ⟨rfl, rfl⟩ := List.cons_eq_cons.mp ha'
      exact ⟨st, st', fakeBlock, hB, har, D, W, Nat.le_refl _, by simp, fun _ _ => rfl⟩
    | cons x pre =>
      obtain ⟨rfl, rfl⟩ := List.cons_eq_cons.mp ha'
      obtain ⟨o, -, hao, -⟩ := D.ending
      obtain ⟨st₁, st₂, fb, hB₁, ha₁, D₁, W₁, hn, hp, hbl⟩ :=
        @ih (o.toList ++ pre) (by rw [hao, List.append_assoc, List.append_eq])
      refine ⟨st₁, st₂, fb, hB₁, ha₁, D₁, W₁, Nat.le_trans D.nextMBB hn, fun b hb => hp b ?_,
        fun b hb => ?_⟩
      · rw [D.processedMBBs]
        simp only [List.mem_append, List.mem_cons, List.not_mem_nil, or_false] at hb ⊢
        tauto
      · have hmem : b ∈ st.after := by
          rw [ha]
          exact List.mem_append_right _ hb
        have hne : b ≠ mbb := by
          rintro rfl
          have hnd := (List.nodup_append.mp hB.nodup).2.1
          rw [har, List.nodup_cons] at hnd
          exact hnd.1 (List.mem_append_right _ hb)
        rw [hbl b hb, D.blocks b (hB.fresh b (by simp [hmem])) hne (hB.not_current hmem)]

/-- Behind a block that is not the last, or does not return, stands a fake block. -/
theorem exists_fakeAfter (W : Walk dummyInstr fin st) (hc : c ∈ st.after)
    (h : nextOf st.after c ≠ none ∨ (st.blocks c).isReturnBlock = false) :
    ∃ f, FakeAfter fin c f := by
  obtain ⟨pre, rest, ha⟩ := List.append_of_mem hc
  obtain ⟨st₁, st₂, fakeBlock, hB, ha₁, D, W₂, -, -, hbl⟩ := W.atBlock ha
  cases hf : fakeBlock with
  | some f => exact ⟨f, fakeAfter hB ha₁ D W₂ hf⟩
  | none =>
    obtain ⟨hrest, hret⟩ := D.noFake hf
    rcases h with h | h
    · have hpre : c ∉ pre := fun hp => by
        have hnd := (List.nodup_append.mp W.bookkeeping.nodup).2.1
        rw [ha, List.nodup_append] at hnd
        exact hnd.2.2 c hp c (List.mem_cons_self ..) rfl
      rw [ha, nextOf_append_cons hpre, hrest] at h
      exact absurd rfl h
    · rw [hbl c (List.mem_cons_self ..), h] at hret
      cases hret

/-! The function that is returned differs from the end of the walk by its front
block. -/

theorem ne_front (W : Walk dummyInstr fin st) (hb : c ∈ fin.before) : c ≠ fin.nextMBB :=
  Nat.ne_of_lt (W.bookkeeping_fin.fresh c (List.mem_append_left _ hb))

theorem out_blocks (W : Walk dummyInstr fin st) (entry : Nat) (hb : c ∈ fin.before) :
    (addFrontBlock fin entry).mf.blocks c = fin.blocks c :=
  addFrontBlock_blocks _ _ (W.ne_front hb)

theorem out_layoutSucc (W : Walk dummyInstr fin st) (entry : Nat) (hb : c ∈ fin.before) :
    (addFrontBlock fin entry).mf.layoutSucc c = nextOf fin.before c := by
  rw [MachineFunction.layoutSucc, addFrontBlock_layout _ _ W.after_eq_nil, nextOf,
    if_neg (W.ne_front hb).symm]

/-- The layout: in front the trampolines, then what was laid out, then the blocks
walked, each with its fake block behind it. -/
theorem woven (W : Walk dummyInstr fin st) (hj : JumpsStay st) :
    ∃ tr cs fs, fin.before = tr ++ st.before ++ weave cs fs ∧ (∀ b ∈ tr, st.nextMBB ≤ b) ∧
      fin.processedMBBs = st.processedMBBs ++ cs ∧ fs.length ≤ cs.length ∧
      cs.length ≤ fs.length + 1 ∧
      ∀ f ∈ fs, st.nextMBB ≤ f ∧ fin.instrs f = [jmp64r] ∧ f ∉ fin.processedMBBs := by
  induction W with
  | done => exact ⟨[], [], [], by simp, by simp, by simp, by simp, by simp, by simp⟩
  | @block st st' mbb rest fakeBlock hB ha D W ih =>
    obtain ⟨tr, cs, fs, hb, htr, hp, hle, hle', hfs⟩ := ih (D.jumpsStay hB ha hj)
    obtain ⟨tr', hb', htr'⟩ := D.before
    have htrs : ∀ b ∈ tr ++ tr', st.nextMBB ≤ b := fun b hbm => by
      rcases List.mem_append.mp hbm with h | h
      · exact Nat.le_trans D.nextMBB (htr b h)
      · exact htr' b h
    have hp' : fin.processedMBBs = st.processedMBBs ++ mbb :: cs := by
      rw [hp, D.processedMBBs, List.append_assoc, List.singleton_append]
    cases hf : fakeBlock with
    | some f =>
      refine ⟨tr ++ tr', mbb :: cs, f :: fs, by simp [hb, hb', hf], htrs, hp',
        by simpa using hle, by simpa using hle', fun g hg => ?_⟩
      rcases List.mem_cons.mp hg with rfl | hg
      · obtain ⟨-, hi, hnp⟩ := fakeAfter hB ha D W hf
        exact ⟨(D.fake g hf).1, hi, hnp⟩
      · exact ⟨Nat.le_trans D.nextMBB (hfs g hg).1, (hfs g hg).2⟩
    | none =>
      obtain ⟨hrest, hret⟩ := D.noFake hf
      subst hf hrest
      have hnil := after_eq_nil_of_noFake hB ha D hj hret
      obtain rfl : cs = [] := by
        have := W.getElem?_length
        rw [hnil, hp, List.getElem?_append_right (Nat.le_refl _), Nat.sub_self] at this
        cases cs with
        | nil => rfl
        | cons => cases this
      obtain rfl : fs = [] := List.eq_nil_of_length_eq_zero (Nat.le_zero.mp hle)
      exact ⟨tr ++ tr', [mbb], [], by simp [hb, hb'], htrs, hp', by simp, by simp, by simp⟩

/-- The blocks of the layout: those that there were, and new ones. -/
theorem mem_layout (W : Walk dummyInstr fin st) {b : Nat} (hb : b ∈ fin.before) :
    b ∈ st.before ++ st.after ∨ st.nextMBB ≤ b := by
  induction W with
  | done => exact .inl (List.mem_append_left _ hb)
  | @block st st' mbb rest fakeBlock hB ha D W ih =>
    rcases ih with h | h
    · obtain ⟨tr, hb', htr⟩ := D.before
      rw [hb'] at h
      rcases List.mem_append.mp h with h | h
      · simp only [List.mem_append, List.mem_cons] at h
        rcases h with h | h | h | h
        · exact .inr (htr b h)
        · exact .inl (by simp [h])
        · exact .inl (by simp [h, ha])
        · exact .inr (D.fake b (Option.mem_toList.mp h)).1
      · rcases D.mem_after hB ha h with ⟨hr, -⟩ | ⟨hn, -⟩
        · exact .inl (by simp [ha, hr])
        · exact .inr hn
    · exact .inr (Nat.le_trans D.nextMBB h)

end Walk

theorem made_start {mf : MachineFunction} : Made mf.nextMBB (start mf).after (start mf) :=
  fun _ hn hb => absurd hb (Nat.not_lt.mpr hn)

theorem moved_start {mf : MachineFunction} (hmf : WellFormed mf) : Moved mf.nextMBB (start mf) :=
  fun c hc hn => absurd (hmf.fresh c hc) (Nat.not_lt.mpr hn)

theorem loop_of_run {mf out : MachineFunction} (hmf : WellFormed mf)
    (h : runOnMachineFunction dummyInstr mf = .ok out) :
    ∃ entry fin, mf.layout.head? = some entry ∧
      blockLoop dummyInstr (2 * mf.layout.length) (start mf) = .ok fin ∧
      out = (addFrontBlock fin entry).mf := by
  obtain ⟨entry, l, hl⟩ := List.exists_cons_of_ne_nil hmf.entry
  simp only [runOnMachineFunction, hl] at h
  rw [hl]
  cases hb : blockLoop dummyInstr (2 * (entry :: l).length) (start mf) with
  | error e =>
    rw [hb] at h
    cases h
  | ok fin =>
    rw [hb] at h
    cases h
    exact ⟨entry, fin, rfl, rfl, rfl⟩

/-- The walk behind a function that the pass returns. -/
theorem walk_of_run {mf out : MachineFunction} (hmf : WellFormed mf)
    (h : runOnMachineFunction dummyInstr mf = .ok out) :
    ∃ entry fin, mf.layout.head? = some entry ∧ Walk dummyInstr fin (start mf) ∧
      out = (addFrontBlock fin entry).mf := by
  obtain ⟨entry, fin, hentry, hfin, hout⟩ := loop_of_run hmf h
  exact ⟨entry, fin, hentry, walk_of_blockLoop hfin (bookkeeping_start hmf.nodup hmf.fresh), hout⟩

end BS.BranchConversion
