import BranchShadowing.Proof.BranchConversion.Output
import BranchShadowing.Proof.BranchConversion.Shape
import BranchShadowing.Spec.Iteration

/-!
# The lanes at the head of an iteration

`Kept` holds at every head (`Head.kept`): the books are in order, every live lane is open,
and of the trampolines in front each is that of a live lane or has its jump. So no lane is
left to skip a last block that returns, and none is left when the walk ends.
-/

namespace BS.BranchConversion

open X86 PassState

variable {dummyInstr : Bool} {mf : MachineFunction} {st st' : PassState} {mbb k : Nat}
  {rest : List Nat}

/-- In front of the blocks laid out so far stand the trampolines, those of the live lanes
and those that are finished. -/
def Fronted (st : PassState) : Prop :=
  ∃ tr code, st.before = tr ++ code ∧ code.head? = st.processedMBBs.head? ∧
    ∀ z ∈ tr, z ∈ currents st.takenBlocks ∨ OneJump (st.instrs z)

/-- What holds at the head of an iteration. -/
structure Kept (mf : MachineFunction) (st : PassState) : Prop where
  bookkeeping : Bookkeeping st
  targeted : Targeted st
  lanesOpen : LanesOpen st
  oneTaken : st.takenBlocks.countP BlockLane.taken ≤ 1
  fronted : Fronted st
  entry : (st.processedMBBs ++ st.after).head? = mf.layout.head?

theorem oneJump_skipTo (dummyInstr : Bool) (n z f : Nat) : OneJump (skipTo dummyInstr n z f) := by
  refine ⟨(if dummyInstr then List.replicate (n - 2) dummyAdd else []) ++ [lea targetRegOpcode z], f,
    by simp [skipTo], fun i hi => ?_⟩
  rcases List.mem_append.mp hi with h | h
  · split at h
    · rw [List.eq_of_mem_replicate h]
      rfl
    · cases h
  · rw [List.mem_singleton.mp h]
    rfl

theorem oneJump_jmp4 (d : Nat) : OneJump [jmp4 d] := ⟨[], d, rfl, by simp⟩

namespace BlockDone

variable {ft fakeBlock : Option Nat} (D : BlockDone dummyInstr st mbb rest ft fakeBlock st')
  (hB : Bookkeeping st) (ha : st.after = mbb :: rest)
include D hB ha

omit hB ha in
/-- A trampoline is finished when its lane arrives or is led on. -/
theorem oneJump (hL : LanesOpen st) {z : Nat} (hz : z ∈ currents st.takenBlocks) :
    OneJump (st'.instrs z) := by
  obtain ⟨lane, hl, hlz⟩ := mem_currents.mp hz
  have hempty := (hL lane hl z hlz).1
  by_cases harr : lane.Arrives mbb
  · rw [D.arrive lane hl harr z hlz, hempty, List.nil_append]
    exact oneJump_jmp4 mbb
  · obtain ⟨z', f, -, -, -, hi⟩ := D.skip lane hl harr z hlz
    rw [hi, hempty, List.nil_append]
    exact oneJump_skipTo _ _ _ _

theorem fronted (hL : LanesOpen st) (hF : Fronted st) : Fronted st' := by
  obtain ⟨tr, code, hbe, hhead, htr⟩ := hF
  obtain ⟨new, hbe', hnew⟩ := D.before
  have hnd := D.bookkeeping.nodup
  refine ⟨new ++ tr, code ++ mbb :: fakeBlock.toList, by simp [hbe', hbe], ?_, fun z hz => ?_⟩
  · rw [D.processedMBBs, List.head?_append, List.head?_append, hhead]
    rfl
  rcases List.mem_append.mp hz with hz | hz
  · have hzb : z ∈ st'.before := by simp [hbe', hz]
    have hlt := D.bookkeeping.fresh z (List.mem_append_left _ hzb)
    rcases D.created z (hnew z hz) hlt with h | h | h | ⟨d, h⟩
    · rw [hbe'] at hnd
      refine absurd rfl ((List.nodup_append.mp (List.nodup_append.mp hnd).1).2.2 z hz z ?_)
      simp [Option.mem_toList.mpr h]
    · exact absurd hzb (D.bookkeeping.not_mem_before h)
    · exact .inl h
    · exact .inr (h ▸ oneJump_jmp4 d)
  · by_cases hzc : z ∈ currents st.takenBlocks
    · exact .inr (D.oneJump hL hzc)
    · have hzb : z ∈ st.before := by simp [hbe, hz]
      have hzm : z ≠ mbb := by
        rintro rfl
        exact hB.not_mem_before (by simp [ha]) hzb
      rw [D.instrs z (hB.fresh z (List.mem_append_left _ hzb)) hzm hzc]
      exact .inr ((htr z hz).resolve_left hzc)

theorem kept (hft : ft = (advance st mbb rest).mf.getFallThrough mbb) (hK : Kept mf st) :
    Kept mf st' where
  bookkeeping := D.bookkeeping
  targeted := D.targeted hB ha hK.targeted
  lanesOpen := D.lanesOpen_of_targeted hB ha hft hK.targeted hK.lanesOpen
  oneTaken := D.oneTaken (hK.targeted.nonempty mbb (by simp [ha]))
  fronted := D.fronted hB ha hK.lanesOpen hK.fronted
  entry := by
    rw [← hK.entry, D.processedMBBs, ha, List.append_assoc, List.head?_append, List.head?_append]
    cases st.processedMBBs <;> rfl

end BlockDone

namespace Kept

theorem lanesSound (hK : Kept mf st) : LanesSound st where
  distinct := hK.bookkeeping.lanes
  empty lane hl z hz := (hK.lanesOpen lane hl z hz).1
  pending lane hl hs ht d hd := by
    obtain ⟨z, hz⟩ := Option.isSome_iff_exists.mp hs
    rcases (hK.lanesOpen lane hl z hz).2 with ⟨h, -⟩ | ⟨-, d', hd', h⟩
    · rw [ht] at h
      cases h
    · obtain rfl : d' = d := Option.some.inj (h.symm.trans hd)
      obtain ⟨tr, code, hbe, -, hcode⟩ := hK.bookkeeping.parts
      intro hp
      exact hK.bookkeeping.not_mem_before hd' (by simp [hbe, hcode d' hp])
  oneTaken := hK.oneTaken

/-- No lane is left when all blocks are walked. -/
theorem finished (hK : Kept mf st) (ha : st.after = []) {lane : BlockLane}
    (hl : lane ∈ st.takenBlocks) : lane.currentMBB = none := by
  by_contra hne
  obtain ⟨z, hz⟩ := Option.ne_none_iff_exists'.mp hne
  rcases (hK.lanesOpen lane hl z hz).2 with ⟨-, -, h⟩ | ⟨-, d, hd, -⟩
  · exact h ha
  · rw [ha] at hd
    cases hd

end Kept

theorem Contained.kept_start (hmf : Contained mf) : Kept mf (start mf) where
  bookkeeping := bookkeeping_start hmf.nodup hmf.fresh
  targeted := ⟨hmf.nonempty, fun c hc i hi _ d hd => .inr (hmf.targets c hc i hi d hd), hmf.last⟩
  lanesOpen lane hl z hz := by
    cases List.mem_singleton.mp hl
    cases hz
  oneTaken := Nat.le_refl _
  fronted := ⟨[], [], rfl, rfl, by simp⟩
  entry := rfl

theorem Kept.next (hK : Kept mf st) (hne : st.after ≠ [])
    (h : runOnBlock dummyInstr st = .ok st') : Kept mf st' := by
  obtain ⟨mbb, rest, ha⟩ := List.exists_cons_of_ne_nil hne
  obtain ⟨fakeBlock, D⟩ := runOnBlock_spec hK.bookkeeping ha h
  exact D.kept hK.bookkeeping ha rfl hK

theorem Head.kept (hmf : Contained mf) (h : Head dummyInstr mf k st) : Kept mf st := by
  induction h with
  | start => exact hmf.kept_start
  | next _ hne hr ih => exact ih.next hne hr

/-! ## The assertion in the lane loop -/

theorem replaceConditionalBranch_ne (st : PassState) (mbb k : Nat) (mi : MachineInstr) :
    replaceConditionalBranch st mbb mi k ≠ .error noFakeBlock := by
  unfold replaceConditionalBranch
  cases mi.mbb? with
  | none => exact fun h => absurd (Except.error.inj h) (by decide)
  | some d =>
    cases getCorrespondingMovOpcode mi with
    | none => exact fun h => absurd (Except.error.inj h) (by decide)
    | some opcode => exact fun h => nomatch h

theorem replaceUnconditionalJump_ne (st : PassState) (mbb k : Nat) (mi : MachineInstr) :
    replaceUnconditionalJump st mbb mi k ≠ .error noFakeBlock := by
  unfold replaceUnconditionalJump
  cases mi.mbb? with
  | none => exact fun h => absurd (Except.error.inj h) (by decide)
  | some d => exact fun h => nomatch h

/-- The assertion is none of those on the end of a block. -/
theorem replaceTerminator_ne (st : PassState) (mbb k : Nat) (ft : Option Nat) :
    replaceTerminator st mbb ft k ≠ .error noFakeBlock := by
  unfold replaceTerminator
  cases (st.instrs mbb).getLast? with
  | none => exact fun h => nomatch h
  | some pos =>
    dsimp only
    split
    · cases (st.instrs mbb).dropLast.getLast? with
      | none => exact replaceUnconditionalJump_ne st mbb k pos
      | some jcc =>
        dsimp only
        split
        · unfold splitJump
          cases pos.mbb? with
          | none => exact fun h => absurd (Except.error.inj h) (by decide)
          | some d => exact replaceConditionalBranch_ne _ mbb k jcc
        · exact replaceUnconditionalJump_ne st mbb k pos
    · split
      · unfold replaceIndirectJump
        split
        · exact fun h => nomatch h
        · exact fun h => absurd (Except.error.inj h) (by decide)
      · split
        · exact replaceConditionalBranch_ne st mbb k pos
        · split
          · exact fun h => nomatch h
          · exact fun h => absurd (Except.error.inj h) (by decide)

theorem Kept.skips (dummyInstr : Bool) (hK : Kept mf st) :
    runOnBlock dummyInstr st ≠ .error noFakeBlock := by
  cases ha : st.after with
  | nil => simp [runOnBlock, ha]
  | cons mbb rest =>
    rcases hf : insertFakeBlock (advance st mbb rest) mbb with ⟨fakeBlock, s⟩
    obtain ⟨⟨s', tk⟩, hl⟩ := hK.lanesOpen.updateLanes_isOk dummyInstr ha hf
    simp only [runOnBlock, ha, hf, hl, bind, Except.bind]
    exact replaceTerminator_ne _ _ _ _

/-! ## The output -/

theorem Head.of_blockLoop {n : Nat} {fin : PassState} (h : Head dummyInstr mf k st)
    (hl : blockLoop dummyInstr n st = .ok fin) : ∃ k, Head dummyInstr mf k fin ∧ fin.after = [] := by
  induction n generalizing k st with
  | zero =>
    rw [blockLoop] at hl
    split at hl
    · rename_i ha
      exact Except.ok.inj hl ▸ ⟨k, h, ha⟩
    · cases hl
  | succ n ih =>
    rw [blockLoop] at hl
    split at hl
    · rename_i ha
      exact Except.ok.inj hl ▸ ⟨k, h, ha⟩
    · rename_i ha
      cases hr : runOnBlock dummyInstr st with
      | error e =>
        rw [hr] at hl
        cases hl
      | ok st' =>
        rw [hr] at hl
        exact ih (h.next ha hr) hl

theorem Kept.closed {fin : PassState} {entry : Nat} (hK : Kept mf fin) (ha : fin.after = [])
    (hentry : mf.layout.head? = some entry) :
    ∀ z ∈ trampolines mf (addFrontBlock fin entry).mf,
      OneJump ((addFrontBlock fin entry).mf.blocks z).instrs := by
  obtain ⟨tr, code, hbe, hhead, htr⟩ := hK.fronted
  have hcode : code.head? = some entry := by
    rw [hhead, ← hentry, ← hK.entry, ha, List.append_nil]
  obtain ⟨l, hl⟩ := List.head?_eq_some_iff.mp hcode
  have hfresh : ∀ b ∈ fin.before, b < fin.nextMBB := fun b hb =>
    hK.bookkeeping.fresh b (List.mem_append_left _ hb)
  have htrb : ∀ z ∈ tr, z ∈ fin.before := fun z hz => hbe ▸ List.mem_append_left _ hz
  have hnd : (tr ++ code).Nodup := by
    have h := hK.bookkeeping.nodup
    rwa [ha, List.append_nil, hbe] at h
  have hstop : trampolines mf (addFrontBlock fin entry).mf = tr := by
    rw [trampolines, addFrontBlock_layout _ _ ha, hbe, hentry, ← List.cons_append,
      List.takeWhile_append_of_pos, hl]
    · simp
    · intro b hb
      have hne : entry ≠ b := by
        rcases List.mem_cons.mp hb with rfl | hb
        · have := hfresh entry (by simp [hbe, hl])
          omega
        · exact ((List.nodup_append.mp hnd).2.2 b hb entry (by simp [hl])).symm
      simpa using hne
  rw [hstop]
  intro z hz
  rw [addFrontBlock_blocks _ _ (Nat.ne_of_lt (hfresh z (htrb z hz)))]
  refine (htr z hz).resolve_left fun hc => ?_
  obtain ⟨lane, hlane, hlz⟩ := mem_currents.mp hc
  rw [hK.finished ha hlane] at hlz
  cases hlz

/-- The bookkeeping of the lanes is sound. -/
theorem lanesKept (dummyInstr : Bool) (hmf : Contained mf) : LanesKept dummyInstr mf where
  sound _ _ h := (h.kept hmf).lanesSound
  skips _ _ h := (h.kept hmf).skips dummyInstr
  finished _ _ h ha _ hl := (h.kept hmf).finished ha hl
  closed out hout := by
    obtain ⟨entry, fin, hentry, hfin, rfl⟩ := loop_of_run hmf.toWellFormed hout
    obtain ⟨k, hk, ha⟩ := Head.of_blockLoop .start hfin
    exact (hk.kept hmf).closed ha hentry

/-- Of the lanes of `selfLoop` one leads back. -/
theorem lanesKept_selfLoop : LanesKept true selfLoop :=
  lanesKept true ⟨selfLoop_convertible.toWellFormed, selfLoop_convertible.nonempty, by decide⟩

end BS.BranchConversion
