import BranchShadowing.Proof.BranchConversion.Block
import BranchShadowing.Framework.Layout

/-!
# The whole walk

A walk that does not fail is a chain of iterations (`Walk`), each of which is
`BlockDone`. What is laid out stays laid out in its order, and a block that has
been walked and is no trampoline of a live lane is not touched again
(`Walk.frozen`). In a function without empty blocks every lane of a state leads,
in the end, to where it was to lead (`Walk.route`): `Route` is the chain of
trampolines and fake blocks on the way.
-/

namespace BS.BranchConversion

open X86 PassState

variable {dummyInstr : Bool} {st st' fin : PassState} {mbb : Nat} {rest : List Nat}
  {ft fakeBlock : Option Nat}

/-- A walk from `st` to the end, in state `fin`. -/
inductive Walk (dummyInstr : Bool) (fin : PassState) : PassState → Prop
  | done : Bookkeeping fin → fin.after = [] → Walk dummyInstr fin fin
  | block {st st' : PassState} {mbb : Nat} {rest : List Nat} {fakeBlock : Option Nat} :
    Bookkeeping st → st.after = mbb :: rest →
    BlockDone dummyInstr st mbb rest ((advance st mbb rest).mf.getFallThrough mbb) fakeBlock st' →
    Walk dummyInstr fin st' → Walk dummyInstr fin st

theorem walk_of_blockLoop {n : Nat} (h : blockLoop dummyInstr n st = .ok fin)
    (hB : Bookkeeping st) : Walk dummyInstr fin st := by
  induction n generalizing st with
  | zero =>
    simp only [blockLoop] at h
    split at h
    · rename_i ha
      cases h
      exact .done hB ha
    · cases h
  | succ n ih =>
    simp only [blockLoop] at h
    split at h
    · rename_i ha
      cases h
      exact .done hB ha
    · rename_i ha
      obtain ⟨mbb, rest, ha⟩ := List.exists_cons_of_ne_nil ha
      cases hr : runOnBlock dummyInstr st with
      | error e =>
        rw [hr] at h
        cases h
      | ok st₁ =>
        rw [hr] at h
        obtain ⟨fakeBlock, D⟩ := runOnBlock_spec hB ha hr
        exact .block hB ha D (ih h D.bookkeeping)

theorem bookkeeping_start {mf : MachineFunction} (hnd : mf.layout.Nodup)
    (hfresh : ∀ b ∈ mf.layout, b < mf.nextMBB) : Bookkeeping (start mf) where
  nodup := hnd
  fresh := hfresh
  lanes := List.nodup_nil
  parts := ⟨[], [], rfl, by simp [start, currents], by simp [start]⟩

namespace Walk

theorem bookkeeping (W : Walk dummyInstr fin st) : Bookkeeping st := by
  cases W with
  | done hB => exact hB
  | block hB => exact hB

theorem after_eq_nil (W : Walk dummyInstr fin st) : fin.after = [] := by
  induction W with
  | done _ ha => exact ha
  | block _ _ _ _ ih => exact ih

theorem nextMBB_le (W : Walk dummyInstr fin st) : st.nextMBB ≤ fin.nextMBB := by
  induction W with
  | done => exact Nat.le_refl _
  | block _ _ D _ ih => exact Nat.le_trans D.nextMBB ih

/-- The layout only grows around what is there. -/
theorem before (W : Walk dummyInstr fin st) :
    ∃ tr more, fin.before = tr ++ st.before ++ more ∧ ∀ b ∈ tr, st.nextMBB ≤ b := by
  induction W with
  | done => exact ⟨[], [], by simp, by simp⟩
  | @block st st' mbb rest fakeBlock hB ha D W ih =>
    obtain ⟨tr, more, hb, htr⟩ := ih
    obtain ⟨tr', hb', htr'⟩ := D.before
    refine ⟨tr ++ tr', mbb :: fakeBlock.toList ++ more, by simp [hb, hb'], fun b hbm => ?_⟩
    rcases List.mem_append.mp hbm with h | h
    · exact Nat.le_trans D.nextMBB (htr b h)
    · exact htr' b h

theorem mem_before (W : Walk dummyInstr fin st) {b : Nat} (hb : b ∈ st.before) :
    b ∈ fin.before := by
  obtain ⟨tr, more, h, -⟩ := W.before
  simp [h, hb]

theorem processedMBBs (W : Walk dummyInstr fin st) :
    st.processedMBBs <+: fin.processedMBBs := by
  induction W with
  | done => exact List.prefix_rfl
  | block hB ha D W ih =>
    rw [D.processedMBBs] at ih
    exact (List.prefix_append ..).trans ih

theorem getElem?_processedMBBs (W : Walk dummyInstr fin st) {j d : Nat}
    (h : st.processedMBBs[j]? = some d) : fin.processedMBBs[j]? = some d := by
  obtain ⟨t, ht⟩ := W.processedMBBs
  rw [← ht, List.getElem?_append_left (List.getElem?_eq_some_iff.mp h).1, h]

/-- The first block left is the next one walked. -/
theorem getElem?_length (W : Walk dummyInstr fin st) :
    fin.processedMBBs[st.processedMBBs.length]? = st.after.head? := by
  cases W with
  | done _ ha => simp [ha]
  | @block _ st' mbb rest fakeBlock hB ha D W =>
    have h : st'.processedMBBs[st.processedMBBs.length]? = some mbb := by
      rw [D.processedMBBs, List.getElem?_append_right (Nat.le_refl _), Nat.sub_self]
      rfl
    rw [W.getElem?_processedMBBs h, ha]
    rfl

/-- What has been laid out and not walked is not walked later. -/
theorem not_processed (W : Walk dummyInstr fin st) {b : Nat} (hb : b ∈ st.before)
    (hp : b ∉ st.processedMBBs) : b ∉ fin.processedMBBs := by
  induction W with
  | done => exact hp
  | @block st st' mbb rest fakeBlock hB ha D W ih =>
    obtain ⟨tr, hb', -⟩ := D.before
    refine ih (by simp [hb', hb]) ?_
    rw [D.processedMBBs, List.mem_append, List.mem_singleton, not_or]
    refine ⟨hp, fun h => ?_⟩
    subst h
    exact (List.nodup_append.mp hB.nodup).2.2 b hb b (by simp [ha]) rfl

/-- A block that is neither left to walk nor the trampoline of a live lane is
finished. -/
theorem frozen (W : Walk dummyInstr fin st) {b : Nat} (hb : b < st.nextMBB)
    (ha : b ∉ st.after) (hc : b ∉ currents st.takenBlocks) : fin.instrs b = st.instrs b := by
  induction W with
  | done => rfl
  | block hB hae D W ih =>
    rw [hae, List.mem_cons, not_or] at ha
    rw [ih (Nat.lt_of_lt_of_le hb D.nextMBB), D.instrs b hb ha.1 hc]
    · obtain ⟨o, -, hao, ho⟩ := D.ending
      rw [hao, List.mem_append, not_or]
      refine ⟨fun h => ?_, ha.2⟩
      have := (ho b (Option.mem_toList.mp h)).1
      omega
    · intro h
      rcases D.live b h with h | h
      · exact hc h
      · omega

end Walk

/-! ## Routes -/

/-- `f` stands behind block `c`, and jumps to where R15 points. -/
def FakeAfter (fin : PassState) (c f : Nat) : Prop :=
  nextOf fin.before c = some f ∧ fin.instrs f = [jmp64r] ∧ f ∉ fin.processedMBBs

/-- Block `z` is laid out, and is no fake block. -/
structure Genuine (fin : PassState) (z : Nat) : Prop where
  mem : z ∈ fin.before
  notFake : ∀ c, ¬ FakeAfter fin c z

theorem Genuine.of_processed {fin : PassState} {z : Nat} (hb : z ∈ fin.before)
    (hz : z ∈ fin.processedMBBs) : Genuine fin z :=
  ⟨hb, fun _ hf => hf.2.2 hz⟩

theorem Genuine.of_instrs {fin : PassState} {z : Nat} (hb : z ∈ fin.before)
    (hz : fin.instrs z ≠ [jmp64r]) : Genuine fin z :=
  ⟨hb, fun _ hf => hz hf.2.1⟩

/-- From trampoline `z`, reached over the fake block of the `n`-th block walked
but one, control comes to block `d`: at once, or through the fake blocks of the
blocks from the `n`-th on, which it skips. -/
inductive Route (dummyInstr : Bool) (fin : PassState) : Nat → Nat → Nat → Prop
  | arrive {n j z d : Nat} : z ∈ fin.before → z ∉ fin.processedMBBs →
    fin.instrs z = [jmp4 d] → j ≤ n → fin.processedMBBs[j]? = some d → Route dummyInstr fin n z d
  | skip {n k z z' c f d : Nat} : z ∈ fin.before → z ∉ fin.processedMBBs →
    fin.processedMBBs[n]? = some c → FakeAfter fin c f →
    fin.instrs z = skipTo dummyInstr k z' f →
    Route dummyInstr fin (n + 1) z' d → Route dummyInstr fin n z d

theorem Route.mem {n z d : Nat} (h : Route dummyInstr fin n z d) :
    z ∈ fin.before ∧ z ∉ fin.processedMBBs := by
  cases h with
  | arrive hz hzp => exact ⟨hz, hzp⟩
  | skip hz hzp => exact ⟨hz, hzp⟩

theorem skipTo_append_ne (k z f : Nat) (is : List MachineInstr) :
    skipTo dummyInstr k z f ++ is ≠ [jmp64r] := by
  intro h
  have hlen := congrArg List.length h
  simp only [skipTo, List.length_append, List.length_cons, List.length_nil, jmp64r] at hlen
  omega

theorem Route.genuine {n z d : Nat} (h : Route dummyInstr fin n z d) : Genuine fin z := by
  refine .of_instrs h.mem.1 ?_
  cases h with
  | arrive _ _ hi => simp [hi, jmp4, jmp64r]
  | @skip _ k _ z' _ f _ _ _ _ _ hi =>
    rw [hi, ← List.append_nil (skipTo ..)]
    exact skipTo_append_ne k z' f []

theorem getFallThrough_some {mf : MachineFunction} {b n : Nat}
    (h : mf.getFallThrough b = some n) : mf.layoutSucc b = some n ∧ n ∈ (mf.blocks b).succs := by
  simp only [MachineFunction.getFallThrough] at h
  cases hs : mf.layoutSucc b with
  | none =>
    rw [hs] at h
    cases h
  | some c =>
    rw [hs] at h
    simp only at h
    split at h
    · cases h
    · rename_i hc
      have hc : c ∈ (mf.blocks b).succs := by simpa using hc
      have : c = n := by
        repeat' split at h
        all_goals first | (cases h; rfl) | cases h
      subst this
      exact ⟨rfl, hc⟩

/-- Every block left to walk has instructions, its branches go to blocks of the
function and do not return, and the last does not end in a conditional branch. -/
structure Shaped (st : PassState) : Prop where
  nonempty : ∀ c ∈ st.after, st.instrs c ≠ []
  noReturn : ∀ c ∈ st.after, ∀ i ∈ st.instrs c, i.isBranch → i.isReturn = false
  targets : ∀ c ∈ st.after, ∀ i ∈ st.instrs c, i.isBranch → ∀ d, i.mbb? = some d →
    d ∈ st.processedMBBs ∨ d ∈ st.after
  last : ∀ c, st.after.getLast? = some c → ∀ i, (st.instrs c).getLast? = some i →
    i.isConditionalBranch = false

/-- What the lanes rely on of this. -/
structure Targeted (st : PassState) : Prop where
  nonempty : ∀ c ∈ st.after, st.instrs c ≠ []
  targets : ∀ c ∈ st.after, ∀ i ∈ st.instrs c, i.isBranch → ∀ d, i.mbb? = some d →
    d ∈ st.processedMBBs ∨ d ∈ st.after
  last : ∀ c, st.after.getLast? = some c → ∀ i, (st.instrs c).getLast? = some i →
    i.isConditionalBranch = false

theorem Shaped.targeted (h : Shaped st) : Targeted st := ⟨h.nonempty, h.targets, h.last⟩

/-- The trampoline of a live lane is empty, and what the lane leads to is still
to come: the next block, or its target. -/
def LanesOpen (st : PassState) : Prop :=
  ∀ lane ∈ st.takenBlocks, ∀ z, lane.currentMBB = some z → st.instrs z = [] ∧
    (lane.taken = true ∧ lane.destMBB = none ∧ st.after ≠ [] ∨
      lane.taken = false ∧ ∃ d ∈ st.after, lane.destMBB = some d)

theorem Bookkeeping.not_mem_before (hB : Bookkeeping st) {b : Nat} (hb : b ∈ st.after) :
    b ∉ st.before :=
  fun h => (List.nodup_append.mp hB.nodup).2.2 b h b hb rfl

namespace BlockDone

variable (D : BlockDone dummyInstr st mbb rest ft fakeBlock st')
  (hB : Bookkeeping st) (ha : st.after = mbb :: rest)
include D hB ha

/-- A block still to walk has not been touched. -/
theorem instrs_rest {c : Nat} (hc : c ∈ rest) : st'.instrs c = st.instrs c := by
  have hmem : c ∈ st.after := by simp [ha, hc]
  refine D.instrs c (hB.fresh c (by simp [hmem])) ?_ (hB.not_current hmem)
  rintro rfl
  have := (List.nodup_append.mp hB.nodup).2.1
  rw [ha, List.nodup_cons] at this
  exact this.1 hc

omit hB ha in
/-- The block split off holds the jump. -/
theorem split_instrs {N : Nat} (hN : N ∈ st'.after) (hr : N ∉ rest) :
    ∃ mi ∈ st.instrs mbb, ∃ d, mi.isUnconditionalBranch ∧ mi.mbb? = some d ∧
      st'.instrs N = [⟨mi.opcode, [.mbb d]⟩] := by
  obtain ⟨o, ho, hao, -⟩ := D.ending
  rw [hao, List.mem_append, or_iff_left hr, Option.mem_toList] at hN
  generalize hi : st.instrs mbb = is at ho
  generalize st'.instrs mbb = is' at ho
  cases ho with
  | split _ _ hu hd _ _ hNi =>
    cases hN
    exact ⟨_, by simp, _, hu, hd, hNi⟩
  | _ => cases hN

theorem targeted (hT : Targeted st) : Targeted st' := by
  obtain ⟨o, -, hao, -⟩ := D.ending
  have hmem : mbb ∈ st.after := by simp [ha]
  have hproc : ∀ d, d ∈ st.processedMBBs ∨ d ∈ st.after → d ∈ st'.processedMBBs ∨ d ∈ st'.after := by
    intro d hd
    rw [D.processedMBBs, hao]
    rw [ha] at hd
    simp only [List.mem_append, List.mem_cons, List.not_mem_nil, or_false] at hd ⊢
    tauto
  refine ⟨fun c hc => ?_, fun c hc i hi hb d hd => ?_, fun c hc i hi => ?_⟩
  · by_cases hr : c ∈ rest
    · rw [D.instrs_rest hB ha hr]
      exact hT.nonempty c (by simp [ha, hr])
    · obtain ⟨mi, -, d, -, -, h⟩ := D.split_instrs hc hr
      simp [h]
  · by_cases hr : c ∈ rest
    · rw [D.instrs_rest hB ha hr] at hi
      exact hproc d (hT.targets c (by simp [ha, hr]) i hi hb d hd)
    · obtain ⟨mi, hmi, d', hu, hd', h⟩ := D.split_instrs hc hr
      rw [h] at hi
      cases List.mem_singleton.mp hi
      cases hd
      exact hproc _ (hT.targets mbb hmem mi hmi (isBranch_of_unconditional hu) _ hd')
  · by_cases hr : c ∈ rest
    · rw [D.instrs_rest hB ha hr] at hi
      refine hT.last c ?_ i hi
      obtain ⟨l, hl⟩ := List.getLast?_isSome.mpr (List.ne_nil_of_mem hr) |> Option.isSome_iff_exists.mp
      rw [hao, List.getLast?_append, hl] at hc
      rw [ha, List.getLast?_cons, hl]
      exact hc
    · obtain ⟨mi, hmi, d', hu, hd', h⟩ := D.split_instrs (List.mem_of_getLast? hc) hr
      rw [h] at hi
      cases hi
      simp only [MachineInstr.isUnconditionalBranch, Bool.and_eq_true] at hu
      simp only [MachineInstr.isConditionalBranch, MachineInstr.isBarrier] at hu ⊢
      simp [hu.1.2]

theorem shaped (hS : Shaped st) : Shaped st' := by
  have hT := D.targeted hB ha hS.targeted
  refine ⟨hT.nonempty, fun c hc i hi hb => ?_, hT.targets, hT.last⟩
  by_cases hr : c ∈ rest
  · rw [D.instrs_rest hB ha hr] at hi
    exact hS.noReturn c (by simp [ha, hr]) i hi hb
  · obtain ⟨mi, hmi, d', hu, -, h⟩ := D.split_instrs hc hr
    rw [h] at hi
    cases List.mem_singleton.mp hi
    exact hS.noReturn mbb (by simp [ha]) mi hmi hb

omit D in
theorem layoutSucc_advance : (advance st mbb rest).mf.layoutSucc mbb = rest.head? := by
  have hmem : mbb ∈ st.after := by simp [ha]
  show nextOf ((st.before ++ [mbb]) ++ rest) mbb = rest.head?
  rw [List.append_assoc]
  exact nextOf_append_cons (hB.not_mem_before hmem)

theorem lanesOpen_of_targeted (hft : ft = (advance st mbb rest).mf.getFallThrough mbb)
    (hT : Targeted st) (hL : LanesOpen st) : LanesOpen st' := by
  obtain ⟨o, -, hao, -⟩ := D.ending
  have hmem : mbb ∈ st.after := by simp [ha]
  intro lane hl z hz
  rcases (D.lanes (hT.nonempty mbb hmem)).2 lane hl with ⟨old, hold, harr, hs, z', rfl, hi⟩ | h
  · cases hz
    refine ⟨hi, .inr ?_⟩
    simp only [BlockLane.Arrives, not_or, Bool.not_eq_true] at harr
    refine ⟨harr.1, ?_⟩
    obtain ⟨z₀, hz₀⟩ := Option.isSome_iff_exists.mp hs
    rcases (hL old hold z₀ hz₀).2 with ⟨ht, -⟩ | ⟨-, d, hd, hod⟩
    · rw [ht] at harr
      cases harr.1
    · refine ⟨d, ?_, hod⟩
      rw [ha, List.mem_cons] at hd
      rw [hao]
      rcases hd with rfl | hd
      · exact absurd hod harr.2
      · exact List.mem_append_right _ hd
  · cases h with
    | dead => cases hz
    | next _ _ _ hi hcond =>
      cases hz
      refine ⟨hi, .inl ⟨rfl, rfl, ?_⟩⟩
      rcases hcond with h | h | ⟨i, hi, hc⟩
      · exact h
      · rw [hft] at h
        obtain ⟨n, hn⟩ := Option.isSome_iff_exists.mp h
        have hr := (layoutSucc_advance hB ha).symm.trans (getFallThrough_some hn).1
        rw [hao]
        intro hnil
        rw [List.append_eq_nil_iff] at hnil
        rw [hnil.2] at hr
        cases hr
      · rw [hao]
        intro hnil
        rw [List.append_eq_nil_iff] at hnil
        have := hT.last mbb (by rw [ha, hnil.2]; rfl) i hi
        rw [this] at hc
        cases hc
    | toward _ _ _ hi hd h =>
      cases hz
      obtain ⟨i, him, hb, hid⟩ := h
      refine ⟨hi, .inr ⟨rfl, _, ?_, rfl⟩⟩
      rw [hao]
      rcases hT.targets mbb hmem i him hb _ hid with h | h
      · exact absurd (List.mem_append_left _ h) hd
      · rw [ha, List.mem_cons] at h
        rcases h with rfl | h
        · exact absurd (List.mem_append_right _ (List.mem_singleton_self _)) hd
        · exact List.mem_append_right _ h

theorem lanesOpen (hft : ft = (advance st mbb rest).mf.getFallThrough mbb) (hS : Shaped st)
    (hL : LanesOpen st) : LanesOpen st' :=
  D.lanesOpen_of_targeted hB ha hft hS.targeted hL

end BlockDone

namespace Walk

theorem bookkeeping_fin (W : Walk dummyInstr fin st) : Bookkeeping fin := by
  induction W with
  | done hB => exact hB
  | block _ _ _ _ ih => exact ih

section

variable (hB : Bookkeeping st) (ha : st.after = mbb :: rest)
  (D : BlockDone dummyInstr st mbb rest ft fakeBlock st') (W : Walk dummyInstr fin st')
include hB ha D W

/-- The fake block stays behind its block. -/
theorem fakeAfter {f : Nat} (hf : fakeBlock = some f) : FakeAfter fin mbb f := by
  obtain ⟨tr, more, hb, -⟩ := W.before
  obtain ⟨tr', hb', -⟩ := D.before
  obtain ⟨hge, hlt, hi, hc⟩ := D.fake f hf
  have hbf : fin.before = (tr ++ tr' ++ st.before) ++ mbb :: (f :: more) := by
    simp [hb, hb', hf]
  have hfb : f ∈ st'.before := by simp [hb', hf]
  refine ⟨?_, ?_, ?_⟩
  · have hnd := (List.nodup_append.mp W.bookkeeping_fin.nodup).1
    rw [hbf] at hnd ⊢
    refine nextOf_append_cons fun h => ?_
    exact (List.nodup_append.mp hnd).2.2 mbb h mbb (List.mem_cons_self ..) rfl
  · rw [W.frozen hlt (fun h => D.bookkeeping.not_mem_before h hfb) hc, hi]
  · refine W.not_processed hfb ?_
    rw [D.processedMBBs, List.mem_append, List.mem_singleton, not_or]
    refine ⟨fun h => ?_, fun h => ?_⟩
    · have := hB.processed_lt h
      omega
    · have := hB.fresh mbb (by simp [ha])
      omega

/-- The trampoline of a lane is finished once the lane has moved on. -/
theorem frozen_current (hS : Shaped st) {lane : BlockLane} (hl : lane ∈ st.takenBlocks) {z : Nat}
    (hz : lane.currentMBB = some z) :
    z ∈ fin.before ∧ z ∉ fin.processedMBBs ∧ fin.instrs z = st'.instrs z := by
  have hzc := currents_mem hl hz
  have hzl := hB.current_lt hzc
  have hzb : z ∈ st'.before := by
    obtain ⟨tr, code, hb, htr, -⟩ := hB.parts
    obtain ⟨tr', hb', -⟩ := D.before
    simp [hb', hb, htr z hzc]
  have hzp : z ∉ st'.processedMBBs := by
    rw [D.processedMBBs, List.mem_append, List.mem_singleton, not_or]
    exact ⟨hB.current_not_processed hzc, fun h => hB.not_current (by simp [ha]) (h ▸ hzc)⟩
  refine ⟨W.mem_before hzb, W.not_processed hzb hzp, W.frozen (Nat.lt_of_lt_of_le hzl D.nextMBB)
    (fun h => D.bookkeeping.not_mem_before h hzb) fun h => ?_⟩
  have := (D.lanes (hS.nonempty mbb (by simp [ha]))).1 z h
  omega

end

/-- Every lane leads to its target, or to the block walked next. -/
theorem route (W : Walk dummyInstr fin st) (hS : Shaped st) (hL : LanesOpen st)
    {lane : BlockLane} (hl : lane ∈ st.takenBlocks) {z d : Nat} (hz : lane.currentMBB = some z)
    (hd : lane.destMBB.or st.after.head? = some d) :
    Route dummyInstr fin st.processedMBBs.length z d := by
  induction W generalizing lane z with
  | done _ ha =>
    rcases (hL lane hl z hz).2 with ⟨-, -, h⟩ | ⟨-, d', h, -⟩
    · exact absurd ha h
    · rw [ha] at h
      cases h
  | @block st st' mbb rest fakeBlock hB ha D W ih =>
    obtain ⟨hzb, hzp, hzi⟩ := frozen_current hB ha D W hS hl hz
    obtain ⟨hempty, hopen⟩ := hL lane hl z hz
    have hn : fin.processedMBBs[st.processedMBBs.length]? = some mbb := by
      rw [(Walk.block hB ha D W).getElem?_length, ha]
      rfl
    by_cases harr : lane.Arrives mbb
    · have hdm : d = mbb := by
        rw [ha] at hd
        rcases hopen with ⟨-, hnone, -⟩ | ⟨ht, d', -, hd'⟩
        · rw [hnone] at hd
          exact (Option.some.inj hd).symm
        · have h := harr.resolve_left (by simp [ht])
          rw [h] at hd
          exact (Option.some.inj hd).symm
      subst hdm
      refine .arrive hzb hzp ?_ (Nat.le_refl _) hn
      rw [hzi, D.arrive lane hl harr z hz, hempty, List.nil_append]
    · obtain ⟨z', f, hf, hl', -, hi⟩ := D.skip lane hl harr z hz
      refine .skip hzb hzp hn (fakeAfter hB ha D W hf) (by rw [hzi, hi, hempty, List.nil_append]) ?_
      have h := ih (D.shaped hB ha hS) (D.lanesOpen hB ha rfl hS hL) hl' rfl ?_
      · rwa [D.processedMBBs, List.length_append] at h
      · rcases hopen with ⟨ht, -⟩ | ⟨-, d', -, hd'⟩
        · exact absurd (.inl ht) harr
        · rw [hd'] at hd
          show lane.destMBB.or _ = some d
          rw [hd']
          exact hd

end Walk

/-! ## The blocks of the function -/

/-- What has become of a block, the `i`-th walked: its instructions before and
after. Control that leaves it over its fake block takes one of the routes given;
`next` is the block behind it in the function, `ft` its fall-through, and a block
split off is numbered from `lo` on. -/
inductive Converted (dummyInstr : Bool) (fin : PassState) (lo : Nat) (next ft : Option Nat)
    (i : Nat) :
    List MachineInstr → List MachineInstr → Prop
  | leave {pre : List MachineInstr} {mi : MachineInstr} :
    mi.isUnconditionalBranch = false → mi.isConditionalBranch = false →
    (mi.isIndirectBranch ∨ ft = none ∧ (mi.isReturn ∨ mi.isCall)) →
    Converted dummyInstr fin lo next ft i (pre ++ [mi]) (pre ++ [mi])
  | fall {pre : List MachineInstr} {mi : MachineInstr} {n z : Nat} :
    mi.isUnconditionalBranch = false → mi.isConditionalBranch = false →
    mi.isIndirectBranch = false → ft = some n → Route dummyInstr fin (i + 1) z n →
    Converted dummyInstr fin lo next ft i (pre ++ [mi]) (pre ++ [mi, lea targetRegOpcode z])
  | jump {pre : List MachineInstr} {mi : MachineInstr} {d z : Nat} :
    mi.isUnconditionalBranch → (∀ i, pre.getLast? = some i → i.isConditionalBranch = false) →
    mi.mbb? = some d → Route dummyInstr fin (i + 1) z d →
    Converted dummyInstr fin lo next ft i (pre ++ [mi]) (pre ++ [lea targetRegOpcode z])
  | cond {pre : List MachineInstr} {mi : MachineInstr} {cc : Cond} {d n zF zT : Nat} :
    mi.opcode = .jcc1 cc → mi.mbb? = some d → next = some n →
    Route dummyInstr fin (i + 1) zF n → Route dummyInstr fin (i + 1) zT d →
    Converted dummyInstr fin lo next ft i (pre ++ [mi])
      (pre ++ [lea targetRegOpcode zF, lea tmpReg zT, cmov (.cmov64rr cc)])
  | split {pre : List MachineInstr} {jcc mi : MachineInstr} {cc : Cond}
      {d d' zF zT N f z : Nat} :
    jcc.opcode = .jcc1 cc → jcc.mbb? = some d → mi.isUnconditionalBranch → mi.mbb? = some d' →
    Route dummyInstr fin (i + 1) zF N → Route dummyInstr fin (i + 1) zT d →
    fin.processedMBBs[i + 1]? = some N → lo ≤ N → fin.instrs N = [lea targetRegOpcode z] →
    FakeAfter fin N f → Route dummyInstr fin (i + 2) z d' →
    Converted dummyInstr fin lo next ft i (pre ++ [jcc, mi])
      (pre ++ [lea targetRegOpcode zF, lea tmpReg zT, cmov (.cmov64rr cc)])

/-- `ft` is the fall-through that `getFallThrough` finds of block `b`, behind which
stands `next`. -/
structure FallThroughOf (next : Option Nat) (b : MachineBasicBlock) (ft : Option Nat) : Prop where
  found : ∀ n, ft = some n → next = some n ∧ n ∈ b.succs
  falls : (∀ i ∈ b.instrs, i.isTerminator = false) → ∀ n, next = some n → n ∈ b.succs →
    ft = some n
  barrier : ∀ i, b.instrs.getLast? = some i → i.isDebugValue = false → i.isTerminator →
    i.isBranch = false → i.isBarrier → ft = none

/-- Block `c`, the `i`-th walked, was `b`; it is converted, and behind it stands a
fake block, unless it is the last and returns. -/
structure BlockConverted (dummyInstr : Bool) (fin : PassState) (lo : Nat) (next : Option Nat)
    (b : MachineBasicBlock) (i c : Nat) : Prop where
  processed : fin.processedMBBs[i]? = some c
  fake : (∃ f, FakeAfter fin c f) ∨ next = none ∧ b.isReturnBlock
  code : ∃ ft, FallThroughOf next b ft ∧
    Converted dummyInstr fin lo next ft i b.instrs (fin.instrs c)

/-- Control can fall through a block without terminators to a successor. -/
theorem getFallThrough_of_no_terminator {mf : MachineFunction} {b n : Nat}
    (hs : mf.layoutSucc b = some n) (hn : n ∈ (mf.blocks b).succs)
    (ht : ∀ i ∈ (mf.blocks b).instrs, i.isTerminator = false) :
    mf.getFallThrough b = some n := by
  have key : ∀ is : List MachineInstr, (∀ i ∈ is, i.isTerminator = false) →
      mf.analyzeBranchImpl b is {} = some {} := by
    intro is
    induction is with
    | nil => exact fun _ => rfl
    | cons i is ih =>
      intro h
      simp only [MachineFunction.analyzeBranchImpl, MachineInstr.isUnpredicatedTerminator,
        h i (List.mem_cons_self ..), Bool.not_false, if_true]
      split
      · exact ih fun j hj => h j (List.mem_cons_of_mem _ hj)
      · rfl
  have ha : mf.analyzeBranch b = some {} := key _ fun i hi => ht i (List.mem_reverse.mp hi)
  simp [MachineFunction.getFallThrough, hs, hn, ha]

/-- Control cannot fall through a block that ends in a barrier which is no branch. -/
theorem getFallThrough_of_barrier {mf : MachineFunction} {b : Nat} {i : MachineInstr}
    (hi : (mf.blocks b).instrs.getLast? = some i) (hd : i.isDebugValue = false)
    (ht : i.isTerminator) (hb : i.isBranch = false) (hbar : i.isBarrier) :
    mf.getFallThrough b = none := by
  have ha : mf.analyzeBranch b = none := by
    obtain ⟨pre, hpre⟩ := List.getLast?_eq_some_iff.mp hi
    simp [MachineFunction.analyzeBranch, hpre, MachineFunction.analyzeBranchImpl, hd, hb,
      MachineInstr.isUnpredicatedTerminator, ht]
  simp only [MachineFunction.getFallThrough, ha, hi, Option.any_some, hbar, if_true]
  split
  · rfl
  · split <;> rfl

theorem fallThroughOf {mf : MachineFunction} {b : Nat} :
    FallThroughOf (mf.layoutSucc b) (mf.blocks b) (mf.getFallThrough b) where
  found _ h := getFallThrough_some h
  falls ht _ hn hs := getFallThrough_of_no_terminator hn hs ht
  barrier _ hi hd ht hb hbar := getFallThrough_of_barrier hi hd ht hb hbar

namespace Walk

variable {lo : Nat}

theorem leads (W : Walk dummyInstr fin st) (hS : Shaped st) (hL : LanesOpen st) {z d : Nat}
    (h : st.Leads z d) : Route dummyInstr fin st.processedMBBs.length z d := by
  rcases h with h | ⟨hd, hzp, hzb, hzc, hi⟩
  · exact W.route hS hL h.1 rfl rfl
  · have hB := W.bookkeeping
    obtain ⟨j, hj⟩ := List.mem_iff_getElem?.mp hd
    have hjl := (List.getElem?_eq_some_iff.mp hj).1
    refine .arrive (W.mem_before hzb) (W.not_processed hzb hzp) ?_ (Nat.le_of_lt hjl)
      (W.getElem?_processedMBBs hj)
    rw [W.frozen (hB.fresh z (by simp [hzb])) (fun h => hB.not_mem_before h hzb) hzc, hi]

theorem leadsNext (W : Walk dummyInstr fin st) (hS : Shaped st) (hL : LanesOpen st) {z c : Nat}
    (h : st.LeadsNext z) (hc : st.after.head? = some c) :
    Route dummyInstr fin st.processedMBBs.length z c :=
  W.route hS hL h rfl hc

theorem leadsNext_head (hL : LanesOpen st) {z : Nat} (h : st.LeadsNext z) :
    ∃ c, st.after.head? = some c := by
  rcases (hL _ h z rfl).2 with ⟨-, -, hne⟩ | ⟨hf, -⟩
  · obtain ⟨c, l, hl⟩ := List.exists_cons_of_ne_nil hne
    exact ⟨c, by rw [hl]; rfl⟩
  · cases hf

/-- The block just walked is finished. -/
theorem frozen_walked (hB : Bookkeeping st) (ha : st.after = mbb :: rest)
    (D : BlockDone dummyInstr st mbb rest ft fakeBlock st') (W : Walk dummyInstr fin st') :
    fin.instrs mbb = st'.instrs mbb := by
  have hmem : mbb ∈ st.after := by simp [ha]
  have hm := hB.fresh mbb (by simp [hmem])
  obtain ⟨tr, hb, -⟩ := D.before
  refine W.frozen (Nat.lt_of_lt_of_le hm D.nextMBB)
    (fun h => D.bookkeeping.not_mem_before h (by simp [hb])) fun h => ?_
  rcases D.live mbb h with h | h
  · exact hB.not_current hmem h
  · omega

theorem singleton_eq_append {i j : MachineInstr} {pre : List MachineInstr}
    (h : [i] = pre ++ [j]) : pre = [] ∧ j = i := by
  cases pre with
  | nil => exact ⟨rfl, (List.cons.inj h).1.symm⟩
  | cons x pre => simp at h

/-- What becomes of a block split off. -/
theorem head_jump (W : Walk dummyInstr fin st) (hS : Shaped st) (hL : LanesOpen st)
    (ha : st.after = mbb :: rest) {mi : MachineInstr} (hi : st.instrs mbb = [mi])
    (hu : mi.isUnconditionalBranch) {d : Nat} (hd : mi.mbb? = some d) :
    ∃ z f, fin.instrs mbb = [lea targetRegOpcode z] ∧ FakeAfter fin mbb f ∧
      Route dummyInstr fin (st.processedMBBs.length + 1) z d := by
  cases W with
  | done _ hnil =>
    rw [hnil] at ha
    cases ha
  | @block _ st' c r fakeBlock hB ha' D W =>
    obtain ⟨rfl, rfl⟩ := List.cons_eq_cons.mp (ha'.symm.trans ha)
    have hmem : c ∈ st.after := by simp [ha]
    have hlen : st'.processedMBBs.length = st.processedMBBs.length + 1 := by
      rw [D.processedMBBs, List.length_append, List.length_singleton]
    cases hf : fakeBlock with
    | none =>
      have hret := (D.noFake hf).2
      have hl : (st.blocks c).instrs.getLast? = some mi := by
        show (st.instrs c).getLast? = some mi
        rw [hi]
        rfl
      rw [MachineBasicBlock.isReturnBlock, hl, Option.any_some,
        hS.noReturn c hmem mi (by simp [hi]) (isBranch_of_unconditional hu)] at hret
      cases hret
    | some f =>
      obtain ⟨o, ho, -, -⟩ := D.ending
      rw [← frozen_walked hB ha' D W] at ho
      generalize hcur : st.instrs c = is at ho
      generalize hfin : fin.instrs c = is' at ho
      rw [hi] at hcur
      cases ho with
      | empty => cases hcur
      | leave h =>
        rw [(singleton_eq_append hcur).2, hu] at h
        cases h
      | fall h =>
        rw [(singleton_eq_append hcur).2, hu] at h
        cases h
      | jump _ _ hd' hl =>
        obtain ⟨rfl, rfl⟩ := singleton_eq_append hcur
        cases hd.symm.trans hd'
        refine ⟨_, f, rfl, fakeAfter hB ha' D W hf, ?_⟩
        rw [← hlen]
        exact W.leads (D.shaped hB ha' hS) (D.lanesOpen hB ha' rfl hS hL) hl
      | cond h =>
        rw [(singleton_eq_append hcur).2] at h
        simp [MachineInstr.isUnconditionalBranch, MachineInstr.isBarrier, Opcode.desc, h] at hu
      | split =>
        have := congrArg List.length hcur
        simp at this

/-- A block split off jumps, over its fake block, to where its jump went. -/
theorem routed (W : Walk dummyInstr fin st) (hS : Shaped st) (hL : LanesOpen st) {c : Nat}
    (hc : c ∈ fin.processedMBBs) (hcp : c ∉ st.processedMBBs) (hca : c ∉ st.after) :
    ∃ i z f d, fin.processedMBBs[i]? = some c ∧ fin.instrs c = [lea targetRegOpcode z] ∧
      FakeAfter fin c f ∧ Route dummyInstr fin (i + 1) z d := by
  induction W with
  | done => exact absurd hc hcp
  | @block st st' mbb rest fakeBlock hB ha D W ih =>
    rw [ha, List.mem_cons, not_or] at hca
    have hS' := D.shaped hB ha hS
    have hL' := D.lanesOpen hB ha rfl hS hL
    by_cases hc' : c ∈ st'.after
    · obtain ⟨o, ho, hao, -⟩ := D.ending
      rw [hao, List.mem_append] at hc'
      have hco := hc'.resolve_right hca.2
      obtain ⟨N, rfl⟩ : ∃ N, o = some N := by
        cases o with
        | none => cases hco
        | some N => exact ⟨N, rfl⟩
      obtain rfl : c = N := by simpa using hco
      have haN : st'.after = c :: rest := hao
      have hproc := W.getElem?_length
      rw [haN] at hproc
      generalize st.instrs mbb = is at ho
      generalize st'.instrs mbb = is' at ho
      cases ho with
      | split _ _ hu _ _ _ hNi =>
        obtain ⟨z, f, hzi, hfa, hr⟩ := W.head_jump hS' hL' haN hNi hu rfl
        exact ⟨_, z, f, _, hproc, hzi, hfa, hr⟩
    · exact ih hS' hL' (by simp [D.processedMBBs, hcp, hca.1]) hc'

/-- What becomes of the next block. -/
theorem head (W : Walk dummyInstr fin st) (hS : Shaped st) (hL : LanesOpen st)
    (hlo : lo ≤ st.nextMBB) (ha : st.after = mbb :: rest) :
    BlockConverted dummyInstr fin lo rest.head? (st.blocks mbb) st.processedMBBs.length mbb := by
  have hproc := W.getElem?_length
  rw [ha] at hproc
  cases W with
  | done _ hnil =>
    rw [hnil] at ha
    cases ha
  | @block _ st' c r fakeBlock hB ha' D W =>
    obtain ⟨rfl, rfl⟩ := List.cons_eq_cons.mp (ha'.symm.trans ha)
    have hlen : st'.processedMBBs.length = st.processedMBBs.length + 1 := by
      rw [D.processedMBBs, List.length_append, List.length_singleton]
    have hS' := D.shaped hB ha' hS
    have hL' := D.lanesOpen hB ha' rfl hS hL
    have hleads : ∀ z d, st'.Leads z d → Route dummyInstr fin (st.processedMBBs.length + 1) z d :=
      fun z d h => hlen ▸ W.leads hS' hL' h
    have hnext : ∀ z c, st'.LeadsNext z → st'.after.head? = some c →
        Route dummyInstr fin (st.processedMBBs.length + 1) z c :=
      fun z c h hc => hlen ▸ W.leadsNext hS' hL' h hc
    have hsucc := BlockDone.layoutSucc_advance hB ha'
    have hft : FallThroughOf r.head? (st.blocks c) ((advance st c r).mf.getFallThrough c) :=
      hsucc ▸ fallThroughOf
    refine ⟨hproc, ?_, _, hft, ?_⟩
    · cases hf : fakeBlock with
      | none => exact .inr ⟨by rw [(D.noFake hf).1]; rfl, (D.noFake hf).2⟩
      | some f => exact .inl ⟨f, fakeAfter hB ha' D W hf⟩
    obtain ⟨o, ho, hao, hN⟩ := D.ending
    rw [← frozen_walked hB ha' D W] at ho
    show Converted dummyInstr fin lo r.head? _ _ (st.instrs c) (fin.instrs c)
    have hne := hS.nonempty c (by simp [ha])
    generalize st.instrs c = is at ho hne
    generalize fin.instrs c = is' at ho
    cases ho with
    | empty => exact absurd rfl hne
    | leave hu hc h => exact .leave hu hc h
    | fall hu hc hi hn h =>
      refine .fall hu hc hi hn (hnext _ _ h ?_)
      rw [hao]
      exact (hft.found _ hn).1
    | jump hu hp hd h => exact .jump hu hp hd (hleads _ _ h)
    | cond ho hd h h' =>
      obtain ⟨n, hn⟩ := leadsNext_head hL' h
      refine .cond ho hd ?_ (hnext _ _ h hn) (hleads _ _ h')
      rwa [hao] at hn
    | @split pre jcc mi cc d d' zF zT N ho hd hu hd' h h' hNi =>
      have hN' := (hN N rfl).1
      have haN : st'.after = N :: r := by rw [hao]; rfl
      obtain ⟨z, f, hzi, hfa, hr⟩ := W.head_jump hS' hL' haN hNi hu rfl
      have hNp := W.getElem?_length
      rw [hlen, haN] at hNp
      rw [hlen] at hr
      exact .split ho hd hu hd' (hnext _ _ h (by rw [haN]; rfl)) (hleads _ _ h') hNp
        (Nat.le_trans hlo hN') hzi hfa hr

/-- What becomes of every block still to walk. -/
theorem converted (W : Walk dummyInstr fin st) (hS : Shaped st) (hL : LanesOpen st)
    (hlo : lo ≤ st.nextMBB) {c : Nat} (hc : c ∈ st.after) :
    ∃ i, BlockConverted dummyInstr fin lo (nextOf st.after c) (st.blocks c) i c := by
  induction W with
  | done _ hnil =>
    rw [hnil] at hc
    cases hc
  | @block st st' mbb rest fakeBlock hB ha D W ih =>
    by_cases hcm : c = mbb
    · subst hcm
      refine ⟨st.processedMBBs.length, ?_⟩
      have hn : nextOf st.after c = rest.head? := by simp [ha, nextOf]
      rw [hn]
      exact (Walk.block hB ha D W).head hS hL hlo ha
    · have hcr : c ∈ rest := by simpa [ha, hcm] using hc
      have hlt := hB.fresh c (by simp [hc])
      obtain ⟨o, -, hao, hN⟩ := D.ending
      have hnext : nextOf st'.after c = nextOf st.after c := by
        rw [hao, ha, nextOf_append_right]
        · simp [nextOf, Ne.symm hcm]
        · intro h
          have := (hN c (Option.mem_toList.mp h)).1
          omega
      rw [← hnext, ← D.blocks c hlt hcm (hB.not_current hc)]
      exact ih (D.shaped hB ha hS) (D.lanesOpen hB ha rfl hS hL)
        (Nat.le_trans hlo D.nextMBB) (by rw [hao]; exact List.mem_append_right _ hcr)

/-- No block is walked twice. -/
theorem nodup_processedMBBs (W : Walk dummyInstr fin st) (h : st.processedMBBs.Nodup) :
    fin.processedMBBs.Nodup := by
  induction W with
  | done => exact h
  | @block st st' mbb rest fakeBlock hB ha D W ih =>
    refine ih ?_
    rw [D.processedMBBs]
    refine List.nodup_append.mpr ⟨h, List.nodup_singleton _, fun a ha' b hb hab => ?_⟩
    cases List.mem_singleton.mp hb
    obtain ⟨tr, code, hbe, -, hcode⟩ := hB.parts
    exact (List.nodup_append.mp hB.nodup).2.2 a (by simp [hbe, hcode a ha'])
      mbb (by simp [ha]) hab

end Walk

end BS.BranchConversion
