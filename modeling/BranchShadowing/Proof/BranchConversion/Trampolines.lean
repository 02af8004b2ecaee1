import BranchShadowing.Proof.BranchConversion.Reserved
import BranchShadowing.Spec.Trampolines

/-!
# Over trampolines to the next block

`Delivers` says of a trampoline what a machine does on it: control comes to the
block that it leads to, and lands in no other block of the input on the way. Every
trampoline that the walk makes delivers (`Walk.opens`), also in a function with
empty blocks, whose trampolines go on to be written behind the jump that ends them.
-/

namespace BS.BranchConversion

open X86 PassState

variable {dummyInstr : Bool} {mf : MachineFunction} {st st' fin : PassState}
  {mbb b c d f z : Nat} {rest : List Nat} {ft fakeBlock : Option Nat}

/-! ## The walk -/

namespace Walk

/-- A block that is laid out is only written to at its end. -/
theorem grows (W : Walk dummyInstr fin st) (hb : b ∈ st.before) :
    ∃ is, fin.instrs b = st.instrs b ++ is := by
  induction W with
  | done => exact ⟨[], (List.append_nil _).symm⟩
  | @block st st' mbb rest fakeBlock hB ha D W ih =>
    obtain ⟨tr, hbe, -⟩ := D.before
    obtain ⟨is, his⟩ := ih (by simp [hbe, hb])
    have hne : b ≠ mbb := by
      rintro rfl
      exact hB.not_mem_before (by simp [ha]) hb
    suffices h : ∃ js, st'.instrs b = st.instrs b ++ js by
      obtain ⟨js, hjs⟩ := h
      exact ⟨js ++ is, by rw [his, hjs, List.append_assoc]⟩
    by_cases hc : b ∈ currents st.takenBlocks
    · obtain ⟨lane, hl, hz⟩ := mem_currents.mp hc
      by_cases harr : lane.Arrives mbb
      · exact ⟨_, D.arrive lane hl harr b hz⟩
      · obtain ⟨z', f, -, -, -, hi⟩ := D.skip lane hl harr b hz
        exact ⟨_, hi⟩
    · exact ⟨[], by rw [D.instrs b (hB.fresh b (by simp [hb])) hne hc, List.append_nil]⟩

end Walk

/-! ## A machine on the way -/

variable {σ : Type} {Q : Program σ} {entry : Nat} {s : State σ}

theorem landing_exec (i : MachineInstr) (s : State σ) : landing mf (.exec b i s) = none := rfl

theorem landing_enter (hb : b ∉ mf.layout) (s : State σ) : landing mf (.enter b s) = none :=
  if_neg hb

/-- Trampoline `z` ends in a jump to `d`. -/
def Turns (fin : PassState) (z d : Nat) : Prop :=
  z ∈ fin.before ∧ z ∉ fin.processedMBBs ∧ ∃ is, fin.instrs z = jmp4 d :: is

theorem Turns.genuine (h : Turns fin z d) : Genuine fin z := by
  obtain ⟨hz, -, is, hi⟩ := h
  exact .of_instrs hz (by simp [hi, jmp4, jmp64r])

/-- From `t`, where the flags are `f`, control comes to block `d`, and lands in no block of
the input before; R15 points to the trampoline that it comes from. -/
def ComesTo (mf : MachineFunction) (Q : Program σ) (fin : PassState) (dummies : Bool)
    (t : Cfg σ) (f : EFlags) (d : Nat) : Prop :=
  ∃ k es s z, Q.system.StepsIn k t (es ++ [.enter d s]) (.run d (Q.instrs d) s) ∧
    es.filterMap (landing mf) = [] ∧ FlagsAfter dummies f s.eflags ∧ Turns fin z d ∧
    s.gpr .r15 = Q.addr z

theorem ComesTo.after {a dummies : Bool} {t t' : Cfg σ} {f f' : EFlags} {k : Nat}
    {es : List (Event σ)} (h : ComesTo mf Q fin dummies t' f' d)
    (hs : Q.system.StepsIn k t es t') (hl : es.filterMap (landing mf) = [])
    (hf : FlagsAfter a f f') : ComesTo mf Q fin (a || dummies) t f d := by
  obtain ⟨m, fs, s, z, hm, hfs, hf', hz⟩ := h
  refine ⟨k + m, es ++ fs, s, z, ?_, ?_, hf.trans hf', hz⟩
  · rw [List.append_assoc]
    exact hs.trans hm
  · rw [List.filterMap_append, hl, hfs, List.nil_append]

/-- Over a block that is not of the input. -/
theorem ComesTo.trans {a dummies : Bool} {t : Cfg σ} {f : EFlags}
    (h : ComesTo mf Q fin a t f c) (hc : c ∉ mf.layout)
    (h' : ∀ s, ComesTo mf Q fin dummies (.run c (Q.instrs c) s) s.eflags d) :
    ComesTo mf Q fin (a || dummies) t f d := by
  obtain ⟨k, es, s, z, hs, hl, hf, -⟩ := h
  exact (h' s).after hs (by simp [hl, landing_enter hc]) hf

/-- On trampoline `z` control comes to block `d`. -/
def Delivers (mf : MachineFunction) (Q : Program σ) (fin : PassState) (dummies : Bool)
    (z d : Nat) : Prop :=
  Genuine fin z ∧ z ∉ fin.processedMBBs ∧
    ∀ s, s.gpr .r15 = Q.addr z → ComesTo mf Q fin dummies (.run z (Q.instrs z) s) s.eflags d

/-- The walk over the function has ended, and its result is in memory. -/
structure Transit (dummyInstr : Bool) (mf : MachineFunction) (Q : Program σ) (fin : PassState)
    (entry : Nat) : Prop where
  emitted : Emitted mf
  walk : Walk dummyInstr fin (start mf)
  placed : Placed Q fin entry
  object : Q.reading = .object

namespace Transit

variable (T : Transit dummyInstr mf Q fin entry)
include T

theorem mem_processed (hb : b ∈ mf.layout) : b ∈ fin.processedMBBs := by
  obtain ⟨pre, rest, ha⟩ := List.append_of_mem hb
  obtain ⟨st₁, st₂, fb, -, -, D, W, -⟩ := T.walk.atBlock (show (start mf).after = _ from ha)
  refine W.processedMBBs.subset ?_
  rw [D.processedMBBs]
  exact List.mem_append_right _ (List.mem_singleton_self b)

theorem not_mem (hz : z ∉ fin.processedMBBs) : z ∉ mf.layout := fun h => hz (T.mem_processed h)

/-- A trampoline that jumps delivers. -/
theorem of_turns (h : Turns fin z d) : Delivers mf Q fin false z d := by
  have hg := h.genuine
  obtain ⟨hz, hzp, is, hi⟩ := h
  refine ⟨hg, hzp, fun s hs => ⟨1, [.exec z (jmp4 d) s], s, z, ?_, rfl, rfl, ⟨hz, hzp, is, hi⟩, hs⟩⟩
  rw [T.placed.instrs hz, hi]
  exact Q.stepsIn_goto (exec_jmp4 Q s d)

/-- What control goes over when it leaves a block, before it lands, is of the pass. -/
theorem fakeAfter_not_mem (hf : FakeAfter fin c f) : f ∉ mf.layout := T.not_mem hf.2.2

/-- Control that runs off a block comes over its fake block and the trampoline in R15 to
where that leads. -/
theorem run_off {a : Bool} (hf : FakeAfter fin c f) (h : Delivers mf Q fin a z d)
    (hs : s.gpr .r15 = Q.addr z) : ComesTo mf Q fin a (.run c [] s) s.eflags d := by
  obtain ⟨hz, hzp, h⟩ := h
  refine (h s hs).after (a := false) (T.placed.run_fake hf hz hs) ?_ rfl
  simp [landing_exec, landing_enter (T.fakeAfter_not_mem hf), landing_enter (T.not_mem hzp)]

end Transit

/-! ## The lanes -/

/-- Trampoline `z`, still empty, is that of a lane that comes to `d`. -/
def PassState.Opens (st : PassState) (z d : Nat) : Prop :=
  st.instrs z = [] ∧ ∃ lane ∈ st.takenBlocks, lane.currentMBB = some z ∧
    (lane.taken = true ∧ st.after.head? = some d ∨
      lane.taken = false ∧ lane.destMBB = some d ∧ d ∈ st.after)

/-- Whether a trampoline to `d` gets dummy instructions: those for the blocks from here to
`d` of more than two instructions. -/
def PassState.dummiesTo (st : PassState) (dummyInstr : Bool) (d : Nat) : Bool :=
  dummyInstr && (st.after.takeWhile (· != d)).any fun e => decide (2 < (st.instrs e).length)

namespace BlockDone

variable (D : BlockDone dummyInstr st mbb rest ft fakeBlock st') (hB : Bookkeeping st)
  (ha : st.after = mbb :: rest)
include D hB ha

/-- The dummy instructions to a block behind the one walked. The block split off, of one
instruction, has none. -/
theorem dummiesTo_rest (hd : d ∈ rest) : st'.dummiesTo dummyInstr d =
    (dummyInstr && (rest.takeWhile (· != d)).any fun e => decide (2 < (st.instrs e).length)) := by
  obtain ⟨o, ho, hao, hN⟩ := D.ending
  have hrest : (rest.takeWhile (· != d)).any (fun e => decide (2 < (st'.instrs e).length)) =
      (rest.takeWhile (· != d)).any fun e => decide (2 < (st.instrs e).length) := by
    rw [Bool.eq_iff_iff, List.any_eq_true, List.any_eq_true]
    refine exists_congr fun e => and_congr_right fun he => ?_
    rw [D.instrs_rest hB ha ((List.takeWhile_sublist _).subset he)]
  rw [PassState.dummiesTo, ← hrest]
  cases o with
  | none => rw [hao, Option.toList_none, List.nil_append]
  | some N =>
    have hlo := (hN N rfl).1
    have hold : ∀ b ∈ rest, b < st.nextMBB := fun b hb => hB.fresh b (by simp [ha, hb])
    have hNd : N ≠ d := fun h => Nat.not_lt.mpr hlo (h ▸ hold d hd)
    have hNr : N ∉ rest := fun h => Nat.not_lt.mpr hlo (hold N h)
    obtain ⟨mi, -, d', -, -, hi⟩ := D.split_instrs (N := N) (by simp [hao]) hNr
    simp [hao, hNd, hi]

/-- The dummy instructions left when a block has been skipped. -/
theorem dummiesTo (hd : d ∈ rest) (hne : d ≠ mbb) : st.dummiesTo dummyInstr d =
    (dummyInstr && decide (2 < (st.instrs mbb).length) || st'.dummiesTo dummyInstr d) := by
  rw [D.dummiesTo_rest hB ha hd, PassState.dummiesTo, ha, List.takeWhile_cons,
    if_pos (by simpa using hne.symm), List.any_cons, Bool.and_or_distrib_left]

omit hB ha in
/-- The trampolines of the lanes are empty behind a block with instructions. -/
theorem lane_empty (hne : st.instrs mbb ≠ []) {lane : BlockLane} (hl : lane ∈ st'.takenBlocks)
    (hz : lane.currentMBB = some z) : st'.instrs z = [] := by
  rcases (D.lanes hne).2 lane hl with ⟨_, -, -, -, z', rfl, hi⟩ | h
  · cases hz
    exact hi
  · cases h <;> cases hz <;> assumption

end BlockDone

theorem Walk.opens (T : Transit dummyInstr mf Q fin entry) (W : Walk dummyInstr fin st)
    (h : st.Opens z d) : Delivers mf Q fin (st.dummiesTo dummyInstr d) z d := by
  induction W generalizing z with
  | done _ ha =>
    obtain ⟨-, lane, -, -, ⟨-, h⟩ | ⟨-, -, h⟩⟩ := h
    · rw [ha] at h
      cases h
    · rw [ha] at h
      cases h
  | @block st st' mbb rest fakeBlock hB ha D W ih =>
    obtain ⟨hempty, lane, hl, hz, hlane⟩ := h
    have hzc := currents_mem hl hz
    have hzb : z ∈ st.before := by
      obtain ⟨tr, code, hb, htr, -⟩ := hB.parts
      rw [hb]
      exact List.mem_append_left _ (htr z hzc)
    have W₀ := Walk.block hB ha D W
    have hzf := W₀.mem_before hzb
    have hzp := W₀.not_processed hzb (hB.current_not_processed hzc)
    obtain ⟨tr, hbe, -⟩ := D.before
    obtain ⟨is, his⟩ := W.grows (b := z) (by simp [hbe, hzb])
    by_cases harr : lane.Arrives mbb
    · have hd : d = mbb := by
        rw [ha] at hlane
        obtain ⟨-, h⟩ | ⟨ht, h, -⟩ := hlane
        · exact (Option.some.inj h).symm
        · exact Option.some.inj (h.symm.trans (harr.resolve_left (by simp [ht])))
      have hnone : st.dummiesTo dummyInstr d = false := by
        simp [PassState.dummiesTo, ha, hd]
      rw [hnone]
      refine T.of_turns ⟨hzf, hzp, is, ?_⟩
      rw [his, D.arrive lane hl harr z hz, hempty, hd]
      rfl
    · obtain ⟨z', f, hf, hl', hempty', hi⟩ := D.skip lane hl harr z hz
      obtain ⟨ht, -⟩ | ⟨ht, hdest, hmem⟩ := hlane
      · exact absurd (.inl ht) harr
      have hne : d ≠ mbb := fun h => harr (.inr (h ▸ hdest))
      have hd : d ∈ rest := by
        rw [ha] at hmem
        exact (List.mem_cons.mp hmem).resolve_left hne
      have hfa := W.fakeAfter hB ha D hf
      have hopen : st'.Opens z' d := by
        obtain ⟨o, -, hao, -⟩ := D.ending
        refine ⟨hempty', _, hl', rfl, .inr ⟨ht, hdest, ?_⟩⟩
        rw [hao]
        exact List.mem_append_right _ hd
      obtain ⟨hzb', hzp', h'⟩ := ih hopen
      rw [D.dummiesTo hB ha hd hne]
      have hcode := (his.trans (congrArg (· ++ is) hi)).trans
        (by rw [hempty, List.nil_append])
      refine ⟨.of_instrs hzf (hcode ▸ skipTo_append_ne _ z' f is), hzp, fun s _ => ?_⟩
      obtain ⟨k, es, s', -, hs, hes, -, hflags, hr⟩ := T.placed.run_skip hfa hzb' is s
      rw [T.placed.instrs hzf, hcode]
      refine (h' s' hr).after hs ?_ hflags
      rw [List.filterMap_eq_nil_iff]
      intro e he
      simp only [List.mem_append, List.mem_cons, List.not_mem_nil, or_false] at he
      rcases he with he | rfl | rfl | rfl
      · obtain ⟨i, s, rfl⟩ := hes e he
        rfl
      · exact landing_enter (T.fakeAfter_not_mem hfa) s'
      · rfl
      · exact landing_enter (T.not_mem hzp') s'

/-! ## The end of a block -/

namespace Transit

variable (T : Transit dummyInstr mf Q fin entry)
include T

section

variable (hB : Bookkeeping st) (ha : st.after = mbb :: rest)
  (D : BlockDone dummyInstr st mbb rest ft fakeBlock st') (W : Walk dummyInstr fin st')
  (hne : st.instrs mbb ≠ [])
include hB ha D W hne

omit hB ha in
/-- The trampoline that the walk takes to the next block. -/
theorem leadsNext (h : st'.LeadsNext z) (hd : st'.after.head? = some d) :
    Delivers mf Q fin false z d := by
  obtain ⟨l, hl⟩ := List.head?_eq_some_iff.mp hd
  have hnone : st'.dummiesTo dummyInstr d = false := by simp [PassState.dummiesTo, hl]
  rw [← hnone]
  exact W.opens T ⟨D.lane_empty hne h rfl, _, h, rfl, .inl ⟨rfl, hd⟩⟩

/-- The trampoline that a branch to `d` takes. -/
theorem leads (h : st'.Leads z d) (hd : d ∈ st'.processedMBBs ∨ d ∈ rest) :
    ∃ a, Delivers mf Q fin a z d ∧ (a = true ↔ dummyInstr = true ∧ d ∈ rest ∧
      ∃ e ∈ rest.takeWhile (· != d), 2 < (st.instrs e).length) := by
  obtain ⟨o, -, hao, -⟩ := D.ending
  have hproc (hr : d ∈ rest) : d ∉ st'.processedMBBs := fun hp => by
    obtain ⟨tr, code, hb, -, hcode⟩ := D.bookkeeping.parts
    exact D.bookkeeping.not_mem_before (b := d) (by simp [hao, hr]) (by simp [hb, hcode d hp])
  obtain ⟨hl, hdp⟩ | ⟨hdp, hzp, hzb, -, hi⟩ := h
  · have hr := hd.resolve_left hdp
    refine ⟨_, W.opens T ⟨D.lane_empty hne hl rfl, _, hl, rfl, .inr ⟨rfl, rfl, ?_⟩⟩, ?_⟩
    · rw [hao]
      exact List.mem_append_right _ hr
    · rw [D.dummiesTo_rest hB ha hr]
      simp [hr]
  · obtain ⟨is, his⟩ := W.grows hzb
    refine ⟨false, T.of_turns ⟨W.mem_before hzb, W.not_processed hzb hzp, is, ?_⟩, ?_⟩
    · rw [his, hi]
      rfl
    · simp only [Bool.false_eq_true, false_iff]
      exact fun h => hproc h.2.1 hdp

end

/-- The end that replaces a jump or a fall-through. -/
theorem run_lea {a : Bool} (hf : FakeAfter fin c f) (h : Delivers mf Q fin a z d) (s : State σ) :
    ComesTo mf Q fin a (.run c [lea .r15 z] s) s.eflags d := by
  have hlea : Q.system.StepsIn 1 (.run c [lea .r15 z] s) _ _ := Q.stepsIn_next (exec_lea Q s .r15 z)
  exact (T.run_off hf h (s := s.setReg .r15 (Q.addr z)) (by simp)).after (a := false) hlea rfl rfl

/-- The end that replaces a conditional branch. -/
theorem run_select {aF aT : Bool} {zF zT dF dT : Nat} (cc : Cond) (hf : FakeAfter fin c f)
    (hF : Delivers mf Q fin aF zF dF) (hT : Delivers mf Q fin aT zT dT) (s : State σ) :
    ComesTo mf Q fin (if cc.holds s.eflags then aT else aF)
      (.run c [lea .r15 zF, lea .r13 zT, cmov (.cmov64rr cc)] s) s.eflags
      (if cc.holds s.eflags then dT else dF) := by
  let s₁ := s.setReg .r15 (Q.addr zF)
  let s₂ := s₁.setReg .r13 (Q.addr zT)
  have h₁ : Q.system.StepsIn 1 (.run c [lea .r15 zF, lea .r13 zT, cmov (.cmov64rr cc)] s) _ _ :=
    Q.stepsIn_next (exec_lea Q s .r15 zF)
  have h₂ : Q.system.StepsIn 1 (.run c [lea .r13 zT, cmov (.cmov64rr cc)] s₁) _ _ :=
    Q.stepsIn_next (exec_lea Q s₁ .r13 zT)
  have h₃ : Q.system.StepsIn 1 (.run c [cmov (.cmov64rr cc)] s₂) _ _ :=
    Q.stepsIn_next (exec_cmov_object Q s₂ T.object cc)
  have hs := (h₁.trans h₂).trans h₃
  have heflags : s₂.eflags = s.eflags := rfl
  by_cases hc : cc.holds s.eflags
  · simp only [heflags, hc, if_true] at hs ⊢
    exact (T.run_off hf hT (s := s₂.setReg .r15 (s₂.gpr .r13)) (by simp [s₂])).after (a := false) hs
      rfl rfl
  · simp only [heflags, hc] at hs ⊢
    exact (T.run_off hf hF (s := s₂) (by simp [s₁, s₂])).after (a := false) hs rfl rfl

end Transit

end BS.BranchConversion
