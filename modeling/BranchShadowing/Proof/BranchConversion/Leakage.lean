import BranchShadowing.Framework.Marks
import BranchShadowing.Proof.BranchConversion.Completeness
import BranchShadowing.Proof.BranchConversion.Preservation

/-!
# What a run shows to an attacker

Where no block has two conditional branches and none an indirect jump, control leaves
every body of the output over its fake block, and a trampoline takes it to a body or
over the next fake block (`Flows.paced`). Which fake jumps a run executes then follows
from its backward jumps and the block it leaves in (`fakeJumps_eq_path`), and so does
not depend on any forward decision (`runOnMachineFunction_shielded`).
-/

namespace BS.BranchConversion

open X86 PassState

/-! ## Chains of marks -/

/-- The fake jumps of a run from body `i` on that makes the backward jumps `bs` and
leaves in body `e`. -/
def path : Nat → List (Nat × Nat) → Nat → List Nat
  | i, [], e => List.range' i (e - i)
  | i, (k, j) :: bs, e => List.range' i (k + 1 - i) ++ path j bs e

/-- Such a run goes over fake block `i` next. -/
def Passes (i : Nat) : List (Nat × Nat) → Nat → Prop
  | [], e => i < e
  | (k, _) :: _, _ => i ≤ k

theorem path_of_passes {i e : Nat} {bs : List (Nat × Nat)} (h : Passes i bs e) :
    path i bs e = i :: path (i + 1) bs e := by
  have hr {n : Nat} (hn : i < n) : List.range' i (n - i) = i :: List.range' (i + 1) (n - (i + 1)) := by
    rw [show n - i = n - (i + 1) + 1 by omega, List.range'_succ]
  match bs with
  | [] => exact hr h
  | (k, j) :: bs =>
    have hk : i ≤ k := h
    show List.range' i (k + 1 - i) ++ _ = i :: (List.range' (i + 1) (k + 1 - (i + 1)) ++ _)
    rw [hr (by omega), List.cons_append]

/-- The fake block that comes next behind a mark. -/
def Mark.next : Mark → Nat
  | .land i => i
  | .fake i => i + 1

/-- What follows a mark in a chain that ends in body `e`. -/
theorem fakeJumps_tail {m : Mark} {ms : List Mark} {e : Nat}
    (hc : (m :: ms).IsChain Mark.Leads) (he : (m :: ms).getLast? = some (.land e)) :
    fakeJumps ms = path m.next (backwardJumps (m :: ms)) e ∧
      ∀ i < m.next, Passes i (backwardJumps (m :: ms)) e := by
  induction ms generalizing m with
  | nil =>
    cases Option.some.inj he
    refine ⟨?_, fun i hi => hi⟩
    show [] = List.range' e (e - e)
    rw [Nat.sub_self]
    rfl
  | cons m' ms ih =>
    obtain ⟨hl, hc⟩ := List.isChain_cons_cons.mp hc
    rw [List.getLast?_cons_cons] at he
    obtain ⟨hf, hp⟩ := ih hc he
    match m, m', hl with
    | .fake i, .fake j, hl =>
      obtain rfl : j = i + 1 := hl
      have hp' := hp (i + 1) (Nat.lt_succ_self _)
      refine ⟨?_, fun k hk => hp k (Nat.lt_succ_of_lt hk)⟩
      show (i + 1) :: fakeJumps ms = path (i + 1) (backwardJumps (.fake (i + 1) :: ms)) e
      rw [hf, path_of_passes hp']
      rfl
    | .fake i, .land j, hl =>
      have hl : j ≤ i + 1 := hl
      by_cases hj : j ≤ i
      · have hb : backwardJumps (.fake i :: .land j :: ms) =
            (i, j) :: backwardJumps (.land j :: ms) := by rw [backwardJumps, if_pos hj]
        rw [hb]
        refine ⟨?_, fun k hk => Nat.le_of_lt_succ hk⟩
        show fakeJumps ms = List.range' (i + 1) (i + 1 - (i + 1)) ++ _
        rw [Nat.sub_self]
        exact hf
      · obtain rfl : j = i + 1 := by omega
        have hb : backwardJumps (.fake i :: .land (i + 1) :: ms) =
            backwardJumps (.land (i + 1) :: ms) := by rw [backwardJumps, if_neg hj]
        rw [hb]
        exact ⟨hf, hp⟩
    | .land i, .fake j, hl =>
      obtain rfl : j = i := hl
      have hp' := hp j (Nat.lt_succ_self _)
      refine ⟨?_, fun k hk => hp k (Nat.lt_succ_of_lt hk)⟩
      show j :: fakeJumps ms = path j (backwardJumps (.fake j :: ms)) e
      rw [hf, path_of_passes hp']
      rfl

/-- The fake jumps of a run depend on its backward jumps and on where it leaves. -/
theorem fakeJumps_eq_path {ms : List Mark} {e : Nat} (hc : ms.IsChain Mark.Leads)
    (hh : ∀ m ∈ ms.head?, m = .land 0) (he : ms.getLast? = some (.land e)) :
    fakeJumps ms = path 0 (backwardJumps ms) e := by
  cases ms with
  | nil => cases he
  | cons m ms =>
    obtain rfl := hh m rfl
    exact (fakeJumps_tail hc he).1

/-! ## The marks of the output -/

variable {σ : Type} {dummyInstr : Bool} {mf : MachineFunction} {fin : PassState} {entry : Nat}

/-- The bodies of `out` are the blocks walked, and the fake block behind the `i`-th of
them is the `i`-th. -/
structure Woven (mf : MachineFunction) (fin : PassState) (out : MachineFunction) : Prop where
  interleaved : Interleaved mf out
  bodies : bodyBlocks mf out = fin.processedMBBs
  fake : ∀ {i c f : Nat}, fin.processedMBBs[i]? = some c → FakeAfter fin c f →
    (fakeBlocks mf out)[i]? = some f
  instrs : ∀ f ∈ fakeBlocks mf out, f ∈ fin.before ∧ fin.instrs f = [jmp64r] ∧ f ∉ fin.processedMBBs
  nodup : (fakeBlocks mf out).Nodup

theorem woven_of_walk (hmf : WellFormed mf) (hj : JumpsStay (start mf))
    (hentry : mf.layout.head? = some entry) (W : Walk dummyInstr fin (start mf)) :
    Woven mf fin (addFrontBlock fin entry).mf := by
  obtain ⟨cs, fs, ⟨tr, hlay⟩, hproc, hle, hle', hin, hcode, hfs⟩ :=
    codeBlocks_of_walk hmf hj hentry W
  have hinstrs {b : Nat} (hb : b ∈ weave cs fs) :
      ((addFrontBlock fin entry).mf.blocks b).instrs = fin.instrs b := by
    rw [W.out_blocks entry (hin b hb)]
    rfl
  have hcs : ∀ c ∈ cs, isFakeBlock mf (addFrontBlock fin entry).mf c = false := by
    intro c hc
    by_cases hl : c ∈ mf.layout
    · simp [isFakeBlock, hl]
    · obtain ⟨-, z, hz⟩ := W.splitOff (hproc ▸ hc) (by simp [start]) hl
      simp [isFakeBlock, hinstrs (mem_weave.mpr (.inl hc)), hz, lea, jmp64r]
  have hfk : ∀ f ∈ fs, isFakeBlock mf (addFrontBlock fin entry).mf f = true := by
    intro f hf
    have hl : f ∉ mf.layout := fun h => absurd (hmf.fresh f h) (Nat.not_lt.mpr (hfs f hf).1)
    simp [isFakeBlock, hl, hinstrs (mem_weave.mpr (.inr hf)), (hfs f hf).2.1]
  have hfakes : fakeBlocks mf (addFrontBlock fin entry).mf = fs := by
    rw [fakeBlocks, hcode, filter_weave hcs hfk]
  have hbodies : bodyBlocks mf (addFrontBlock fin entry).mf = cs := by
    rw [bodyBlocks, hcode]
    exact filter_not_weave hcs hfk
  have hnd : fin.before.Nodup := (List.nodup_append.mp W.bookkeeping_fin.nodup).1
  rw [hlay] at hnd
  have hndw := (List.nodup_append.mp hnd).2.1
  have hnext {b : Nat} (hb : b ∈ weave cs fs) : nextOf fin.before b = nextOf (weave cs fs) b := by
    rw [hlay]
    exact nextOf_append_right fun h => (List.nodup_append.mp hnd).2.2 b h b hb rfl
  refine ⟨⟨?_, fun i f hi => ?_, fun i f hi => ?_⟩, hbodies.trans hproc.symm, ?_, ?_, ?_⟩
  · intro c hc
    rw [hbodies, ← hproc]
    exact W.mem_processedMBBs hc
  · rw [hfakes] at hi
    obtain ⟨c, hc⟩ : ∃ c, cs[i]? = some c := by
      have hlt : i < cs.length := Nat.lt_of_lt_of_le (List.getElem?_eq_some_iff.mp hi).1 hle
      exact ⟨cs[i], List.getElem?_eq_getElem hlt⟩
    have hcw : c ∈ weave cs fs := mem_weave.mpr (.inl (List.mem_of_getElem? hc))
    refine ⟨c, by rw [hbodies, hc], ?_⟩
    rw [W.out_layoutSucc entry (hin c hcw), hnext hcw, nextOf_weave_left hndw hle' hc, hi]
  · rw [hfakes] at hi
    have hfw : f ∈ weave cs fs := mem_weave.mpr (.inr (List.mem_of_getElem? hi))
    rw [W.out_layoutSucc entry (hin f hfw), hnext hfw, nextOf_weave_right hndw hle hi, hbodies]
  · intro i c f hi hf
    rw [hproc] at hi
    have hcw : c ∈ weave cs fs := mem_weave.mpr (.inl (List.mem_of_getElem? hi))
    rw [hfakes, ← nextOf_weave_left hndw hle' hi, ← hnext hcw]
    exact hf.1
  · intro f hf
    rw [hfakes] at hf
    exact ⟨hin f (mem_weave.mpr (.inr hf)), (hfs f hf).2⟩
  · rw [hfakes, ← filter_weave hcs hfk]
    exact hndw.filter _

section

variable {out : MachineFunction} (hw : Woven mf fin out) (hnd : fin.processedMBBs.Nodup)

theorem watch_exec_of_not_fake {b : Nat} {i : MachineInstr} {s : State σ}
    (h : b ∉ fakeBlocks mf out) : watch mf out (.exec b i s) = none := by
  rw [watch, List.idxOf?_eq_none_iff.mpr h, Option.map_none]

include hw

theorem watch_exec_fake {k f : Nat} {i : MachineInstr} {s : State σ}
    (h : (fakeBlocks mf out)[k]? = some f) : watch mf out (.exec f i s) = some (.fake k) := by
  rw [watch, idxOf?_of_nodup hw.nodup h, Option.map_some]

theorem watch_enter_of_not_body {b : Nat} {s : State σ} (h : b ∉ fin.processedMBBs) :
    watch mf out (.enter b s) = none := by
  rw [watch, hw.bodies, List.idxOf?_eq_none_iff.mpr h, Option.map_none]

include hnd in
theorem watch_enter_body {k c : Nat} {s : State σ} (h : fin.processedMBBs[k]? = some c) :
    watch mf out (.enter c s) = some (.land k) := by
  rw [watch, hw.bodies, idxOf?_of_nodup hnd h, Option.map_some]

end

/-! ## From mark to mark -/

/-- `Q` is the converted function in memory: no block had two conditional branches, none
an indirect jump, and a call without successors does not come back. -/
structure Flows (dummyInstr : Bool) (mf : MachineFunction) (Q : Program σ) (fin : PassState)
    (entry : Nat) : Prop where
  convertible : Convertible mf
  single : ∀ c ∈ mf.layout, (mf.blocks c).instrs.countP MachineInstr.isConditionalBranch ≤ 1
  direct : ∀ c ∈ mf.layout, ∀ i ∈ (mf.blocks c).instrs, i.isIndirectBranch = false
  head : mf.layout.head? = some entry
  walked : Walked dummyInstr mf fin
  placed : Placed Q fin entry
  woven : Woven mf fin Q.mf
  leave : CallsLeave mf Q.target

/-- Control is at a mark: it lands in a body, or in a trampoline behind a fake block. -/
def AtMark (dummyInstr : Bool) (Q : Program σ) (fin : PassState) : Mark → Cfg σ → Prop
  | .land i, t => ∃ c s, fin.processedMBBs[i]? = some c ∧ t = .run c (Q.instrs c) s
  | .fake i, t => ∃ z d s, Route dummyInstr fin (i + 1) z d ∧ t = .run z (Q.instrs z) s

/-- Control has left the function in the body where it landed last. -/
def LastMark (fin : PassState) : Mark → Cfg σ → Prop
  | .land i, t => ∃ c o s, fin.processedMBBs[i]? = some c ∧ t = .done c o s ∧
      (o = .ret ∨ o = .tailCall ∨ o = .gone)
  | .fake _, _ => False

namespace Flows

variable {Q : Program σ} {c f i z d : Nat} {s : State σ} (F : Flows dummyInstr mf Q fin entry)
include F

theorem not_fake_of_processed (h : c ∈ fin.processedMBBs) : c ∉ fakeBlocks mf Q.mf :=
  fun hf => (F.woven.instrs c hf).2.2 h

theorem not_fake_of_route (h : Route dummyInstr fin i z d) : z ∉ fakeBlocks mf Q.mf := by
  intro hf
  have hi := (F.woven.instrs z hf).2.1
  cases h with
  | arrive _ _ hz =>
    rw [hz] at hi
    cases hi
  | skip _ _ _ _ hz =>
    have := congrArg List.getLast? (hz.symm.trans hi)
    simp [skipTo, jmp4, jmp64r] at this

/-- What is seen of the jump of a fake block. -/
theorem seen_fake (hi : fin.processedMBBs[i]? = some c) (hf : FakeAfter fin c f)
    (hz : z ∉ fin.processedMBBs) {es : List (Event σ)} (hes : ∀ e ∈ es, watch mf Q.mf e = none)
    (s s₁ : State σ) :
    (es ++ [Event.enter f s, .exec f jmp64r s, .enter z s₁]).filterMap (watch mf Q.mf) =
      [.fake i] := by
  rw [List.filterMap_append, List.filterMap_eq_nil_iff.mpr hes, List.nil_append,
    List.filterMap_cons_none (watch_enter_of_not_body F.woven hf.2.2),
    List.filterMap_cons_some (watch_exec_fake F.woven (F.woven.fake hi hf)),
    List.filterMap_cons_none (watch_enter_of_not_body F.woven hz)]
  rfl

/-- Off the end of a body, and over its fake block to the trampoline in R15. -/
theorem over_fake (hi : fin.processedMBBs[i]? = some c) (hf : FakeAfter fin c f)
    (hr : Route dummyInstr fin (i + 1) z d) (hs : s.gpr .r15 = Q.addr z) :
    ∃ t, Q.system.Shows (watch mf Q.mf) (.run c [] s) [.fake i] t ∧
      AtMark dummyInstr Q fin (.fake i) t := by
  have hseen := F.seen_fake hi hf hr.mem.2 (List.forall_mem_nil _) s s
  exact ⟨_, (F.placed.run_fake hf hr.genuine hs).shows hseen, z, d, s, hr, rfl⟩

/-- An instruction of a body is not seen. -/
theorem shows_instr {mi : MachineInstr} {is : List MachineInstr} {s₁ : State σ}
    (hi : fin.processedMBBs[i]? = some c) (h : Q.exec mi s = .next s₁) :
    Q.system.Shows (watch mf Q.mf) (.run c (mi :: is) s) [] (.run c is s₁) := by
  refine (Q.stepsIn_next h).shows ?_
  rw [List.filterMap_cons_none
    (watch_exec_of_not_fake (F.not_fake_of_processed (List.mem_of_getElem? hi)))]
  rfl

theorem shows_exit {mi : MachineInstr} {is : List MachineInstr} {o : Exit} {s₁ : State σ}
    (hi : fin.processedMBBs[i]? = some c) (h : Q.exec mi s = .exit o s₁) :
    Q.system.Shows (watch mf Q.mf) (.run c (mi :: is) s) [] (.done c o s₁) := by
  refine (Q.stepsIn_exit h).shows ?_
  rw [List.filterMap_cons_none
    (watch_exec_of_not_fake (F.not_fake_of_processed (List.mem_of_getElem? hi)))]
  rfl

/-- Over the fake block of the body, or out of the function. -/
def Leaving (Q : Program σ) (dummyInstr : Bool) (mf : MachineFunction) (fin : PassState) (i : Nat)
    (t : Cfg σ) : Prop :=
  (∃ t', Q.system.Shows (watch mf Q.mf) t [.fake i] t' ∧ AtMark dummyInstr Q fin (.fake i) t') ∨
    ∃ t', Q.system.Shows (watch mf Q.mf) t [] t' ∧ LastMark fin (.land i) t'

omit F in
theorem Leaving.of_shows {t t' : Cfg σ} (h : Q.system.Shows (watch mf Q.mf) t [] t')
    (hl : Leaving Q dummyInstr mf fin i t') : Leaving Q dummyInstr mf fin i t := by
  rcases hl with ⟨t'', hs, ha⟩ | ⟨t'', hs, ha⟩
  · exact .inl ⟨t'', h.trans hs, ha⟩
  · exact .inr ⟨t'', h.trans hs, ha⟩

/-- The end that replaces a jump or a fall-through. -/
theorem leaving_lea (hi : fin.processedMBBs[i]? = some c) (hf : FakeAfter fin c f)
    (hr : Route dummyInstr fin (i + 1) z d) (s : State σ) :
    Leaving Q dummyInstr mf fin i (.run c [lea .r15 z] s) := by
  refine .of_shows (F.shows_instr hi (exec_lea Q s .r15 z)) (.inl ?_)
  exact F.over_fake hi hf hr (by simp)

/-- The end that replaces a conditional branch: under either reading of the CMOV R15
holds the one trampoline or the other. -/
theorem leaving_select {zF zT dF dT : Nat} (cc : Cond) (hi : fin.processedMBBs[i]? = some c)
    (hf : FakeAfter fin c f) (hF : Route dummyInstr fin (i + 1) zF dF)
    (hT : Route dummyInstr fin (i + 1) zT dT) (s : State σ) :
    Leaving Q dummyInstr mf fin i
      (.run c [lea .r15 zF, lea .r13 zT, cmov (.cmov64rr cc)] s) := by
  let s₂ := (s.setReg .r15 (Q.addr zF)).setReg .r13 (Q.addr zT)
  refine .of_shows (F.shows_instr hi (exec_lea Q s .r15 zF)) ?_
  refine .of_shows (F.shows_instr hi (exec_lea Q _ .r13 zT)) ?_
  have hcmov : ∃ s₃, Q.exec (cmov (.cmov64rr cc)) s₂ = .next s₃ ∧
      (s₃.gpr .r15 = Q.addr zF ∨ s₃.gpr .r15 = Q.addr zT) := by
    cases hr : Q.reading with
    | asm =>
      refine ⟨_, exec_cmov_asm Q s₂ hr cc, .inl ?_⟩
      split <;> simp [s₂]
    | object =>
      refine ⟨_, exec_cmov_object Q s₂ hr cc, ?_⟩
      split
      · exact .inr (by simp [s₂])
      · exact .inl (by simp [s₂])
  obtain ⟨s₃, hs₃, hr⟩ := hcmov
  refine .of_shows (F.shows_instr hi hs₃) (.inl ?_)
  rcases hr with hr | hr
  · exact F.over_fake hi hf hF hr
  · exact F.over_fake hi hf hT hr

/-- The instructions before the end of a body. -/
theorem leaving_mid {mid e : List MachineInstr} (hi : fin.processedMBBs[i]? = some c)
    (hmid : ∀ j ∈ mid, Ordinary j) (he : ∀ s, Leaving Q dummyInstr mf fin i (.run c e s))
    (s : State σ) : Leaving Q dummyInstr mf fin i (.run c (mid ++ e) s) := by
  induction mid generalizing s with
  | nil => exact he s
  | cons mi mid ih =>
    rcases Q.exec_ordinary (hmid mi (List.mem_cons_self ..)) s with ⟨s₁, h⟩ | h
    · exact .of_shows (F.shows_instr hi h) (ih (fun j hj => hmid j (List.mem_cons_of_mem _ hj)) s₁)
    · exact .inr ⟨_, F.shows_exit hi h, c, _, _, hi, rfl, .inr (.inr rfl)⟩

/-- From a body of the input. -/
theorem leaving_original (hc : c ∈ mf.layout) (s : State σ) :
    ∃ i, fin.processedMBBs[i]? = some c ∧ Leaving Q dummyInstr mf fin i (.run c (Q.instrs c) s) := by
  obtain ⟨i, hi, mid, e, e', his, his', hmid, he⟩ := F.walked.kept c hc
  have hcb : c ∈ fin.before := F.walked.layout hc
  have hmid' : ∀ j ∈ mid, Ordinary j := by
    intro j hj
    refine (hmid j hj).resolve_right fun hjcc => ?_
    have hcompl := complete_of_walk F.convertible.toWellFormed F.convertible.directBranches F.head
      F.walked.walk F.single
    have := hcompl.conditional c (F.placed.mf ▸ F.placed.mem_layout hcb) j ?_
    · rw [hjcc.conditional] at this
      cases this
    · have hj' : j ∈ Q.instrs c := by
        rw [F.placed.instrs hcb, his']
        exact List.mem_append_left _ hj
      rw [Program.instrs, F.placed.mf] at hj'
      exact hj'
  refine ⟨i, hi, ?_⟩
  rw [F.placed.instrs hcb, his']
  refine F.leaving_mid hi hmid' (fun s => ?_) s
  cases he with
  | @indirect mi h =>
    have := F.direct c hc mi (by simp [his])
    rw [h.flags.1] at this
    cases this
  | ret h =>
    obtain ⟨o, ho, hr⟩ := exec_of_isReturn Q h s
    exact .inr ⟨_, F.shows_exit hi ho, c, o, s, hi, rfl, hr.imp_right .inl⟩
  | @noReturn mi h hcall hns =>
    have hgone : Q.exec mi s = .exit .gone s := by
      have hnone := F.leave c hc mi (by simp [his]) hcall hns s
      rw [Program.exec_of_isCall Q h hcall, Program.execOther, hnone]
    exact .inr ⟨_, F.shows_exit hi hgone, c, _, s, hi, rfl, .inr (.inr rfl)⟩
  | fall _ hf hr => exact F.leaving_lea hi hf hr s
  | jump _ _ hf hr => exact F.leaving_lea hi hf hr s
  | cond _ _ _ _ hf hF hT => exact F.leaving_select _ hi hf hF hT s
  | split _ _ _ _ _ hf hF hT => exact F.leaving_select _ hi hf hF hT s

/-- From any body control goes over its fake block, or out of the function. -/
theorem leaving (hi : fin.processedMBBs[i]? = some c) (s : State σ) :
    Leaving Q dummyInstr mf fin i (.run c (Q.instrs c) s) := by
  have heq {j : Nat} (hj : fin.processedMBBs[j]? = some c) : j = i := by
    obtain ⟨hj', rfl⟩ := List.getElem?_eq_some_iff.mp hj
    obtain ⟨hi', he⟩ := List.getElem?_eq_some_iff.mp hi
    exact (F.walked.nodup.getElem_inj_iff.mp he).symm
  by_cases hc : c ∈ mf.layout
  · obtain ⟨j, hj, h⟩ := F.leaving_original hc s
    exact heq hj ▸ h
  · have hcp := List.mem_of_getElem? hi
    obtain ⟨j, z, f, d, hj, hz, hf, hr⟩ :=
      F.walked.walk.routed F.convertible.shaped Convertible.lanesOpen_start hcp (by simp [start]) hc
    obtain rfl := heq hj
    rw [F.placed.instrs (F.walked.walk.mem_before_of_processed hcp), hz]
    exact F.leaving_lea hi hf hr s

/-- From a trampoline control lands in a body, or goes over the next fake block. -/
theorem onward (hr : Route dummyInstr fin (i + 1) z d) (s : State σ) :
    ∃ m t, Q.system.Shows (watch mf Q.mf) (.run z (Q.instrs z) s) [m] t ∧
      Mark.Leads (.fake i) m ∧ AtMark dummyInstr Q fin m t := by
  have hzf := F.not_fake_of_route hr
  cases hr with
  | @arrive _ j _ _ hz hzp hzi hj hd =>
    refine ⟨.land j, _, ?_, hj, d, s, hd, rfl⟩
    rw [F.placed.instrs hz, hzi]
    refine (Q.stepsIn_goto (exec_jmp4 Q s d)).shows ?_
    rw [List.filterMap_cons_none (watch_exec_of_not_fake hzf),
      List.filterMap_cons_some (watch_enter_body F.woven F.walked.nodup hd)]
    rfl
  | @skip _ k _ z' c f _ hz hzp hc hf hzi hr =>
    obtain ⟨-, hzp'⟩ := hr.mem
    obtain ⟨n, es, s', hn, hs, hes, -⟩ := F.placed.run_skip hf hr.genuine [] s
    rw [List.append_nil, ← hzi, ← F.placed.instrs hz] at hs
    refine ⟨.fake (i + 1), _, ⟨n, _, hn, hs, F.seen_fake hc hf hzp' ?_ s' s'⟩, rfl, z', d, s', hr, rfl⟩
    intro e he
    obtain ⟨mi, s, rfl⟩ := hes e he
    exact watch_exec_of_not_fake hzf

omit F in
theorem halted_of_lastMark {m : Mark} {t : Cfg σ} (h : LastMark fin m t) :
    Q.system.step t = none := by
  cases m with
  | land i =>
    obtain ⟨c, o, s, -, rfl, -⟩ := h
    rfl
  | fake => exact h.elim

/-- A run of the output goes from mark to mark. -/
theorem paced : Paced Q.system (watch mf Q.mf) (AtMark dummyInstr Q fin) (LastMark fin)
    Mark.Leads where
  step {m t} h := by
    cases m with
    | land i =>
      obtain ⟨c, s, hi, rfl⟩ := h
      rcases F.leaving hi s with ⟨t, hs, ha⟩ | ⟨t, hs, hl⟩
      · exact .inl ⟨.fake i, t, hs, rfl, ha⟩
      · exact .inr ⟨t, hs, halted_of_lastMark hl, hl⟩
    | fake i =>
      obtain ⟨z, d, s, hr, rfl⟩ := h
      obtain ⟨m, t, hs, hl, ha⟩ := F.onward hr s
      exact .inl ⟨m, t, hs, hl, ha⟩

/-- A run begins in the first body. -/
theorem shows_start (s : State σ) :
    ∃ t, Q.system.Shows (watch mf Q.mf) (.start s) [.land 0] t ∧ AtMark dummyInstr Q fin (.land 0) t := by
  have h0 : fin.processedMBBs[0]? = some entry := F.walked.entry.trans F.head
  have hfront : fin.nextMBB ∉ fin.before := fun h => Nat.lt_irrefl _ (F.placed.lt_of_mem h)
  refine ⟨_, ((F.placed.run_start s).trans (Q.stepsIn_goto (exec_jmp4 Q s entry))).shows ?_,
    entry, s, h0, rfl⟩
  rw [List.singleton_append, List.filterMap_cons_none (watch_enter_of_not_body F.woven fun h =>
      hfront (F.walked.walk.mem_before_of_processed h)),
    List.filterMap_cons_none (watch_exec_of_not_fake fun h => hfront (F.woven.instrs _ h).1),
    List.filterMap_cons_some (watch_enter_body F.woven F.walked.nodup h0)]
  rfl

theorem shielded : Shielded mf Q.mf Q.system := by
  have hchain : ∀ s n es s', Q.system.StepsIn n (.start s) es s' →
      (es.filterMap (watch mf Q.mf)).IsChain Mark.Leads ∧
        ∀ m ∈ (es.filterMap (watch mf Q.mf)).head?, m = .land 0 := by
    intro s n es s' hr
    obtain ⟨t, hs, ha⟩ := F.shows_start s
    rcases hs.run_cases hr with hp | ⟨k, gs, -, hgs, he⟩
    · refine ⟨?_, fun m hm => List.mem_singleton.mp (hp.subset (List.mem_of_mem_head? hm))⟩
      obtain ⟨l, hl⟩ := hp
      have hc : [Mark.land 0].IsChain Mark.Leads := List.isChain_singleton _
      rw [← hl] at hc
      exact hc.left_of_append
    · rw [he]
      exact ⟨F.paced.chain ha hgs, fun m hm => (Option.some.inj hm).symm⟩
  have hleaves : ∀ s ms o, Q.system.Ends (watch mf Q.mf) leftAt (.start s) ms o →
      ∃ (i b : Nat) (e : Exit), ms.getLast? = some (.land i) ∧ fin.processedMBBs[i]? = some b ∧
        o = some (b, e) ∧ (e = .ret ∨ e = .tailCall ∨ e = .gone) := by
    rintro s ms o ⟨n, es, s', hr, hhalt, rfl, rfl⟩
    obtain ⟨t, hs, ha⟩ := F.shows_start s
    obtain ⟨k, gs, -, hgs, he⟩ := hs.run_of_halted hr hhalt
    obtain ⟨m, hm, hlast⟩ := F.paced.ends ha hgs hhalt
    cases m with
    | land i =>
      obtain ⟨c, o, s₁, hi, rfl, ho⟩ := hlast
      exact ⟨i, c, o, by rw [he]; exact hm, hi, rfl, ho⟩
    | fake => exact hlast.elim
  refine ⟨fun s ms ⟨n, es, s', hr, l, hl⟩ => ?_, fun s k => ?_, fun s ms o h => ?_, ?_⟩
  · obtain ⟨hc, hh⟩ := hchain s n es s' hr
    rw [← hl] at hc hh
    refine ⟨hc.left_of_append, fun m hm => hh m ?_⟩
    cases ms with
    | nil => cases hm
    | cons => exact hm
  · obtain ⟨t, ⟨m, fs, -, hfs, ho⟩, ha⟩ := F.shows_start s
    rcases F.paced.goesOn ha k with ⟨n, es, s', hes, hlen⟩ | ⟨n, es, s', hes, hhalt⟩
    · refine .inl ⟨((fs ++ es).filterMap (watch mf Q.mf)).take k,
        ⟨m + n, fs ++ es, s', hfs.trans hes, List.take_prefix ..⟩, ?_⟩
      rw [List.length_take, List.filterMap_append, List.length_append, hlen]
      omega
    · exact .inr ⟨_, _, m + n, fs ++ es, s', hfs.trans hes, hhalt, rfl, rfl⟩
  · obtain ⟨i, b, e, h⟩ := hleaves s ms o h
    exact ⟨i, b, e, by rwa [F.woven.bodies]⟩
  · intro s₁ s₂ ms₁ ms₂ b e₁ e₂ h₁ h₂ hback
    obtain ⟨i₁, b₁, o₁, hl₁, hi₁, he₁, -⟩ := hleaves s₁ ms₁ _ h₁
    obtain ⟨i₂, b₂, o₂, hl₂, hi₂, he₂, -⟩ := hleaves s₂ ms₂ _ h₂
    obtain ⟨rfl, -⟩ := Prod.mk.inj (Option.some.inj he₁)
    obtain ⟨rfl, -⟩ := Prod.mk.inj (Option.some.inj he₂)
    obtain rfl : i₁ = i₂ := by
      obtain ⟨_, hg₁⟩ := List.getElem?_eq_some_iff.mp hi₁
      obtain ⟨_, hg₂⟩ := List.getElem?_eq_some_iff.mp hi₂
      exact F.walked.nodup.getElem_inj_iff.mp (hg₁.trans hg₂.symm)
    obtain ⟨n₁, es₁, t₁, hr₁, -, rfl, -⟩ := h₁
    obtain ⟨n₂, es₂, t₂, hr₂, -, rfl, -⟩ := h₂
    obtain ⟨hc₁, hh₁⟩ := hchain s₁ n₁ es₁ t₁ hr₁
    obtain ⟨hc₂, hh₂⟩ := hchain s₂ n₂ es₂ t₂ hr₂
    rw [fakeJumps_eq_path hc₁ hh₁ hl₁, fakeJumps_eq_path hc₂ hh₂ hl₂, hback]

end Flows

/-- Where no block has two conditional branches and none an indirect jump, what a run of
the output shows does not depend on its forward decisions: it goes over the fake blocks in
layout order, but for backward jumps, and two runs with the same backward jumps that leave
in the same block execute the same fake jumps. -/
theorem runOnMachineFunction_shielded (dummyInstr : Bool) (hmf : Convertible mf)
    (hsingle : ∀ c ∈ mf.layout, (mf.blocks c).instrs.countP MachineInstr.isConditionalBranch ≤ 1)
    (hdirect : ∀ c ∈ mf.layout, ∀ i ∈ (mf.blocks c).instrs, i.isIndirectBranch = false) :
    ∃ out, runOnMachineFunction dummyInstr mf = .ok out ∧ Interleaved mf out ∧
      ∀ (σ : Type) (T : Target σ) (addr : Nat → BitVec 64) (rd : Reading),
        (∀ b ∈ out.layout, ∀ b' ∈ out.layout, addr b = addr b' → b = b') → CallsLeave mf T →
        Shielded mf out (Program.system ⟨out, T, addr, rd⟩) := by
  obtain ⟨entry, fin, hentry, W, hout⟩ := hmf.isOk dummyInstr
  have hwoven := woven_of_walk hmf.toWellFormed (jumpsStay_start hmf.directBranches) hentry W.walk
  refine ⟨_, hout, hwoven.interleaved, fun σ T addr rd haddr hleave => ?_⟩
  have F : Flows dummyInstr mf ⟨(addFrontBlock fin entry).mf, T, addr, rd⟩ fin entry :=
    { convertible := hmf
      single := hsingle
      direct := hdirect
      head := hentry
      walked := W
      placed := ⟨rfl, W.bookkeeping, W.after, fun b hb b' hb' h => .inl (haddr b hb b' hb' h)⟩
      woven := hwoven
      leave := hleave }
  exact F.shielded

/-- The runs of `selfLoop` converted, whatever the flags. -/
theorem runOnMachineFunction_shielded_selfLoop :
    ∃ out, runOnMachineFunction true selfLoop = .ok out ∧ Interleaved selfLoop out ∧
      Shielded selfLoop out (Program.system ⟨out, idle, BitVec.ofNat 64, .object⟩) := by
  have hlayout : (runOnMachineFunction true selfLoop).map
      (fun out => decide (∀ b ∈ out.layout, b < 100)) = .ok true := by decide
  obtain ⟨out, hout, hinter, h⟩ := runOnMachineFunction_shielded true selfLoop_convertible
    (by decide) (by decide)
  rw [hout] at hlayout
  have hlt := of_decide_eq_true (Except.ok.inj hlayout)
  refine ⟨out, hout, hinter, h Unit idle (BitVec.ofNat 64) .object ?_ ?_⟩
  · intro b hb b' hb' he
    have := congrArg BitVec.toNat he
    simp only [BitVec.toNat_ofNat] at this
    have := hlt b hb
    have := hlt b' hb'
    omega
  · intro c hc i hi hcall
    obtain rfl | rfl : c = 0 ∨ c = 1 := by simpa [selfLoop] using hc
    all_goals
      cases Option.some.inj hi
      cases hcall

end BS.BranchConversion
