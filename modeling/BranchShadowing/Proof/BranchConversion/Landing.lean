import BranchShadowing.Proof.BranchConversion.Trampolines

/-!
# Landing in the next block

Each end that the pass makes of a block takes control, by the flags, to one of the
blocks that the edges of the input lead to (`Transit.leaves`). So the flags survive the
way there unless a dummy instruction is on it (`flagsKept_iff`), and a block without
instructions, which leaves R15 as it is, is entered again for ever (`emptyKept_iff`).
-/

namespace BS.BranchConversion

open X86 PassState

variable {dummyInstr : Bool} {mf : MachineFunction} {st st' fin : PassState}
  {b c d f n z : Nat} {rest : List Nat} {i : MachineInstr} {pre : List MachineInstr}

/-! ## Edges -/

/-- The branch replaced is the last instruction, or one before a jump. -/
theorem ReplacedBranch.of_concat (h : ReplacedBranch mf c d)
    (hi : (mf.blocks c).instrs = pre ++ [i]) :
    (i.isConditionalBranch ∨ i.isUnconditionalBranch) ∧ i.mbb? = some d ∨
      i.isUnconditionalBranch ∧
        ∃ j, pre.getLast? = some j ∧ j.isConditionalBranch ∧ j.mbb? = some d := by
  obtain ⟨is, ⟨p, hp⟩, hr, j, hj, hd⟩ := h
  rw [hi] at hp
  rcases is with - | ⟨x, - | ⟨y, - | ⟨w, is⟩⟩⟩
  · cases hj
  · obtain ⟨rfl, rfl⟩ := last_eq hp
    cases List.mem_singleton.mp hj
    exact .inl ⟨by simpa [atReplacedEnd] using hr, hd⟩
  · obtain ⟨hx, hy⟩ : x.isConditionalBranch ∧ y.isUnconditionalBranch := by
      simpa [atReplacedEnd] using hr
    obtain ⟨rfl, rfl⟩ := lastTwo_eq hp.symm
    rcases List.mem_cons.mp hj with rfl | hj
    · exact .inr ⟨hy, j, by simp, hx, hd⟩
    · cases List.mem_singleton.mp hj
      exact .inl ⟨.inr hy, hd⟩
  · cases hr

theorem ReplacedBranch.of_last (hi : (mf.blocks c).instrs = pre ++ [i])
    (hr : i.isConditionalBranch ∨ i.isUnconditionalBranch) (hd : i.mbb? = some d) :
    ReplacedBranch mf c d :=
  ⟨[i], ⟨pre, hi.symm⟩, by simpa [atReplacedEnd] using hr, i, List.mem_singleton_self i, hd⟩

/-- No edge leads from an empty block. -/
theorem not_edge_of_empty (hi : (mf.blocks c).instrs = []) :
    ¬ (ReplacedBranch mf c d ∨ FallsInto mf c d) := by
  rintro (⟨is, hs, -, i, hm, -⟩ | ⟨-, i, hl, -⟩)
  · have := hs.subset hm
    rw [hi] at this
    cases this
  · rw [hi] at hl
    cases hl

namespace BlockShape

variable (hs : BlockShape mf c) (hi : (mf.blocks c).instrs = pre ++ [i])
include hs hi

/-- What stands last in a block: a branch, a return, or an ordinary instruction, and then
either all are ordinary or the next block is no successor. -/
theorem last : i.isBranch ∨ IsReturn i ∨ Ordinary i ∧
    ∀ n, mf.layoutSucc c = some n → n ∈ (mf.blocks c).succs →
      ∀ j ∈ (mf.blocks c).instrs, Ordinary j := by
  cases hs with
  | branches p jccs jmp his _ hjccs hjmp hnone =>
    refine .inl ?_
    cases jmp with
    | some j =>
      obtain ⟨-, rfl⟩ := last_eq (hi.symm.trans his)
      exact isBranch_of_unconditional (hjmp i rfl).unconditional
    | none =>
      obtain ⟨js, j, rfl⟩ := (List.eq_nil_or_concat' jccs).resolve_left (hnone rfl).1
      have hlast : pre ++ [i] = (p ++ js) ++ [j] := by rw [← hi, his]; simp
      obtain ⟨-, rfl⟩ := last_eq hlast
      exact isBranch_of_conditional (hjccs i (by simp)).conditional
  | indirect p j his _ hj =>
    obtain ⟨-, rfl⟩ := last_eq (hi.symm.trans his)
    refine .inl ?_
    rcases hj with ⟨ho, -⟩ | ⟨ho, -⟩ <;> simp [MachineInstr.isBranch, ho, Opcode.desc]
  | ret p j his _ hj =>
    obtain ⟨-, rfl⟩ := last_eq (hi.symm.trans his)
    exact .inr (.inl hj)
  | noReturn p j his _ ho _ hns =>
    obtain ⟨-, rfl⟩ := last_eq (hi.symm.trans his)
    exact .inr (.inr ⟨ho, fun n hn hm => absurd hm (hns n hn)⟩)
  | fall _ hall => exact .inr (.inr ⟨hall i (by simp [hi]), fun _ _ _ => hall⟩)

/-- A block returns if its last instruction is a return. -/
theorem not_return (hb : ¬ IsReturn i) : (mf.blocks c).isReturnBlock = false := by
  rw [MachineBasicBlock.isReturnBlock, hi, List.getLast?_concat, Option.any_some]
  rcases hs.last hi with h | h | h
  · rcases hs.of_isBranch (by simp [hi]) h with h | h | h
    · exact h.not_return
    · exact h.not_return
    · exact h.flags.2.1
  · exact absurd h hb
  · exact h.1.isReturn

end BlockShape

/-! ## What lies between -/

theorem takeWhile_ne {mid post : List Nat} (h : d ∉ mid) :
    (mid ++ d :: post).takeWhile (· != d) = mid := by
  rw [List.takeWhile_append_of_pos fun e he => by simpa using fun h' : e = d => h (h' ▸ he),
    List.takeWhile_cons_of_neg (by simp), List.append_nil]

theorem longBetween_iff (hnd : mf.layout.Nodup) {before : List Nat}
    (hl : mf.layout = before ++ c :: rest) : LongBetween mf c d ↔
      d ∈ rest ∧ ∃ e ∈ rest.takeWhile (· != d), 2 < (mf.blocks e).instrs.length := by
  rw [hl] at hnd
  have hnd' := List.nodup_append.mp hnd
  have hcr := (List.nodup_cons.mp hnd'.2.1).1
  have hrest := (List.nodup_cons.mp hnd'.2.1).2
  have hd {mid post : List Nat} (h : rest = mid ++ d :: post) : d ∉ mid := by
    rw [h] at hrest
    exact fun hm => (List.nodup_append.mp hrest).2.2 d hm d (List.mem_cons_self ..) rfl
  constructor
  · rintro ⟨p, mid, post, hp, e, he, hlen⟩
    have hcb : c ∉ before := fun h => hnd'.2.2 c h c (List.mem_cons_self ..) rfl
    obtain ⟨-, -, hr⟩ := (List.append_cons_inj_of_notMem hcb hcr).mp (hl.symm.trans hp)
    exact ⟨by simp [hr], e, by rwa [hr, takeWhile_ne (hd hr)], hlen⟩
  · rintro ⟨hdr, e, he, hlen⟩
    obtain ⟨mid, post, hr⟩ := List.append_of_mem hdr
    rw [hr, takeWhile_ne (hd hr)] at he
    exact ⟨before, mid, post, by rw [hl, hr], e, he, hlen⟩

/-- Nothing lies between a block and the next. -/
theorem FallsInto.not_longBetween (hnd : mf.layout.Nodup) (hn : mf.layoutSucc c = some d) :
    ¬ LongBetween mf c d := by
  rintro ⟨p, mid, post, hp, e, he, -⟩
  have hcp : c ∉ p := fun h => by
    rw [hp] at hnd
    exact (List.nodup_append.mp hnd).2.2 c h c (List.mem_cons_self ..) rfl
  rw [MachineFunction.layoutSucc, hp, nextOf_append_cons hcp] at hn
  obtain - | ⟨x, mid⟩ := mid
  · cases he
  · cases hn
    rw [hp, List.nodup_append, List.nodup_cons] at hnd
    have := (List.nodup_cons.mp hnd.2.1.2).1
    simp at this

/-! ## Leaving a block -/

variable {σ : Type} {Q : Program σ} {entry : Nat}

/-- The ways out of block `c`, whose end the pass has changed: by the flags control takes
the edge to `pick`. -/
structure Departs (dummyInstr : Bool) (mf : MachineFunction) (Q : Program σ) (fin : PassState)
    (c : Nat) (is : List MachineInstr) (pick : EFlags → Nat) : Prop where
  comes : ∀ s, ∃ a, ComesTo mf Q fin a (.run c is s) s.eflags (pick s.eflags) ∧
    (a = true ↔ dummyInstr = true ∧ LongBetween mf c (pick s.eflags))
  edge : ∀ f, ReplacedBranch mf c (pick f) ∨ FallsInto mf c (pick f)
  all : ∀ d, ReplacedBranch mf c d ∨ FallsInto mf c d → ∃ f, f.af = true ∧ pick f = d

/-- Flags on which a condition holds or does not, with AF set. -/
def flagsOf (cc : Cond) (v : Bool) : EFlags :=
  let on : EFlags := ⟨true, true, true, true, true, true⟩
  let off : EFlags := ⟨false, false, true, false, false, false⟩
  let less : EFlags := ⟨false, false, true, false, true, false⟩
  if cc.holds on = v then on else if cc.holds off = v then off else less

theorem flagsOf_spec (cc : Cond) (v : Bool) :
    (flagsOf cc v).af = true ∧ cc.holds (flagsOf cc v) = v := by
  cases cc <;> cases v <;> decide

/-- A block split off, of one jump. -/
theorem Transit.splitOff (T : Transit dummyInstr mf Q fin entry) (W : Walk dummyInstr fin st)
    (ha : st.after = b :: rest) (hi : st.instrs b = [i]) (hu : i.isUnconditionalBranch)
    (hr : i.isReturn = false) (hd : i.mbb? = some d) (hcov : d ∈ st.processedMBBs ++ [b] ∨ d ∈ rest) :
    ∃ a, (∀ s, ComesTo mf Q fin a (.run b (Q.instrs b) s) s.eflags d) ∧
      (a = true ↔ dummyInstr = true ∧ d ∈ rest ∧
        ∃ e ∈ rest.takeWhile (· != d), 2 < (st.instrs e).length) := by
  cases W with
  | done _ hnil =>
    rw [hnil] at ha
    cases ha
  | @block _ st' c r fakeBlock hB ha' D W =>
    obtain ⟨rfl, rfl⟩ := List.cons_eq_cons.mp (ha'.symm.trans ha)
    have hb : c ∈ fin.before := by
      obtain ⟨tr, hb, -⟩ := D.before
      exact W.mem_before (by simp [hb])
    obtain ⟨o, ho, -, -⟩ := D.ending
    rw [← Walk.frozen_walked hB ha' D W, ← T.placed.instrs hb] at ho
    obtain ⟨z, hz, hl⟩ : ∃ z, Q.instrs c = [lea .r15 z] ∧ st'.Leads z d := by
      generalize Q.instrs c = is' at ho
      rw [hi] at ho
      generalize his : [i] = is at ho
      cases ho with
      | empty => cases his
      | leave h =>
        rw [(Walk.singleton_eq_append his).2, hu] at h
        cases h
      | fall h =>
        rw [(Walk.singleton_eq_append his).2, hu] at h
        cases h
      | @jump pre j d' z _ _ hd' hl =>
        obtain ⟨rfl, rfl⟩ := Walk.singleton_eq_append his
        cases hd.symm.trans hd'
        exact ⟨z, rfl, hl⟩
      | cond h =>
        rw [(Walk.singleton_eq_append his).2] at h
        rw [(flags_of_jcc1 h).2.1] at hu
        cases hu
      | split =>
        have := congrArg List.length his
        simp at this
    cases hf : fakeBlock with
    | none =>
      have h := (D.noFake hf).2
      rw [MachineBasicBlock.isReturnBlock, show (st.blocks c).instrs = [i] from hi] at h
      simp [hr] at h
    | some f =>
      obtain ⟨a, hdel, hiff⟩ := T.leads hB ha' D W (by simp [hi]) hl (D.processedMBBs ▸ hcov)
      refine ⟨a, fun s => ?_, hiff⟩
      rw [hz]
      exact T.run_lea (Walk.fakeAfter hB ha' D W hf) hdel s

/-- Where the walk comes to block `c` of the function. -/
structure Site (dummyInstr : Bool) (mf : MachineFunction) (fin : PassState) (c : Nat)
    (before rest : List Nat) (st st' : PassState) (fakeBlock : Option Nat) : Prop where
  layout : mf.layout = before ++ c :: rest
  bookkeeping : Bookkeeping st
  after : st.after = c :: rest
  done : BlockDone dummyInstr st c rest ((advance st c rest).mf.getFallThrough c) fakeBlock st'
  walk : Walk dummyInstr fin st'
  processed : ∀ b ∈ before, b ∈ st.processedMBBs
  blocks : ∀ b ∈ c :: rest, st.blocks b = mf.blocks b

theorem Transit.site (T : Transit dummyInstr mf Q fin entry) (hc : c ∈ mf.layout) :
    ∃ before rest st st' fakeBlock, Site dummyInstr mf fin c before rest st st' fakeBlock := by
  obtain ⟨before, rest, hl⟩ := List.append_of_mem hc
  obtain ⟨st, st', fakeBlock, hB, ha, D, W, -, hp, hbl⟩ :=
    T.walk.atBlock (show (start mf).after = _ from hl)
  exact ⟨before, rest, st, st', fakeBlock, hl, hB, ha, D, W,
    fun b hb => hp b (List.mem_append_right _ hb), hbl⟩

namespace Site

variable {before : List Nat} {fakeBlock : Option Nat}
  (S : Site dummyInstr mf fin c before rest st st' fakeBlock)
  (T : Transit dummyInstr mf Q fin entry)

section

include S

theorem mem : c ∈ mf.layout := by simp [S.layout]

theorem instrs (hb : b ∈ c :: rest) : st.instrs b = (mf.blocks b).instrs :=
  congrArg MachineBasicBlock.instrs (S.blocks b hb)

theorem mem_before : c ∈ fin.before := by
  obtain ⟨tr, hb, -⟩ := S.done.before
  exact S.walk.mem_before (by simp [hb])

/-- A block that does not return has a fake block behind it. -/
theorem fake (hr : (mf.blocks c).isReturnBlock = false) : ∃ f, FakeAfter fin c f := by
  cases hf : fakeBlock with
  | some f => exact ⟨f, Walk.fakeAfter S.bookkeeping S.after S.done S.walk hf⟩
  | none =>
    have h := (S.done.noFake hf).2
    rw [S.blocks c (List.mem_cons_self ..), hr] at h
    cases h

end

include S T

theorem next : mf.layoutSucc c = rest.head? := by
  have hnd := T.emitted.nodup
  rw [S.layout, List.nodup_append] at hnd
  rw [MachineFunction.layoutSucc, S.layout]
  exact nextOf_append_cons fun h => hnd.2.2 c h c (List.mem_cons_self ..) rfl

theorem fallThrough : FallThroughOf (mf.layoutSucc c) (mf.blocks c)
    ((advance st c rest).mf.getFallThrough c) := by
  have h := BlockDone.layoutSucc_advance S.bookkeeping S.after
  rw [S.next T, ← h, ← S.blocks c (List.mem_cons_self ..)]
  exact fallThroughOf

theorem fin_instrs : Q.instrs c = st'.instrs c := by
  rw [T.placed.instrs S.mem_before, Walk.frozen_walked S.bookkeeping S.after S.done S.walk]

theorem inserted :
    insertedInstrs mf Q.mf c = dropCommon (mf.blocks c).instrs (st'.instrs c) := by
  rw [insertedInstrs, if_pos S.mem, ← S.fin_instrs T]
  rfl

/-- The trampoline of a branch, or a jump split off, behind the block. -/
theorem leads (hne : (mf.blocks c).instrs ≠ []) (h : st'.Leads z d) (hd : d ∈ mf.layout) :
    ∃ a, Delivers mf Q fin a z d ∧ (a = true ↔ dummyInstr = true ∧ LongBetween mf c d) := by
  have hcov : d ∈ st'.processedMBBs ∨ d ∈ rest := by
    rw [S.layout, List.mem_append, List.mem_cons] at hd
    rw [S.done.processedMBBs, List.mem_append, List.mem_singleton]
    rcases hd with h | h | h
    · exact .inl (.inl (S.processed d h))
    · exact .inl (.inr h)
    · exact .inr h
  obtain ⟨a, ha, h⟩ := T.leads S.bookkeeping S.after S.done S.walk
    (by rwa [S.instrs (List.mem_cons_self ..)]) h hcov
  refine ⟨a, ha, h.trans ?_⟩
  rw [longBetween_iff T.emitted.nodup S.layout]
  refine and_congr_right fun _ => and_congr_right fun _ => exists_congr fun e => ?_
  refine and_congr_right fun he => ?_
  rw [S.instrs (List.mem_cons_of_mem _ ((List.takeWhile_sublist _).subset he))]

theorem leadsNext (hne : (mf.blocks c).instrs ≠ []) (h : st'.LeadsNext z)
    (hd : st'.after.head? = some d) : Delivers mf Q fin false z d :=
  T.leadsNext S.done S.walk (by rwa [S.instrs (List.mem_cons_self ..)]) h hd

/-- A fall-through. -/
theorem departs_fall (hi : (mf.blocks c).instrs = pre ++ [i]) (hu : i.isUnconditionalBranch = false)
    (hc : i.isConditionalBranch = false) (hind : i.isIndirectBranch = false)
    (hn : (advance st c rest).mf.getFallThrough c = some n) (h : st'.LeadsNext z)
    (hao : st'.after = rest) : Departs dummyInstr mf Q fin c [lea .r15 z] fun _ => n := by
  have hs := T.emitted.shape c S.mem
  have hft := S.fallThrough T
  have hlast : (mf.blocks c).instrs.getLast? = some i := by rw [hi, List.getLast?_concat]
  obtain ⟨hnext, hsucc⟩ := hft.found n hn
  have hret : ¬ IsReturn i := fun hr => by
    obtain ⟨-, hb, -, ht, hbar, hd⟩ := hr.flags
    rw [hft.barrier i hlast hd ht hb hbar] at hn
    cases hn
  have hord : Ordinary i := by
    rcases hs.last hi with hb | hr | ⟨ho, -⟩
    · rcases hs.of_isBranch (by simp [hi]) hb with h | h | h
      · rw [h.conditional] at hc
        cases hc
      · rw [h.unconditional] at hu
        cases hu
      · rw [h.flags.1] at hind
        cases hind
    · exact absurd hr hret
    · exact ho
  obtain ⟨f, hf⟩ := S.fake (hs.not_return hi hret)
  have hdel := S.leadsNext T (by simp [hi]) h (d := n) (by rw [hao, ← S.next T, hnext])
  exact
    { comes := fun s => ⟨false, T.run_lea hf hdel s, by
        simp [FallsInto.not_longBetween T.emitted.nodup hnext]⟩
      edge := fun _ => .inr ⟨hnext, i, hlast, .inr ⟨hord, hsucc⟩⟩
      all := fun d hd => by
        refine ⟨flagsOf .e true, (flagsOf_spec .e true).1, ?_⟩
        rcases hd with hd | ⟨hd, -⟩
        · rcases hd.of_concat hi with ⟨h | h, -⟩ | ⟨h, -⟩
          · rw [hc] at h
            cases h
          · rw [hu] at h
            cases h
          · rw [hu] at h
            cases h
        · exact Option.some.inj (hnext.symm.trans hd) }

/-- A jump. -/
theorem departs_jump (hi : (mf.blocks c).instrs = pre ++ [i]) (hu : i.isUnconditionalBranch)
    (hp : ∀ j, pre.getLast? = some j → j.isConditionalBranch = false) (hd : i.mbb? = some d)
    (h : st'.Leads z d) : Departs dummyInstr mf Q fin c [lea .r15 z] fun _ => d := by
  have hs := T.emitted.shape c S.mem
  have hb := isBranch_of_unconditional hu
  obtain ⟨f, hf⟩ := S.fake (hs.not_return hi fun hr => by
    rw [hr.flags.2.1] at hb
    cases hb)
  obtain ⟨a, hdel, ha⟩ := S.leads T (by simp [hi]) h
    (T.emitted.targets c S.mem i (by simp [hi]) d hd)
  exact
    { comes := fun s => ⟨a, T.run_lea hf hdel s, ha⟩
      edge := fun _ => .inl (.of_last hi (.inr hu) hd)
      all := fun d' hd' => by
        refine ⟨flagsOf .e true, (flagsOf_spec .e true).1, ?_⟩
        rcases hd' with hd' | ⟨-, j, hj, hj'⟩
        · rcases hd'.of_concat hi with ⟨-, h⟩ | ⟨-, j, hj, hjc, -⟩
          · exact Option.some.inj (hd.symm.trans h)
          · rw [hp j hj] at hjc
            cases hjc
        · rw [hi, List.getLast?_concat] at hj
          cases hj
          simp only [MachineInstr.isUnconditionalBranch, Bool.and_eq_true] at hu
          rcases hj' with h | ⟨h, -⟩
          · simp [MachineInstr.isConditionalBranch, hu.1.2] at h
          · rw [h.isBranch] at hb
            cases hb }

/-- A conditional branch, and a fall-through. -/
theorem departs_cond {cc : Cond} {zF zT : Nat} (hi : (mf.blocks c).instrs = pre ++ [i])
    (ho : i.opcode = .jcc1 cc) (hd : i.mbb? = some d) (hF : st'.LeadsNext zF) (hT : st'.Leads zT d)
    (hao : st'.after = rest) : ∃ n, Departs dummyInstr mf Q fin c
      [lea .r15 zF, lea .r13 zT, cmov (.cmov64rr cc)] fun f => if cc.holds f then d else n := by
  have hs := T.emitted.shape c S.mem
  obtain ⟨hc, hu, -⟩ := flags_of_jcc1 ho
  have hlast : (mf.blocks c).instrs.getLast? = some i := by rw [hi, List.getLast?_concat]
  obtain ⟨n, hn⟩ := Option.isSome_iff_exists.mp (hs.layoutSucc_isSome hlast hc)
  obtain ⟨f, hf⟩ := S.fake (hs.not_return hi fun hr => by
    have hb := isBranch_of_conditional hc
    rw [hr.flags.2.1] at hb
    cases hb)
  obtain ⟨a, hdel, ha⟩ := S.leads T (by simp [hi]) hT
    (T.emitted.targets c S.mem i (by simp [hi]) d hd)
  have hdelF := S.leadsNext T (by simp [hi]) hF (d := n) (by rw [hao, ← S.next T, hn])
  refine ⟨n, fun s => ⟨_, T.run_select cc hf hdelF hdel s, ?_⟩, fun f => ?_, fun d' hd' => ?_⟩
  · by_cases h : cc.holds s.eflags
    · simpa only [h, if_true] using ha
    · simp [h, FallsInto.not_longBetween T.emitted.nodup hn]
  · by_cases h : cc.holds f
    · simp only [h, if_true]
      exact .inl (.of_last hi (.inl hc) hd)
    · simp only [h]
      exact .inr ⟨hn, i, hlast, .inl hc⟩
  · rcases hd' with hd' | ⟨hd', -⟩
    · obtain ⟨haf, hh⟩ := flagsOf_spec cc true
      refine ⟨flagsOf cc true, haf, ?_⟩
      rcases hd'.of_concat hi with ⟨-, h⟩ | ⟨h, -⟩
      · simpa only [hh, if_true] using Option.some.inj (hd.symm.trans h)
      · rw [hu] at h
        cases h
    · obtain ⟨haf, hh⟩ := flagsOf_spec cc false
      refine ⟨flagsOf cc false, haf, ?_⟩
      simpa [hh] using Option.some.inj (hn.symm.trans hd')

/-- A conditional branch, and a jump behind it, which has been split off. -/
theorem departs_split {jcc : MachineInstr} {cc : Cond} {d' zF zT N : Nat}
    (hi : (mf.blocks c).instrs = pre ++ [jcc, i]) (ho : jcc.opcode = .jcc1 cc)
    (hd : jcc.mbb? = some d) (hu : i.isUnconditionalBranch) (hd' : i.mbb? = some d')
    (hF : st'.LeadsNext zF) (hT : st'.Leads zT d) (hNi : st'.instrs N = [⟨i.opcode, [.mbb d']⟩])
    (hao : st'.after = N :: rest) (hN : st.nextMBB ≤ N) : Departs dummyInstr mf Q fin c
      [lea .r15 zF, lea .r13 zT, cmov (.cmov64rr cc)] fun f => if cc.holds f then d else d' := by
  have hs := T.emitted.shape c S.mem
  have hi' : (mf.blocks c).instrs = (pre ++ [jcc]) ++ [i] := by simp [hi]
  have hlast : (mf.blocks c).instrs.getLast? = some i := by rw [hi', List.getLast?_concat]
  have hne : (mf.blocks c).instrs ≠ [] := by simp [hi]
  have hb := isBranch_of_unconditional hu
  obtain ⟨hc, -, -⟩ := flags_of_jcc1 ho
  have hjmp : IsJmp mf i := by
    rcases hs.of_isBranch (by simp [hi]) hb with h | h | h
    · have := h.conditional
      simp only [MachineInstr.isUnconditionalBranch, MachineInstr.isConditionalBranch,
        Bool.and_eq_true] at hu this
      simp [hu.1.2] at this
    · exact h
    · rw [h.flags.2.2.1] at hu
      cases hu
  obtain ⟨f, hf⟩ := S.fake (hs.not_return hi' fun hr => by
    rw [hr.flags.2.1] at hb
    cases hb)
  have hdl' := T.emitted.targets c S.mem i (by simp [hi]) d' hd'
  obtain ⟨a, hdel, ha⟩ := S.leads T hne hT (T.emitted.targets c S.mem jcc (by simp [hi]) d hd)
  have hdelF := S.leadsNext T hne hF (d := N) (by rw [hao]; rfl)
  have hold : ∀ b ∈ c :: rest, b < st.nextMBB := fun b hb =>
    S.bookkeeping.fresh b (by simp [S.after, List.mem_cons.mp hb])
  have hNl : N ∉ mf.layout := by
    rw [S.layout, List.mem_append]
    rintro (h | h)
    · exact Nat.not_lt.mpr hN (S.bookkeeping.processed_lt (S.processed N h))
    · exact Nat.not_lt.mpr hN (hold N h)
  have hcov : d' ∈ st'.processedMBBs ++ [N] ∨ d' ∈ rest := by
    rw [S.layout, List.mem_append, List.mem_cons] at hdl'
    rw [S.done.processedMBBs]
    simp only [List.mem_append, List.mem_singleton]
    rcases hdl' with h | h | h
    · exact .inl (.inl (.inl (S.processed d' h)))
    · exact .inl (.inl (.inr h))
    · exact .inr h
  obtain ⟨a', hrun, ha'⟩ := T.splitOff S.walk hao hNi (by
    simpa [MachineInstr.isUnconditionalBranch, MachineInstr.isBranch, MachineInstr.isBarrier,
      MachineInstr.isIndirectBranch] using hu) (by simpa [MachineInstr.isReturn] using hjmp.not_return)
    rfl hcov
  have ha' : a' = true ↔ dummyInstr = true ∧ LongBetween mf c d' := by
    refine ha'.trans ?_
    rw [longBetween_iff T.emitted.nodup S.layout]
    refine and_congr_right fun _ => and_congr_right fun _ => exists_congr fun e => ?_
    refine and_congr_right fun he => ?_
    have he := (List.takeWhile_sublist _).subset he
    rw [S.done.instrs_rest S.bookkeeping S.after he, S.instrs (List.mem_cons_of_mem _ he)]
  refine ⟨fun s => ?_, fun f => ?_, fun x hx => ?_⟩
  · have h := T.run_select cc hf hdelF hdel s
    by_cases hh : cc.holds s.eflags
    · simp only [hh, if_true] at h ⊢
      exact ⟨a, h, ha⟩
    · simp only [hh] at h ⊢
      exact ⟨_, h.trans hNl hrun, by simpa using ha'⟩
  · by_cases hh : cc.holds f
    · simp only [hh, if_true]
      exact .inl ⟨[jcc, i], ⟨pre, hi.symm⟩, by simp [atReplacedEnd, hc, hu], jcc, by simp, hd⟩
    · simp only [hh]
      exact .inl (.of_last hi' (.inr hu) hd')
  · have hx : d = x ∨ d' = x := by
      rcases hx with hx | ⟨-, j, hj, hj'⟩
      · rcases hx.of_concat hi' with ⟨-, h⟩ | ⟨-, j, hj, -, h⟩
        · exact .inr (Option.some.inj (hd'.symm.trans h))
        · rw [List.getLast?_concat] at hj
          cases hj
          exact .inl (Option.some.inj (hd.symm.trans h))
      · rw [hlast] at hj
        cases hj
        simp only [MachineInstr.isUnconditionalBranch, Bool.and_eq_true] at hu
        rcases hj' with h | ⟨h, -⟩
        · simp [MachineInstr.isConditionalBranch, hu.1.2] at h
        · rw [h.isBranch] at hb
          cases hb
    rcases hx with rfl | rfl
    · obtain ⟨haf, hh⟩ := flagsOf_spec cc true
      exact ⟨flagsOf cc true, haf, by simp only [hh, if_true]⟩
    · obtain ⟨haf, hh⟩ := flagsOf_spec cc false
      exact ⟨flagsOf cc false, haf, by simp [hh]⟩

omit T in
/-- No edge leads from a block whose end the pass keeps. -/
theorem not_edge (T : Transit dummyInstr mf Q fin entry) (hi : (mf.blocks c).instrs = pre ++ [i])
    (hu : i.isUnconditionalBranch = false) (hc : i.isConditionalBranch = false)
    (h : i.isIndirectBranch ∨ (advance st c rest).mf.getFallThrough c = none) :
    ¬ (ReplacedBranch mf c d ∨ FallsInto mf c d) := by
  have hs := T.emitted.shape c S.mem
  rintro (hd | ⟨hn, j, hj, hj'⟩)
  · rcases hd.of_concat hi with ⟨h | h, -⟩ | ⟨h, -⟩
    · rw [hc] at h
      cases h
    · rw [hu] at h
      cases h
    · rw [hu] at h
      cases h
  · rw [hi, List.getLast?_concat] at hj
    cases hj
    rcases hj' with h' | ⟨ho, hsucc⟩
    · rw [hc] at h'
      cases h'
    rcases h with h | h
    · rw [ho.isIndirectBranch] at h
      cases h
    · rcases hs.last hi with hb | hr | ⟨-, hall⟩
      · rw [ho.isBranch] at hb
        cases hb
      · have := ho.isReturn
        rw [hr.flags.1] at this
        cases this
      · have := (S.fallThrough T).falls (fun j hj => (hall d hn hsucc j hj).isTerminator) d hn hsucc
        rw [h] at this
        cases this

end Site

/-- Of each block either the pass has kept the end, and no edge leads from it, or the
inserted instructions take control along its edges. -/
theorem Transit.leaves (T : Transit dummyInstr mf Q fin entry) (hc : c ∈ mf.layout) :
    insertedInstrs mf Q.mf c = [] ∧ (∀ d, ¬ (ReplacedBranch mf c d ∨ FallsInto mf c d)) ∨
      insertedInstrs mf Q.mf c ≠ [] ∧
        ∃ pick, Departs dummyInstr mf Q fin c (insertedInstrs mf Q.mf c) pick := by
  obtain ⟨before, rest, st, st', fakeBlock, S⟩ := T.site hc
  obtain ⟨o, ho, hao, hN⟩ := S.done.ending
  rw [S.instrs (List.mem_cons_self ..)] at ho
  rw [S.inserted T]
  have hbranch {i : MachineInstr} (hb : i.isBranch) (z : Nat) : i ≠ lea targetRegOpcode z := by
    rintro rfl
    cases hb
  generalize hi : (mf.blocks c).instrs = is at ho
  generalize st'.instrs c = is' at ho
  cases ho with
  | empty => exact .inl ⟨rfl, fun d => not_edge_of_empty hi⟩
  | leave hu hcond h =>
    exact .inl ⟨dropCommon_self _, fun d => S.not_edge T hi hu hcond (h.imp_right And.left)⟩
  | @fall pre i n z hu hcond hind hn hl =>
    refine .inr ?_
    have hdrop := dropCommon_append (pre ++ [i]) [] [lea targetRegOpcode z]
    simp only [List.append_assoc, List.append_nil, List.singleton_append] at hdrop
    rw [hdrop]
    exact ⟨List.cons_ne_nil _ _, _, S.departs_fall T hi hu hcond hind hn hl hao⟩
  | @jump pre i d z hu hp hd hl =>
    refine .inr ?_
    rw [dropCommon_append, dropCommon, if_neg (hbranch (isBranch_of_unconditional hu) z)]
    exact ⟨List.cons_ne_nil _ _, _, S.departs_jump T hi hu hp hd hl⟩
  | @cond pre i cc d zF zT hop hd hF hT =>
    refine .inr ?_
    rw [dropCommon_append, dropCommon,
      if_neg (hbranch (isBranch_of_conditional (flags_of_jcc1 hop).1) zF)]
    obtain ⟨n, h⟩ := S.departs_cond T hi hop hd hF hT hao
    exact ⟨List.cons_ne_nil _ _, _, h⟩
  | @split pre jcc i cc d d' zF zT N hop hd hu hd' hF hT hNi =>
    refine .inr ?_
    rw [dropCommon_append, dropCommon,
      if_neg (hbranch (isBranch_of_conditional (flags_of_jcc1 hop).1) zF)]
    exact ⟨List.cons_ne_nil _ _, _,
      S.departs_split T hi hop hd hu hd' hF hT hNi hao (hN N rfl).1⟩

theorem Departs.mem {is : List MachineInstr} {pick : EFlags → Nat}
    (h : Departs dummyInstr mf Q fin c is pick) (hmf : WellFormed mf) (hc : c ∈ mf.layout)
    (f : EFlags) : pick f ∈ mf.layout := by
  rcases h.edge f with ⟨is, hs, -, i, hi, hd⟩ | ⟨hn, -⟩
  · exact hmf.targets c hc i (hs.subset hi) _ hd
  · exact mem_of_nextOf hn

/-! ## Landing -/

/-- What control that comes to a block of the input lands in. -/
theorem ComesTo.lands {a : Bool} {t : Cfg σ} {f : EFlags} (h : ComesTo mf Q fin a t f d)
    (hd : d ∈ mf.layout) : ∃ s z, FlagsAfter a f s.eflags ∧ Turns fin z d ∧
      s.gpr .r15 = Q.addr z ∧ Q.system.Emits (landing mf) t [(d, s)] ∧
      ∀ o os, Q.system.Emits (landing mf) t (o :: os) ↔
        o = (d, s) ∧ Q.system.Emits (landing mf) (.run d (Q.instrs d) s) os := by
  obtain ⟨k, es, s, z, hs, hl, hf, hz, hr⟩ := h
  have hseen : (es ++ [Event.enter d s]).filterMap (landing mf) = [(d, s)] := by
    simp [hl, landing, hd]
  have hiff (os : List (Nat × State σ)) : Q.system.Emits (landing mf) t ((d, s) :: os) ↔
      Q.system.Emits (landing mf) (.run d (Q.instrs d) s) os := by
    have h : Q.system.Emits (landing mf) t (_ ++ os) ↔ _ := hs.emits_iff os
    rwa [hseen] at h
  have hfirst : Q.system.Emits (landing mf) t [(d, s)] := (hiff []).mpr ⟨0, [], _, .refl _, by simp⟩
  refine ⟨s, z, hf, hz, hr, hfirst, fun o os => ⟨fun ho => ?_, fun ⟨he, h⟩ => ?_⟩⟩
  · obtain rfl : o = (d, s) := ho.cons_eq hfirst
    exact ⟨rfl, (hiff os).mp ho⟩
  · exact he ▸ (hiff os).mpr h

namespace Transit

variable (T : Transit dummyInstr mf Q fin entry) {s : State σ} {os : List (Nat × State σ)}
include T

theorem empty_block (hc : c ∈ mf.layout) (hi : (mf.blocks c).instrs = []) :
    Q.instrs c = [] ∧ ∃ f, FakeAfter fin c f := by
  obtain ⟨before, rest, st, st', fakeBlock, S⟩ := T.site hc
  refine ⟨?_, S.fake (by simp [MachineBasicBlock.isReturnBlock, hi])⟩
  obtain ⟨o, ho, -, -⟩ := S.done.ending
  rw [S.instrs (List.mem_cons_self ..), hi] at ho
  rw [S.fin_instrs T]
  generalize st'.instrs c = is' at ho
  generalize his : ([] : List MachineInstr) = is at ho
  cases ho with
  | empty => rfl
  | _ => simp at his

/-- Where control lands in an empty block over a trampoline, it lands in it again, and so
for ever: R15 still points to that trampoline. -/
theorem spins (hc : c ∈ mf.layout) (hi : (mf.blocks c).instrs = []) (hz : Turns fin z c)
    (hs : s.gpr .r15 = Q.addr z) : Q.system.Emits (landing mf) (.run c (Q.instrs c) s) os ↔
      ∃ k, os = List.replicate k (c, s) := by
  obtain ⟨hQi, f, hf⟩ := T.empty_block hc hi
  have hfake := T.placed.run_fake hf hz.genuine hs
  obtain ⟨hzb, hzp, is, hzi⟩ := hz
  have hgoto : Q.system.StepsIn 1 (.run z (jmp4 c :: is) s) _ _ :=
    Q.stepsIn_goto (exec_jmp4 Q s c)
  rw [T.placed.instrs hzb, hzi] at hfake
  rw [hQi] at hgoto ⊢
  have hcycle : Q.system.StepsIn 3 (.run c [] s) [.enter f s, .exec f jmp64r s, .enter z s,
      .exec z (jmp4 c) s, .enter c s] (.run c [] s) := hfake.trans hgoto
  have hseen : ([.enter f s, .exec f jmp64r s, .enter z s, .exec z (jmp4 c) s,
      .enter c s] : List (Event σ)).filterMap (landing mf) = [(c, s)] := by
    have hland : landing mf (.enter c s) = some (c, s) := if_pos hc
    rw [List.filterMap_cons_none (landing_enter (T.fakeAfter_not_mem hf) s),
      List.filterMap_cons_none (landing_exec ..),
      List.filterMap_cons_none (landing_enter (T.not_mem hzp) s),
      List.filterMap_cons_none (landing_exec ..), List.filterMap_cons_some hland]
    rfl
  constructor
  · rintro ⟨n, es, t, hes, hp⟩
    refine ⟨os.length, List.eq_replicate_iff.mpr ⟨rfl, fun o ho => ?_⟩⟩
    obtain ⟨e, he, hoe⟩ := List.mem_filterMap.mp (hp.subset ho)
    have := List.mem_filterMap.mpr ⟨e, hcycle.mem_of_cycle (by omega) hes e he, hoe⟩
    rw [hseen] at this
    exact List.mem_singleton.mp this
  · rintro ⟨k, rfl⟩
    induction k with
    | zero => exact ⟨0, [], _, .refl _, List.nil_prefix⟩
    | succ k ih =>
      have := (hcycle.emits_iff _).mpr ih
      rwa [hseen] at this

/-- The flags are kept unless the option is on and a branch skips a long block. -/
theorem flags_iff [Nonempty σ] :
    FlagsKept mf Q ↔ (dummyInstr = true → ¬ SkipsLong mf) := by
  have hnd := T.emitted.nodup
  constructor
  · rintro hk hdummy ⟨b, d, hr, hne, hlong⟩
    have hb : b ∈ mf.layout := by
      obtain ⟨p, mid, post, hl, -⟩ := hlong
      simp [hl]
    rcases T.leaves hb with ⟨-, h⟩ | ⟨hins, pick, D⟩
    · exact h d (.inl hr)
    obtain ⟨f, haf, rfl⟩ := D.all d (.inl hr)
    let s : State σ := ⟨fun _ => 0, f, Classical.arbitrary σ⟩
    obtain ⟨a, hcome, ha⟩ := D.comes s
    obtain ⟨s', z, hfl, -, -, hland, -⟩ := hcome.lands (D.mem T.emitted.toWellFormed hb f)
    have hkept : s'.eflags = s.eflags := hk b hb s [] _ s' ⟨hins, hland⟩ (by simp) hne
    rw [ha.mpr ⟨hdummy, hlong⟩, FlagsAfter, if_pos rfl, hkept] at hfl
    exact Bool.false_ne_true (hfl.symm.trans haf)
  · intro hcond b hb s os c s' hland hos hne
    rcases T.leaves hb with ⟨h, -⟩ | ⟨-, pick, D⟩
    · exact absurd h hland.1
    obtain ⟨a, hcome, ha⟩ := D.comes s
    have hmem := D.mem T.emitted.toWellFormed hb s.eflags
    obtain ⟨s₁, z, hfl, hz, hr15, -, hfirst⟩ := hcome.lands hmem
    by_cases hempty : (mf.blocks (pick s.eflags)).instrs = []
    · have hall : ∀ o ∈ os ++ [(c, s')], o = (pick s.eflags, s₁) := by
        obtain ⟨o, os', ho⟩ := List.exists_cons_of_ne_nil
          (show os ++ [(c, s')] ≠ [] by simp)
        rw [ho] at hland ⊢
        obtain ⟨h₁, h₂⟩ := (hfirst o os').mp hland.2
        obtain ⟨k, rfl⟩ := (T.spins hmem hempty hz hr15).mp h₂
        exact fun o ho =>
          (List.mem_cons.mp ho).elim (fun h => h ▸ h₁) fun h => (List.mem_replicate.mp h).2
      have hc := hall (c, s') (by simp)
      rw [(Prod.mk.inj hc).1] at hne
      exact absurd hempty hne
    · obtain - | ⟨o, os⟩ := os
      · obtain ⟨h, -⟩ := (hfirst _ _).mp hland.2
        obtain ⟨rfl, rfl⟩ := Prod.mk.inj h
        have hshort : a = false := by
          rw [Bool.eq_false_iff]
          intro h
          obtain ⟨hdummy, hlong⟩ := ha.mp h
          rcases D.edge s.eflags with he | ⟨hn, -⟩
          · exact hcond hdummy ⟨b, _, he, hempty, hlong⟩
          · exact FallsInto.not_longBetween hnd hn hlong
        rw [hshort] at hfl
        exact hfl
      · obtain ⟨h, -⟩ := (hfirst o _).mp hland.2
        have hempty' := hos o (List.mem_cons_self ..)
        rw [h] at hempty'
        exact absurd hempty' hempty

/-- Control that lands in an empty block stays there. -/
theorem empty_spins : EmptySpins mf Q := by
  intro b hb s c s' hland hempty
  rcases T.leaves hb with ⟨h, -⟩ | ⟨hins, pick, D⟩
  · exact absurd h hland.1
  obtain ⟨a, hcome, -⟩ := D.comes s
  have hmem := D.mem T.emitted.toWellFormed hb s.eflags
  obtain ⟨s₁, z, -, hz, hr15, -, hfirst⟩ := hcome.lands hmem
  obtain ⟨h, -⟩ := (hfirst _ _).mp hland.2
  obtain ⟨rfl, rfl⟩ := Prod.mk.inj h
  refine ⟨?_, fun os => ⟨fun h => ?_, fun ⟨k, hk⟩ => ⟨hins, ?_⟩⟩⟩
  · obtain ⟨hzb, hzp, is, hi⟩ := hz
    refine ⟨z, T.placed.mem_layout hzb, T.not_mem hzp, ?_, hr15⟩
    rw [T.placed.instrs hzb, hi]
    exact List.mem_cons_self ..
  · cases os with
    | nil => exact ⟨0, rfl⟩
    | cons o os =>
      obtain ⟨rfl, hrest⟩ := (hfirst o os).mp h.2
      obtain ⟨k, rfl⟩ := (T.spins hmem hempty hz hr15).mp hrest
      exact ⟨k + 1, rfl⟩
  · cases k with
    | zero => exact hk ▸ ⟨0, [], _, .refl _, List.nil_prefix⟩
    | succ k =>
      rw [hk, List.replicate_succ, hfirst]
      exact ⟨rfl, (T.spins hmem hempty hz hr15).mpr ⟨k, rfl⟩⟩

/-- Empty blocks are kept unless control can come to one. -/
theorem empty_iff [Nonempty σ] : EmptyKept mf Q ↔
    ∀ b ∈ mf.layout, ∀ d, ReplacedBranch mf b d ∨ FallsInto mf b d → (mf.blocks d).instrs ≠ [] := by
  constructor
  · intro hk b hb d hd hempty
    rcases T.leaves hb with ⟨-, h⟩ | ⟨hins, pick, D⟩
    · exact h d hd
    obtain ⟨f, -, rfl⟩ := D.all d hd
    let s : State σ := ⟨fun _ => 0, f, Classical.arbitrary σ⟩
    have hmem := D.mem T.emitted.toWellFormed hb f
    obtain ⟨a, hcome, -⟩ := D.comes s
    obtain ⟨s', z, -, hz, hr15, hland, hfirst⟩ := hcome.lands hmem
    obtain ⟨n, s'', hn, hland'⟩ := hk b hb s _ s' ⟨hins, hland⟩ hempty
    obtain ⟨k, hk⟩ := (T.spins hmem hempty hz hr15).mp ((hfirst _ _).mp hland'.2).2
    have h : (n, s'') = (pick f, s') := (List.mem_replicate.mp (hk ▸ List.mem_singleton_self _)).2
    rw [MachineFunction.layoutSucc, (Prod.mk.inj h).1] at hn
    exact nextOf_ne T.emitted.nodup hn rfl
  · intro hcond b hb s c s' hland hempty
    rcases T.leaves hb with ⟨h, -⟩ | ⟨-, pick, D⟩
    · exact absurd h hland.1
    obtain ⟨a, hcome, -⟩ := D.comes s
    obtain ⟨s₁, z, -, -, -, -, hfirst⟩ :=
      hcome.lands (D.mem T.emitted.toWellFormed hb s.eflags)
    obtain ⟨h, -⟩ := (hfirst _ _).mp hland.2
    obtain ⟨rfl, -⟩ := Prod.mk.inj h
    exact absurd hempty (hcond b hb _ (D.edge s.eflags))

end Transit

theorem transit_of_run {out : MachineFunction} (hmf : Emitted mf)
    (h : runOnMachineFunction dummyInstr mf = .ok out) {T : Target σ} {addr : Nat → BitVec 64}
    (haddr : Apart mf out addr) :
    ∃ fin entry, Transit dummyInstr mf ⟨out, T, addr, .object⟩ fin entry := by
  obtain ⟨entry, fin, -, W, rfl⟩ := walk_of_run hmf.toWellFormed h
  exact ⟨fin, entry, hmf, W, .of_apart W haddr, rfl⟩

/-- Between the blocks of the input the inserted code changes the flags exactly where a
dummy instruction is executed: with the option on, when a branch that is replaced goes
forward over a block of more than two instructions. -/
theorem flagsKept_iff {out : MachineFunction} [Nonempty σ] (hmf : Emitted mf)
    (h : runOnMachineFunction dummyInstr mf = .ok out) (T : Target σ) (addr : Nat → BitVec 64)
    (haddr : Apart mf out addr) :
    FlagsKept mf ⟨out, T, addr, .object⟩ ↔ (dummyInstr = true → ¬ SkipsLong mf) := by
  obtain ⟨fin, entry, T⟩ := transit_of_run hmf h (T := T) haddr
  exact T.flags_iff

/-- Blocks placed by number, but for the fake block of the empty block of `hop`, which has
the address of that block. -/
def hopAddr (b : Nat) : BitVec 64 := BitVec.ofNat 64 (if b = 9 then 2 else b)

theorem hop_apart (dummyInstr : Bool) : ∃ out, runOnMachineFunction dummyInstr hop = .ok out ∧
    Apart hop out hopAddr := by
  have hapart : ((runOnMachineFunction dummyInstr hop).map fun out =>
      decide (Apart hop out hopAddr)) = .ok true := by
    cases dummyInstr <;> decide
  cases hout : runOnMachineFunction dummyInstr hop with
  | error e =>
    rw [hout] at hapart
    cases hapart
  | ok out =>
    rw [hout] at hapart
    exact ⟨out, rfl, of_decide_eq_true (Except.ok.inj hapart)⟩

/-- The jump of `hop` changes the flags when the option is on. -/
theorem flagsKept_iff_hop : ∃ out, runOnMachineFunction true hop = .ok out ∧
    ¬ FlagsKept hop ⟨out, idle, hopAddr, .object⟩ := by
  obtain ⟨out, hout, haddr⟩ := hop_apart true
  refine ⟨out, hout, fun h => (flagsKept_iff hop_emitted hout idle _ haddr).mp h rfl ?_⟩
  exact ⟨0, 3, ⟨[⟨.jmp1, [.mbb 3]⟩], ⟨[], rfl⟩, rfl, ⟨.jmp1, [.mbb 3]⟩, by simp, rfl⟩, by decide,
    [], [1, 2], [], rfl, 1, by decide, by decide⟩

end BS.BranchConversion
