import BranchShadowing.Proof.BranchConversion.Accept
import BranchShadowing.Proof.X86.Semantics

/-!
# The functions of the back end, converted

A `Convertible` function is accepted (`Convertible.isOk`), and each of its blocks
keeps all but its end, which changes as `EndOf` lists.
-/

namespace BS.BranchConversion

open X86 PassState

/-! ## The kinds of instruction -/

section

variable {mf : MachineFunction} {i : MachineInstr}

theorem Ordinary.not_unconditional (h : Ordinary i) : i.isUnconditionalBranch = false := by
  simp [MachineInstr.isUnconditionalBranch, h.isBranch]

theorem Ordinary.not_conditional (h : Ordinary i) : i.isConditionalBranch = false := by
  simp [MachineInstr.isConditionalBranch, h.isBranch]

theorem IsJcc.conditional (h : IsJcc mf i) : i.isConditionalBranch = true := by
  obtain ⟨⟨cc, ho⟩, -⟩ := h
  exact (flags_of_jcc1 ho).1

theorem IsJcc.not_return (h : IsJcc mf i) : i.isReturn = false := by
  obtain ⟨⟨cc, ho⟩, -⟩ := h
  simp [MachineInstr.isReturn, ho, Opcode.desc]

theorem IsJmp.unconditional (h : IsJmp mf i) : i.isUnconditionalBranch = true :=
  isUnconditionalBranch_of_jmp1 h.1

theorem IsJmp.not_return (h : IsJmp mf i) : i.isReturn = false := by
  simp [MachineInstr.isReturn, h.1, Opcode.desc]

theorem IsIndirectJump.flags (h : IsIndirectJump i) :
    i.isIndirectBranch = true ∧ i.isReturn = false ∧ i.isUnconditionalBranch = false ∧
      i.isConditionalBranch = false := by
  rcases h with ⟨h, -⟩ | ⟨h, -⟩ <;>
    simp [MachineInstr.isIndirectBranch, MachineInstr.isReturn, MachineInstr.isUnconditionalBranch,
      MachineInstr.isConditionalBranch, h, Opcode.desc]

theorem IsIndirectJump.isReg (h : IsIndirectJump i) :
    (i.getOperand 0).any MachineOperand.isReg = true := by
  rcases h with ⟨-, g, h⟩ | ⟨-, h⟩
  · rw [h]
    rfl
  · exact h

theorem mbb?_of_isReg (h : (i.getOperand 0).any MachineOperand.isReg = true) : i.mbb? = none := by
  unfold MachineInstr.mbb?
  cases ho : i.getOperand 0 with
  | none => rfl
  | some o =>
    rw [ho] at h
    cases o <;> first | rfl | cases h

theorem IsReturn.flags (h : IsReturn i) :
    i.isReturn = true ∧ i.isBranch = false ∧ i.isIndirectBranch = false ∧
      i.isTerminator = true ∧ i.isBarrier = true ∧ i.isDebugValue = false := by
  simp only [IsReturn, List.mem_cons, List.not_mem_nil, or_false] at h
  rcases h with h | h | h | h | h <;>
    simp [MachineInstr.isIndirectBranch, MachineInstr.isReturn, MachineInstr.isBranch,
      MachineInstr.isTerminator, MachineInstr.isBarrier, MachineInstr.isDebugValue, h, Opcode.desc]

end

/-! ## The end of a block -/

/-- How the end of block `c`, the `i`-th walked, changes: in each case the
instructions at the end, before and after. -/
inductive EndOf (dummyInstr : Bool) (mf : MachineFunction) (fin : PassState) (c i : Nat) :
    List MachineInstr → List MachineInstr → Prop
  | indirect {mi : MachineInstr} : IsIndirectJump mi → EndOf dummyInstr mf fin c i [mi] [mi]
  | ret {mi : MachineInstr} : IsReturn mi → EndOf dummyInstr mf fin c i [mi] [mi]
  | noReturn {mi : MachineInstr} : Ordinary mi → mi.isCall →
    (∀ n, mf.layoutSucc c = some n → n ∉ (mf.blocks c).succs) →
    EndOf dummyInstr mf fin c i [mi] [mi]
  | fall {n z f : Nat} : mf.layoutSucc c = some n → FakeAfter fin c f →
    Route dummyInstr fin (i + 1) z n → EndOf dummyInstr mf fin c i [] [lea .r15 z]
  | jump {mi : MachineInstr} {d z f : Nat} : IsJmp mf mi → mi.mbb? = some d →
    FakeAfter fin c f → Route dummyInstr fin (i + 1) z d →
    EndOf dummyInstr mf fin c i [mi] [lea .r15 z]
  | cond {jcc : MachineInstr} {cc : Cond} {d n zF zT f : Nat} : IsJcc mf jcc →
    jcc.opcode = .jcc1 cc → jcc.mbb? = some d → mf.layoutSucc c = some n → FakeAfter fin c f →
    Route dummyInstr fin (i + 1) zF n → Route dummyInstr fin (i + 1) zT d →
    EndOf dummyInstr mf fin c i [jcc] [lea .r15 zF, lea .r13 zT, cmov (.cmov64rr cc)]
  | split {jcc mi : MachineInstr} {cc : Cond} {d d' zF zT f N z f' : Nat} : IsJcc mf jcc →
    jcc.opcode = .jcc1 cc → jcc.mbb? = some d → IsJmp mf mi → mi.mbb? = some d' →
    FakeAfter fin c f → Route dummyInstr fin (i + 1) zF N → Route dummyInstr fin (i + 1) zT d →
    fin.processedMBBs[i + 1]? = some N → mf.nextMBB ≤ N → fin.instrs N = [lea .r15 z] →
    FakeAfter fin N f' → Route dummyInstr fin (i + 2) z d' →
    EndOf dummyInstr mf fin c i [jcc, mi] [lea .r15 zF, lea .r13 zT, cmov (.cmov64rr cc)]

/-- Block `c` keeps its instructions up to its end, which changes. -/
def BlockKept (dummyInstr : Bool) (mf : MachineFunction) (fin : PassState) (c i : Nat) : Prop :=
  ∃ mid e e', (mf.blocks c).instrs = mid ++ e ∧ fin.instrs c = mid ++ e' ∧
    (∀ j ∈ mid, Ordinary j ∨ IsJcc mf j) ∧ EndOf dummyInstr mf fin c i e e'

section

variable {dummyInstr : Bool} {mf : MachineFunction} {fin : PassState} {c i : Nat}

theorem last_eq {pre pre' : List MachineInstr} {x y : MachineInstr} (h : pre ++ [x] = pre' ++ [y]) :
    pre = pre' ∧ x = y := by
  obtain ⟨h₁, h₂⟩ := List.append_inj' h rfl
  exact ⟨h₁, (List.cons.inj h₂).1⟩

theorem lastTwo_eq {pre pre' : List MachineInstr} {x y z : MachineInstr}
    (h : pre ++ [x] = pre' ++ [y, z]) : pre = pre' ++ [y] ∧ x = z :=
  last_eq (by simpa using h)

/-- The fake block behind a block that does not return. -/
theorem BlockConverted.fake_of_last {mi : MachineInstr}
    (h : BlockConverted dummyInstr fin mf.nextMBB (mf.layoutSucc c) (mf.blocks c) i c)
    (hl : (mf.blocks c).instrs.getLast? = some mi) (hr : mi.isReturn = false) :
    ∃ f, FakeAfter fin c f := by
  rcases h.fake with h | ⟨-, h⟩
  · exact h
  · rw [MachineBasicBlock.isReturnBlock, hl, Option.any_some, hr] at h
    cases h

/-- A block that ends in branches. -/
theorem blockKept_of_branches {plain : List MachineInstr} {jmp : Option MachineInstr}
    (h : BlockConverted dummyInstr fin mf.nextMBB (mf.layoutSucc c) (mf.blocks c) i c)
    (hi : (mf.blocks c).instrs = plain ++ jmp.toList)
    (hp : ∀ j ∈ plain, Ordinary j ∨ IsJcc mf j) (hj : ∀ j ∈ jmp, IsJmp mf j)
    (hlast : jmp = none → ∃ pre j, plain = pre ++ [j] ∧ IsJcc mf j) :
    BlockKept dummyInstr mf fin c i := by
  obtain ⟨ft, -, hc⟩ := h.code
  cases jmp with
  | some j =>
    have hjmp := hj j rfl
    obtain ⟨f, hf⟩ := h.fake_of_last (by simp [hi]) hjmp.not_return
    simp only [Option.toList_some] at hi
    generalize hfin : fin.instrs c = is' at hc
    generalize hcur : (mf.blocks c).instrs = is at hc
    rw [hi] at hcur
    cases hc with
    | leave hu =>
      rw [← (last_eq hcur).2, hjmp.unconditional] at hu
      cases hu
    | fall hu =>
      rw [← (last_eq hcur).2, hjmp.unconditional] at hu
      cases hu
    | jump hu hlastp hd hr =>
      obtain ⟨rfl, rfl⟩ := last_eq hcur
      exact ⟨plain, [j], _, hi, hfin, hp, .jump hjmp hd hf hr⟩
    | cond ho =>
      rw [← (last_eq hcur).2, hjmp.1] at ho
      cases ho
    | @split pre jcc mi cc d d' zF zT N f' z ho hd hu hd' hrF hrT hN hlo hNi hfN hr =>
      obtain ⟨rfl, rfl⟩ := lastTwo_eq hcur
      have hjcc : IsJcc mf jcc := by
        refine (hp jcc (by simp)).resolve_left fun h => ?_
        have := h.not_conditional
        rw [(flags_of_jcc1 ho).1] at this
        cases this
      exact ⟨pre, [jcc, j], _, by simpa using hi, hfin, fun k hk => hp k (by simp [hk]),
        .split hjcc ho hd hjmp hd' hf hrF hrT hN hlo hNi hfN hr⟩
  | none =>
    obtain ⟨pre', j, rfl, hjcc⟩ := hlast rfl
    obtain ⟨f, hf⟩ := h.fake_of_last (by simp [hi]) hjcc.not_return
    obtain ⟨⟨cc', ho'⟩, -⟩ := id hjcc
    simp only [Option.toList_none, List.append_nil] at hi
    generalize hfin : fin.instrs c = is' at hc
    generalize hcur : (mf.blocks c).instrs = is at hc
    rw [hi] at hcur
    cases hc with
    | leave _ hc =>
      rw [← (last_eq hcur).2, hjcc.conditional] at hc
      cases hc
    | fall _ hc =>
      rw [← (last_eq hcur).2, hjcc.conditional] at hc
      cases hc
    | jump hu =>
      rw [← (last_eq hcur).2, (flags_of_jcc1 ho').2.1] at hu
      cases hu
    | cond ho hd hn hrF hrT =>
      obtain ⟨rfl, rfl⟩ := last_eq hcur
      exact ⟨pre', [j], _, hi, hfin, fun k hk => hp k (by simp [hk]),
        .cond hjcc ho hd hn hf hrF hrT⟩
    | split _ _ hu =>
      rw [← (lastTwo_eq hcur).2, (flags_of_jcc1 ho').2.1] at hu
      cases hu

theorem blockKept (hs : BlockShape mf c) (hne : (mf.blocks c).instrs ≠ [])
    (h : BlockConverted dummyInstr fin mf.nextMBB (mf.layoutSucc c) (mf.blocks c) i c) :
    BlockKept dummyInstr mf fin c i := by
  cases hs with
  | branches pre jccs jmp hi hpre hjccs hjmp hnone =>
    refine blockKept_of_branches h hi (fun j hj => ?_) hjmp fun hn => ?_
    · rcases List.mem_append.mp hj with hj | hj
      · exact .inl (hpre j hj)
      · exact .inr (hjccs j hj)
    · obtain ⟨l, j, hl⟩ := List.eq_nil_or_concat jccs |>.resolve_left (hnone hn).1
      exact ⟨pre ++ l, j, by simp [hl], hjccs j (by simp [hl])⟩
  | indirect pre mi hi hpre hmi =>
    obtain ⟨ft, -, hc⟩ := h.code
    obtain ⟨hind, -, hu, hcond⟩ := hmi.flags
    have hplain : ∀ j ∈ pre, Ordinary j ∨ IsJcc mf j := fun j hj => .inl (hpre j hj)
    generalize hfin : fin.instrs c = is' at hc
    generalize hcur : (mf.blocks c).instrs = is at hc
    rw [hi] at hcur
    cases hc with
    | leave =>
      obtain ⟨rfl, rfl⟩ := last_eq hcur
      exact ⟨pre, [mi], [mi], hi, hfin, hplain, .indirect hmi⟩
    | fall _ _ hb =>
      rw [← (last_eq hcur).2, hind] at hb
      cases hb
    | jump hu' =>
      rw [← (last_eq hcur).2, hu] at hu'
      cases hu'
    | cond ho =>
      rw [← (last_eq hcur).2] at ho
      rw [(flags_of_jcc1 ho).1] at hcond
      cases hcond
    | split _ _ hu' =>
      rw [← (lastTwo_eq hcur).2, hu] at hu'
      cases hu'
  | ret pre mi hi hpre hmi =>
    obtain ⟨ft, hft, hc⟩ := h.code
    obtain ⟨-, hb, hind, ht, hbar, hdbg⟩ := hmi.flags
    have hplain : ∀ j ∈ pre, Ordinary j ∨ IsJcc mf j := fun j hj => .inl (hpre j hj)
    have hnone : ft = none := hft.barrier mi (by simp [hi]) hdbg ht hb hbar
    generalize hfin : fin.instrs c = is' at hc
    generalize hcur : (mf.blocks c).instrs = is at hc
    rw [hi] at hcur
    cases hc with
    | leave =>
      obtain ⟨rfl, rfl⟩ := last_eq hcur
      exact ⟨pre, [mi], [mi], hi, hfin, hplain, .ret hmi⟩
    | fall _ _ _ hs =>
      rw [hnone] at hs
      cases hs
    | jump hu =>
      rw [← (last_eq hcur).2] at hu
      rw [isBranch_of_unconditional hu] at hb
      cases hb
    | cond ho =>
      rw [← (last_eq hcur).2] at ho
      rw [isBranch_of_conditional (flags_of_jcc1 ho).1] at hb
      cases hb
    | split _ _ hu =>
      rw [← (lastTwo_eq hcur).2] at hu
      rw [isBranch_of_unconditional hu] at hb
      cases hb
  | noReturn pre mi hi hpre hmi hcall hns =>
    obtain ⟨ft, hft, hc⟩ := h.code
    have hplain : ∀ j ∈ pre, Ordinary j ∨ IsJcc mf j := fun j hj => .inl (hpre j hj)
    generalize hfin : fin.instrs c = is' at hc
    generalize hcur : (mf.blocks c).instrs = is at hc
    rw [hi] at hcur
    cases hc with
    | leave =>
      obtain ⟨rfl, rfl⟩ := last_eq hcur
      exact ⟨pre, [mi], [mi], hi, hfin, hplain, .noReturn hmi hcall hns⟩
    | fall _ _ _ hs =>
      obtain ⟨hn, hsucc⟩ := hft.found _ hs
      exact absurd hsucc (hns _ hn)
    | jump hu =>
      rw [← (last_eq hcur).2, hmi.not_unconditional] at hu
      cases hu
    | cond ho =>
      rw [← (last_eq hcur).2] at ho
      have := hmi.not_conditional
      rw [(flags_of_jcc1 ho).1] at this
      cases this
    | split _ _ hu =>
      rw [← (lastTwo_eq hcur).2, hmi.not_unconditional] at hu
      cases hu
  | fall n hord hn hsucc =>
    obtain ⟨ft, hft, hc⟩ := h.code
    have hfts : ft = some n := hft.falls (fun j hj => (hord j hj).isTerminator) n hn hsucc
    obtain ⟨pre, mi, hi⟩ := List.eq_nil_or_concat (mf.blocks c).instrs |>.resolve_left hne
    rw [List.concat_eq_append] at hi
    have hmi := hord mi (by simp [hi])
    obtain ⟨f, hf⟩ := h.fake_of_last (by simp [hi]) hmi.isReturn
    generalize hfin : fin.instrs c = is' at hc
    generalize hcur : (mf.blocks c).instrs = is at hc hi hord
    rw [hi] at hcur
    cases hc with
    | leave _ _ hl =>
      obtain ⟨rfl, rfl⟩ := last_eq hi.symm
      rcases hl with hl | ⟨hl, -⟩
      · rw [hmi.isIndirectBranch] at hl
        cases hl
      · rw [hfts] at hl
        cases hl
    | fall _ _ _ hs hr =>
      obtain ⟨rfl, rfl⟩ := last_eq hi.symm
      cases hfts.symm.trans hs
      exact ⟨pre ++ [mi], [], _, by simp [hcur], by simp [hfin, targetRegOpcode],
        fun j hj => .inl (hord j hj), .fall hn hf hr⟩
    | jump hu =>
      rw [← (last_eq hi.symm).2, hmi.not_unconditional] at hu
      cases hu
    | cond ho =>
      rw [← (last_eq hi.symm).2] at ho
      have := hmi.not_conditional
      rw [(flags_of_jcc1 ho).1] at this
      cases this
    | split _ _ hu =>
      rw [← (lastTwo_eq hi.symm).2, hmi.not_unconditional] at hu
      cases hu

end

/-- Control does not run off a block that has no successor behind it. -/
theorem SuccsExact.not_falls {σ : Type} {P : Program σ} {s₀ s : State σ} {n c : Nat}
    {es : List (Event σ)} (hx : SuccsExact P s₀)
    (hreach : P.system.StepsIn n (.start s₀) es (.run c [] s))
    (hns : ∀ d, P.mf.layoutSucc c = some d → d ∉ (P.mf.blocks c).succs) : False := by
  cases hl : P.mf.layoutSucc c with
  | none =>
    have hstep : P.system.step (.run c [] s) = some ([], .done c .fellOff s) := by
      simp only [Program.system, Program.step, hl]
    rcases (hx _ _ _ _ _ hreach _ _ hstep).2 _ _ _ rfl with h | h | h <;> cases h
  | some d =>
    have hstep : P.system.step (.run c [] s) = some ([.enter d s], .run d (P.instrs d) s) := by
      simp only [Program.system, Program.step, hl]
    exact hns d hl ((hx _ _ _ _ _ hreach _ _ hstep).1 d s (List.mem_singleton_self _))

/-! ## The function -/

namespace BlockShape

variable {mf : MachineFunction} {c : Nat}

/-- The branches of a block. -/
theorem of_isBranch (hs : BlockShape mf c) {i : MachineInstr} (hi : i ∈ (mf.blocks c).instrs)
    (hb : i.isBranch) : IsJcc mf i ∨ IsJmp mf i ∨ IsIndirectJump i := by
  have hord : ¬ Ordinary i := fun h => by simp [h.isBranch] at hb
  cases hs with
  | branches pre jccs jmp his hpre hjccs hjmp =>
    rw [his, List.mem_append, List.mem_append] at hi
    rcases hi with (hi | hi) | hi
    · exact absurd (hpre i hi) hord
    · exact .inl (hjccs i hi)
    · exact .inr (.inl (hjmp i (Option.mem_toList.mp hi)))
  | indirect pre mi his hpre hmi =>
    rw [his, List.mem_append, List.mem_singleton] at hi
    rcases hi with hi | rfl
    · exact absurd (hpre i hi) hord
    · exact .inr (.inr hmi)
  | ret pre mi his hpre hmi =>
    rw [his, List.mem_append, List.mem_singleton] at hi
    rcases hi with hi | rfl
    · exact absurd (hpre i hi) hord
    · simp [hmi.flags.2.1] at hb
  | noReturn pre mi his hpre hmi =>
    rw [his, List.mem_append, List.mem_singleton] at hi
    rcases hi with hi | rfl
    · exact absurd (hpre i hi) hord
    · exact absurd hmi hord
  | fall n hall => exact absurd (hall i hi) hord

/-- A block that ends in a conditional branch has one behind it. -/
theorem layoutSucc_isSome (hs : BlockShape mf c) {i : MachineInstr}
    (hi : (mf.blocks c).instrs.getLast? = some i) (hc : i.isConditionalBranch) :
    (mf.layoutSucc c).isSome := by
  cases hs with
  | branches pre jccs jmp his _ _ hjmp hnone =>
    cases jmp with
    | none => exact (hnone rfl).2
    | some j =>
      obtain rfl : j = i := by simpa [his] using hi
      have hu := (hjmp j rfl).unconditional
      simp only [MachineInstr.isUnconditionalBranch, MachineInstr.isConditionalBranch,
        Bool.and_eq_true, Bool.not_eq_true'] at hu hc
      rw [hu.1.2] at hc
      cases hc.1.2
  | indirect pre mi his _ hmi =>
    obtain rfl : mi = i := by simpa [his] using hi
    rw [hmi.flags.2.2.2] at hc
    cases hc
  | ret pre mi his _ hmi =>
    obtain rfl : mi = i := by simpa [his] using hi
    have := isBranch_of_conditional hc
    rw [hmi.flags.2.1] at this
    cases this
  | noReturn pre mi his _ hmi =>
    obtain rfl : mi = i := by simpa [his] using hi
    rw [hmi.not_conditional] at hc
    cases hc
  | fall n hall =>
    rw [(hall i (List.mem_of_getLast? hi)).not_conditional] at hc
    cases hc

theorem handled (hs : BlockShape mf c) (hne : (mf.blocks c).instrs ≠ []) :
    Handled (mf.layoutSucc c) (mf.blocks c).succs (mf.blocks c).instrs := by
  cases hs with
  | branches pre jccs jmp his hpre hjccs hjmp hnone =>
    rw [his]
    cases jmp with
    | none =>
      obtain ⟨l, j, hl⟩ := List.eq_nil_or_concat jccs |>.resolve_left (hnone rfl).1
      obtain ⟨⟨cc, ho⟩, d, -, hd⟩ := hjccs j (by simp [hl])
      rw [Option.toList_none, List.append_nil, hl, List.concat_eq_append, ← List.append_assoc]
      exact .cond ho hd
    | some j =>
      obtain ⟨ho, d, -, hd⟩ := hjmp j rfl
      refine .jump ho hd fun k hk hc => ?_
      rcases List.mem_append.mp (List.mem_of_getLast? hk) with hm | hm
      · rw [(hpre k hm).not_conditional] at hc
        cases hc
      · obtain ⟨⟨cc, ho'⟩, d', -, hd'⟩ := hjccs k hm
        exact ⟨cc, d', ho', hd'⟩
  | indirect pre i hi _ hmi => exact hi ▸ .indirect hmi.flags.1 hmi.isReg
  | ret pre i hi _ hmi =>
    exact hi ▸ .leave hmi.flags.2.1 hmi.flags.2.2.1 (.inr (.inl hmi.flags.1))
  | noReturn pre i hi _ hmi hcall =>
    exact hi ▸ .leave hmi.isBranch hmi.isIndirectBranch (.inr (.inr hcall))
  | fall n hall hn hsucc =>
    obtain ⟨pre, i, hi⟩ := List.eq_nil_or_concat (mf.blocks c).instrs |>.resolve_left hne
    rw [List.concat_eq_append] at hi
    have hmi := hall i (by simp [hi])
    rw [hi] at hall ⊢
    exact .leave hmi.isBranch hmi.isIndirectBranch
      (.inl ⟨n, hn, hsucc, fun j hj => (hall j hj).isTerminator⟩)

end BlockShape

/-- The state in which the walk over `mf` ends. -/
structure Walked (dummyInstr : Bool) (mf : MachineFunction) (fin : PassState) : Prop where
  walk : Walk dummyInstr fin (start mf)
  bookkeeping : Bookkeeping fin
  after : fin.after = []
  nextMBB : mf.nextMBB ≤ fin.nextMBB
  layout : mf.layout ⊆ fin.before
  entry : fin.processedMBBs[0]? = mf.layout.head?
  nodup : fin.processedMBBs.Nodup
  kept : ∀ c ∈ mf.layout, ∃ i, fin.processedMBBs[i]? = some c ∧ BlockKept dummyInstr mf fin c i

namespace Convertible

variable {mf : MachineFunction} (hmf : Convertible mf)
include hmf

theorem shaped : Shaped (start mf) where
  nonempty := hmf.nonempty
  noReturn c hc i hi hb := by
    rcases (hmf.shape c hc).of_isBranch hi hb with h | h | h
    · exact h.not_return
    · exact h.not_return
    · exact h.flags.2.1
  targets c hc i hi hb d hd := by
    rcases (hmf.shape c hc).of_isBranch hi hb with ⟨-, d', hd', h⟩ | ⟨-, d', hd', h⟩ | h
    · exact .inr (Option.some.inj (h.symm.trans hd) ▸ hd')
    · exact .inr (Option.some.inj (h.symm.trans hd) ▸ hd')
    · rw [mbb?_of_isReg h.isReg] at hd
      cases hd
  last c hc i hi := by
    by_contra hcond
    rw [Bool.not_eq_false] at hcond
    have h := (hmf.shape c (List.mem_of_getLast? hc)).layoutSucc_isSome hi hcond
    rw [MachineFunction.layoutSucc, nextOf_getLast? hmf.nodup hc] at h
    cases h

omit hmf in
theorem lanesOpen_start : LanesOpen (start mf) := by
  intro lane hl z hz
  cases List.mem_singleton.mp hl
  cases hz

theorem allHandled : AllHandled (start mf) := fun c hc =>
  (hmf.shape c hc).handled (hmf.nonempty c hc)

/-- The pass converts the function. -/
theorem isOk (dummyInstr : Bool) :
    ∃ entry fin, mf.layout.head? = some entry ∧ Walked dummyInstr mf fin ∧
      runOnMachineFunction dummyInstr mf = .ok (addFrontBlock fin entry).mf := by
  have hB := bookkeeping_start hmf.nodup hmf.fresh
  obtain ⟨entry, l, hl⟩ := List.exists_cons_of_ne_nil hmf.entry
  obtain ⟨fin, hfin⟩ :=
    blockLoop_isOk dummyInstr (todo_le (start mf)) hB hmf.shaped lanesOpen_start hmf.allHandled
  have W := walk_of_blockLoop hfin hB
  have hproc := W.getElem?_length
  have hkept : ∀ c ∈ mf.layout, ∃ i, fin.processedMBBs[i]? = some c ∧
      BlockKept dummyInstr mf fin c i := by
    intro c hc
    obtain ⟨i, h⟩ := W.converted hmf.shaped lanesOpen_start (Nat.le_refl _) hc
    exact ⟨i, h.processed, blockKept (hmf.shape c hc) (hmf.nonempty c hc) h⟩
  refine ⟨entry, fin, by rw [hl]; rfl,
    ⟨W, W.bookkeeping_fin, W.after_eq_nil, W.nextMBB_le, ?_, hproc,
      W.nodup_processedMBBs List.nodup_nil, hkept⟩, ?_⟩
  · intro c hc
    obtain ⟨i, hi, -⟩ := hkept c hc
    obtain ⟨tr, code, hb, -, hcode⟩ := W.bookkeeping_fin.parts
    rw [hb]
    exact List.mem_append_right _ (hcode c (List.mem_of_getElem? hi))
  · have hfin' : blockLoop dummyInstr (2 * mf.layout.length) (start mf) = .ok fin := hfin
    simp only [runOnMachineFunction]
    rw [hfin', hl]
    rfl

end Convertible

/-- A loop of one block, and a return. -/
def selfLoop : MachineFunction where
  layout := [0, 1]
  blocks b := if b = 0 then ⟨[⟨.jcc1 .e, [.mbb 0]⟩], [0, 1], false⟩ else ⟨[⟨.retq, []⟩], [], false⟩
  nextMBB := 2

theorem selfLoop_convertible : Convertible selfLoop where
  nodup := by decide
  fresh := by decide
  entry := by decide
  targets := by decide
  succs := by decide
  nonempty := by decide
  shape c hc := by
    obtain rfl | rfl : c = 0 ∨ c = 1 := by simpa [selfLoop] using hc
    · exact .branches [] [⟨.jcc1 .e, [.mbb 0]⟩] none rfl (by simp)
        (by simpa [IsJcc] using ⟨0, by decide, rfl⟩) (by simp) (by decide)
    · exact .ret [] ⟨.retq, []⟩ rfl (by simp) (by simp [IsReturn])

/-- A jump over a block of three instructions, which falls into an empty one. -/
def hop : MachineFunction where
  layout := [0, 1, 2, 3]
  blocks b :=
    if b = 0 then ⟨[⟨.jmp1, [.mbb 3]⟩], [3], false⟩
    else if b = 1 then ⟨List.replicate 3 ⟨.other 0 {}, []⟩, [2], false⟩
    else if b = 2 then ⟨[], [3], false⟩
    else ⟨[⟨.retq, []⟩], [], false⟩
  nextMBB := 4

theorem hop_emitted : Emitted hop where
  nodup := by decide
  fresh := by decide
  entry := by decide
  targets := by decide
  succs := by decide
  shape c hc := by
    have hnop : ∀ c ∈ [1, 2], ∀ i ∈ (hop.blocks c).instrs, Ordinary i := by
      intro c hc i hi
      have : ∀ c ∈ [1, 2], ∀ i ∈ (hop.blocks c).instrs, i = ⟨.other 0 {}, []⟩ := by decide
      rw [this c hc i hi]
      exact ⟨rfl, rfl, rfl, rfl⟩
    have hc : c ∈ [0, 1, 2, 3] := hc
    simp only [List.mem_cons, List.not_mem_nil, or_false] at hc
    rcases hc with rfl | rfl | rfl | rfl
    · exact .branches [] [] (some ⟨.jmp1, [.mbb 3]⟩) rfl (by simp) (by simp)
        (by simpa [IsJmp] using ⟨3, by decide, rfl⟩) (by simp)
    · exact .fall 2 (hnop 1 (by simp)) (by decide) (by decide)
    · exact .fall 3 (hnop 2 (by simp)) (by decide) (by decide)
    · exact .ret [] ⟨.retq, []⟩ rfl (by simp) (by simp [IsReturn])

end BS.BranchConversion
