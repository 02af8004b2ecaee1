import BranchShadowing.Proof.BranchConversion.Endings
import BranchShadowing.Proof.BranchConversion.LaneInvariant

/-!
# The blocks walked

Each iteration takes one off `todo`, so that the walk ends (`Head.reaches`), and after
exactly the iterations that `todo` counts at its start (`Head.add_todo`). What is split
off a block is walked next and not split again (`Walk.order`); every other block that is
created is laid out before those still to walk (`Walk.laidOut`).
-/

namespace BS.BranchConversion

open X86 PassState

variable {dummyInstr : Bool} {mf : MachineFunction} {st fin : PassState} {k : Nat}

/-! ## Termination -/

theorem Head.bookkeeping (hmf : WellFormed mf) (h : Head dummyInstr mf k st) : Bookkeeping st := by
  induction h with
  | start => exact bookkeeping_start hmf.nodup hmf.fresh
  | next _ hne hr ih =>
    obtain ⟨mbb, rest, ha⟩ := List.exists_cons_of_ne_nil hne
    obtain ⟨fakeBlock, D⟩ := runOnBlock_spec ih ha hr
    exact D.bookkeeping

theorem cost_eq (is : List MachineInstr) : cost is = 1 + (endsInTwoBranches is).toNat := by
  unfold cost endsInTwoBranches
  generalize is.getLast?.any MachineInstr.isUnconditionalBranch = u
  generalize is.dropLast.getLast?.any MachineInstr.isConditionalBranch = c
  revert u c
  decide

theorem todo_start (mf : MachineFunction) : todo (start mf) = mf.layout.length + splits mf := by
  show (mf.layout.map fun c => cost (mf.blocks c).instrs).sum = _
  unfold splits
  induction mf.layout with
  | nil => rfl
  | cons c l ih =>
    rw [List.map_cons, List.sum_cons, ih, List.length_cons, List.countP_cons, cost_eq]
    cases endsInTwoBranches (mf.blocks c).instrs
    · show 1 + 0 + _ = _
      simp only [Bool.false_eq_true, if_false]
      omega
    · show 1 + 1 + _ = _
      simp only [if_true]
      omega

theorem todo_eq_zero_iff : todo st = 0 ↔ st.after = [] := by
  refine ⟨fun h => ?_, fun h => by simp [todo, h]⟩
  by_contra hne
  obtain ⟨c, l, hl⟩ := List.exists_cons_of_ne_nil hne
  have hc := one_le_cost (st.instrs c)
  unfold todo at h
  rw [hl, List.map_cons, List.sum_cons] at h
  omega

/-- The iterations done and those to come make up the same number all along. -/
theorem Head.add_todo (hmf : WellFormed mf) (h : Head dummyInstr mf k st) :
    k + todo st = mf.layout.length + splits mf := by
  induction h with
  | start => rw [todo_start, Nat.zero_add]
  | next h hne hr ih =>
    have hB := h.bookkeeping hmf
    obtain ⟨mbb, rest, ha⟩ := List.exists_cons_of_ne_nil hne
    obtain ⟨fakeBlock, D⟩ := runOnBlock_spec hB ha hr
    have htodo := D.todo_eq hB ha
    omega

/-- Whatever its assertions say, the walk makes at most one iteration for each block and one
for each that is split. -/
theorem Head.le_iterations (hmf : WellFormed mf) (h : Head dummyInstr mf k st) :
    k ≤ mf.layout.length + splits mf := by
  rw [← h.add_todo hmf]
  exact Nat.le_add_right _ _

theorem Head.reaches (hmf : WellFormed mf)
    (hok : ∀ k st e, Head dummyInstr mf k st → runOnBlock dummyInstr st ≠ .error e) {n : Nat}
    (h : Head dummyInstr mf k st) (hn : todo st = n) : ∃ fin, Head dummyInstr mf (k + n) fin := by
  induction n generalizing k st with
  | zero => exact ⟨st, h⟩
  | succ n ih =>
    have hne : st.after ≠ [] := fun ha => by
      rw [todo_eq_zero_iff.mpr ha] at hn
      omega
    cases hr : runOnBlock dummyInstr st with
    | error e => exact absurd hr (hok k st e h)
    | ok st' =>
      have hcount := h.add_todo hmf
      have h' := h.next hne hr
      have hcount' := h'.add_todo hmf
      obtain ⟨fin, hfin⟩ := ih h' (by omega)
      refine ⟨fin, ?_⟩
      rwa [Nat.add_assoc, Nat.add_comm 1 n] at hfin

/-! ## The order -/

theorem Head.walk (hmf : WellFormed mf) (h : Head dummyInstr mf k st)
    (W : Walk dummyInstr fin st) :
    Walk dummyInstr fin (BranchConversion.start mf) := by
  induction h with
  | start => exact W
  | next h hne hr ih =>
    have hB := h.bookkeeping hmf
    obtain ⟨mbb, rest, ha⟩ := List.exists_cons_of_ne_nil hne
    obtain ⟨fakeBlock, D⟩ := runOnBlock_spec hB ha hr
    exact ih (.block hB ha D W)

theorem endsInTwoBranches_singleton (i : MachineInstr) : endsInTwoBranches [i] = false := by
  simp [endsInTwoBranches]

namespace BlockDone

variable {st' : PassState} {mbb : Nat} {rest : List Nat} {ft fakeBlock : Option Nat}
  (D : BlockDone dummyInstr st mbb rest ft fakeBlock st')
include D

/-- A block is split if it ends in two branches, and what is split off it does not. -/
theorem splitOff_eq : ∃ o : Option Nat, st'.after = o.toList ++ rest ∧
    o.isSome = endsInTwoBranches (st.instrs mbb) ∧
    ∀ N ∈ o, st.nextMBB ≤ N ∧ endsInTwoBranches (st'.instrs N) = false := by
  obtain ⟨o, ho, hao, hN⟩ := D.ending
  have hcost := ho.cost_eq
  rw [cost_eq] at hcost
  refine ⟨o, hao, ?_, fun N hNo => ⟨(hN N hNo).1, ?_⟩⟩
  · generalize endsInTwoBranches (st.instrs mbb) = b at hcost
    cases o with
    | none => cases b with
      | false => rfl
      | true => cases hcost
    | some N => cases b with
      | false => cases hcost
      | true => rfl
  · generalize st.instrs mbb = is at ho
    generalize st'.instrs mbb = is' at ho
    cases ho with
    | split _ _ _ _ _ _ hNi =>
      cases hNo
      rw [hNi]
      exact endsInTwoBranches_singleton _
    | _ => cases hNo

end BlockDone

namespace Walk

/-- The blocks left are walked in their order, and what is split off one behind it. -/
theorem order (W : Walk dummyInstr fin st) : ∃ splitOff : Nat → Option Nat,
    fin.processedMBBs = st.processedMBBs ++ followedBy splitOff st.after ∧
      ∀ c ∈ st.after, (splitOff c).isSome = endsInTwoBranches (st.instrs c) ∧
        ∀ N ∈ splitOff c, st.nextMBB ≤ N := by
  induction W with
  | done _ ha => exact ⟨fun _ => none, by simp [ha], by simp [ha]⟩
  | @block st st' mbb rest fakeBlock hB ha D W ih =>
    obtain ⟨g, hp, hg⟩ := ih
    obtain ⟨o, hao, hsplit, hN⟩ := D.splitOff_eq
    have hmbb : mbb ∉ rest := by
      have hnd := (List.nodup_append.mp hB.nodup).2.1
      rw [ha, List.nodup_cons] at hnd
      exact hnd.1
    have hlast : followedBy g (o.toList ++ rest) = o.toList ++ followedBy g rest := by
      cases ho : o with
      | none => rfl
      | some N =>
        have h := (hg N (by simp [hao, ho])).1
        rw [(hN N ho).2, Option.isSome_eq_false_iff, Option.isNone_iff_eq_none] at h
        rw [Option.toList_some, List.singleton_append, followedBy_cons, h]
        rfl
    refine ⟨Function.update g mbb o, ?_, fun c hc => ?_⟩
    · rw [hp, D.processedMBBs, hao, hlast, ha, followedBy_cons_update o hmbb, List.append_assoc]
      rfl
    · rw [ha] at hc
      rcases List.mem_cons.mp hc with rfl | hc
      · rw [Function.update_self]
        exact ⟨hsplit, fun N h => (hN N h).1⟩
      · have hne : c ≠ mbb := fun h => hmbb (h ▸ hc)
        have h := hg c (by simp [hao, hc])
        rw [D.instrs_rest hB ha hc] at h
        rw [Function.update_of_ne hne]
        exact ⟨h.1, fun N hNc => Nat.le_trans D.nextMBB (h.2 N hNc)⟩

/-- Every block created is laid out before the blocks still to walk: in front, or as the
fake block of the block just walked. -/
theorem laidOut (W : Walk dummyInstr fin st) (hnd : st.processedMBBs.Nodup) :
    ∃ (tr cs : List Nat) (fake : Nat → Option Nat),
      fin.before = tr ++ st.before ++ followedBy fake cs ∧
        fin.processedMBBs = st.processedMBBs ++ cs ∧
        ∀ c ∈ cs, ∀ f ∈ fake c, fin.instrs f = [jmp64r] ∧ f ∉ fin.processedMBBs := by
  induction W with
  | done => exact ⟨[], [], fun _ => none, by simp, by simp, by simp⟩
  | @block st st' mbb rest fakeBlock hB ha D W ih =>
    have hnd' := (Walk.block hB ha D W).nodup_processedMBBs hnd
    obtain ⟨tr, cs, fake, hb, hp, hfake⟩ := ih (hnd'.sublist W.processedMBBs.sublist)
    obtain ⟨tr', hb', -⟩ := D.before
    have hp' : fin.processedMBBs = st.processedMBBs ++ mbb :: cs := by
      rw [hp, D.processedMBBs, List.append_assoc, List.singleton_append]
    have hmbb : mbb ∉ cs := by
      rw [hp'] at hnd'
      exact (List.nodup_cons.mp (List.nodup_append.mp hnd').2.1).1
    refine ⟨tr ++ tr', mbb :: cs, Function.update fake mbb fakeBlock, ?_, hp', fun c hc f hf => ?_⟩
    · rw [hb, hb', followedBy_cons_update fakeBlock hmbb]
      simp
    · rcases List.mem_cons.mp hc with rfl | hc
      · rw [Function.update_self] at hf
        exact (fakeAfter hB ha D W hf).2
      · have hne : c ≠ mbb := fun h => hmbb (h ▸ hc)
        rw [Function.update_of_ne hne] at hf
        exact hfake c hc f hf

end Walk

theorem Walk.visits (hmf : WellFormed mf) (W : Walk dummyInstr fin (start mf)) : Visits mf fin where
  order := by
    obtain ⟨splitOff, hp, hs⟩ := W.order
    have hp : fin.processedMBBs = followedBy splitOff mf.layout := hp
    refine ⟨splitOff, hp, fun c hc => ⟨(hs c hc).1, fun N hN => ?_⟩⟩
    have hle : mf.nextMBB ≤ N := (hs c hc).2 N hN
    have hNp : N ∈ fin.processedMBBs := by
      rw [hp]
      exact List.mem_flatMap.mpr ⟨c, hc, by simp [Option.mem_def.mp hN]⟩
    have hNa : N ∉ (start mf).after := fun h => Nat.not_lt.mpr hle (hmf.fresh N h)
    exact ⟨hle, (W.splitOff hNp (by simp [start]) hNa).2⟩
  once := W.nodup_processedMBBs List.nodup_nil
  others := by
    obtain ⟨tr, cs, fake, hb, hp, hfake⟩ := W.laidOut List.nodup_nil
    obtain rfl : fin.processedMBBs = cs := hp
    have hb : fin.before = tr ++ followedBy fake fin.processedMBBs := by
      rw [hb]
      show tr ++ [] ++ _ = _
      rw [List.append_nil]
    refine ⟨tr, fake, hb, fun z hz hzp => ?_, hfake⟩
    have hnd := (List.nodup_append.mp W.bookkeeping_fin.nodup).1
    rw [hb] at hnd
    exact (List.nodup_append.mp hnd).2.2 z hz z (mem_followedBy hzp) rfl

theorem Convertible.contained (hmf : Convertible mf) : Contained mf where
  toWellFormed := hmf.toWellFormed
  nonempty := hmf.nonempty
  last := hmf.shaped.last

theorem Head.allHandled (hmf : Convertible mf) (h : Head dummyInstr mf k st) : AllHandled st := by
  induction h with
  | start => exact hmf.allHandled
  | next h hne hr ih =>
    have hB := h.bookkeeping hmf.toWellFormed
    obtain ⟨mbb, rest, ha⟩ := List.exists_cons_of_ne_nil hne
    obtain ⟨fakeBlock, D⟩ := runOnBlock_spec hB ha hr
    exact D.allHandled hB ha ih

theorem Convertible.runOnBlock_ne_error (hmf : Convertible mf) (k : Nat) (st : PassState)
    (e : Failure) (h : Head dummyInstr mf k st) : runOnBlock dummyInstr st ≠ .error e := by
  intro he
  have hB := h.bookkeeping hmf.toWellFormed
  cases ha : st.after with
  | nil =>
    unfold runOnBlock at he
    rw [ha] at he
    cases he
  | cons mbb rest =>
    obtain ⟨st', hst'⟩ :=
      runOnBlock_isOk dummyInstr hB ha (h.kept hmf.contained).lanesOpen (h.allHandled hmf)
    rw [hst'] at he
    cases he

/-- A walk whose first iteration fails does not come to its end. -/
theorem not_walks_of_first (hne : mf.layout ≠ [])
    (h : (runOnBlock dummyInstr (BranchConversion.start mf)).isOk = false) :
    ¬ Walks dummyInstr mf := by
  have hfirst {k : Nat} {st : PassState} (hst : Head dummyInstr mf k st) :
      st = BranchConversion.start mf := by
    induction hst with
    | start => rfl
    | next _ _ hr ih =>
      rw [ih] at hr
      rw [hr] at h
      cases h
  intro hw
  obtain ⟨st, hst⟩ := hw.terminates
  have ha := ((hw.iterations _ st hst).2.mpr rfl)
  rw [hfirst hst] at ha
  exact hne ha

/-- JRCXZ, a direct branch that tests no flags. -/
def jrcxz (b : Nat) : MachineInstr :=
  ⟨.other 0 { isBranch := true, isTerminator := true, tiedTo := [-1] }, [.mbb b]⟩

def jrcxzLoop : MachineFunction where
  layout := [0, 1]
  blocks b := if b = 0 then ⟨[jrcxz 0], [0, 1], false⟩ else ⟨[⟨.retq, []⟩], [], false⟩
  nextMBB := 2

/-- FARJMP32i, an indirect branch to an address in the code. -/
def farjmp32i : MachineInstr where
  opcode := .other 1
    { isBranch := true, isTerminator := true, isBarrier := true, isIndirectBranch := true
      tiedTo := [-1, -1] }
  operands := [.imm 0, .imm 8]

def farJump : MachineFunction where
  layout := [0]
  blocks _ := ⟨[farjmp32i], [], false⟩
  nextMBB := 1

end BS.BranchConversion
