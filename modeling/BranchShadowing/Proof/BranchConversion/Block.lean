import BranchShadowing.Proof.BranchConversion.Inserted
import BranchShadowing.Proof.BranchConversion.Terminator

/-!
# One block of the walk

`runOnBlock_spec`: an iteration of the walk that starts with its books in order
(`Bookkeeping`) leaves them in order, appends the block and its fake block to
what has been walked, moves every lane on, replaces the end of the block, and
changes no other block (`BlockDone`).
-/

namespace BS.BranchConversion

open X86 PassState

/-- The layout has no block twice, block numbers are used up in order, each live
lane has a trampoline of its own, and the trampolines precede the blocks that
have been walked. -/
structure Bookkeeping (st : PassState) : Prop where
  nodup : (st.before ++ st.after).Nodup
  fresh : ∀ b ∈ st.before ++ st.after, b < st.nextMBB
  lanes : (currents st.takenBlocks).Nodup
  parts : ∃ tr code, st.before = tr ++ code ∧ (∀ z ∈ currents st.takenBlocks, z ∈ tr) ∧
    ∀ b ∈ st.processedMBBs, b ∈ code

/-- The walk is done with block `mbb` (before `rest`), with original fall-through
`ft`, and has put `fakeBlock` behind it. -/
structure BlockDone (dummyInstr : Bool) (st : PassState) (mbb : Nat) (rest : List Nat)
    (ft fakeBlock : Option Nat) (st' : PassState) : Prop where
  processedMBBs : st'.processedMBBs = st.processedMBBs ++ [mbb]
  nextMBB : st.nextMBB ≤ st'.nextMBB
  before : ∃ tr, st'.before = tr ++ (st.before ++ mbb :: fakeBlock.toList) ∧
    ∀ b ∈ tr, st.nextMBB ≤ b
  noFake : fakeBlock = none → rest = [] ∧ (st.blocks mbb).isReturnBlock
  fake : ∀ f ∈ fakeBlock, st.nextMBB ≤ f ∧ f < st'.nextMBB ∧ st'.instrs f = [jmp64r] ∧
    f ∉ currents st'.takenBlocks
  instrs : ∀ b < st.nextMBB, b ≠ mbb → b ∉ currents st.takenBlocks → st'.instrs b = st.instrs b
  blocks : ∀ b < st.nextMBB, b ≠ mbb → b ∉ currents st.takenBlocks → st'.blocks b = st.blocks b
  arrive : ∀ lane ∈ st.takenBlocks, lane.Arrives mbb → ∀ z, lane.currentMBB = some z →
    st'.instrs z = st.instrs z ++ [jmp4 mbb]
  skip : ∀ lane ∈ st.takenBlocks, ¬ lane.Arrives mbb → ∀ z, lane.currentMBB = some z →
    ∃ z' f, fakeBlock = some f ∧ lane.moveTo z' ∈ st'.takenBlocks ∧ st'.instrs z' = [] ∧
      st'.instrs z = st.instrs z ++ skipTo dummyInstr (st.instrs mbb).length z' f
  ending : ∃ o, Ending st'.LeadsNext st'.Leads ft st'.instrs (st.instrs mbb) (st'.instrs mbb) o ∧
    st'.after = o.toList ++ rest ∧
    ∀ N ∈ o, st.nextMBB ≤ N ∧ N < st'.nextMBB ∧ N ∉ st'.before ∧ (st'.blocks N).succs = []
  live : ∀ z ∈ currents st'.takenBlocks, z ∈ currents st.takenBlocks ∨ st.nextMBB ≤ z
  lanes : st.instrs mbb ≠ [] → (∀ z ∈ currents st'.takenBlocks, st.nextMBB ≤ z) ∧
    ∀ lane ∈ st'.takenBlocks,
      (∃ old ∈ st.takenBlocks, ¬ old.Arrives mbb ∧ old.currentMBB.isSome ∧
        ∃ z, lane = old.moveTo z ∧ st'.instrs z = []) ∨
      NewLane st.nextMBB (st.instrs mbb) (st.processedMBBs ++ [mbb]) ft st' lane
  oneTaken : st.instrs mbb ≠ [] → st'.takenBlocks.countP BlockLane.taken ≤ 1
  created : ∀ b, st.nextMBB ≤ b → b < st'.nextMBB →
    b ∈ fakeBlock ∨ b ∈ st'.after ∨ b ∈ currents st'.takenBlocks ∨ ∃ d, st'.instrs b = [jmp4 d]
  filled : ∀ (K : Nat → Prop) (Q : MachineInstr → Prop) (D : Nat → Prop), D mbb →
    (∀ f ∈ fakeBlock, D f) → EndFits K Q D mbb (st.instrs mbb) st'.after →
    Filled K Q st → Filled K Q st'
  bookkeeping : Bookkeeping st'

/-! ## The steps before the lane loop, and the one after -/

section

variable {st st' : PassState} {mbb : Nat} {fakeBlock : Option Nat}

/-- A fake block has been put behind block `mbb`, or none is needed. -/
structure FakeInserted (st : PassState) (mbb : Nat) (fakeBlock : Option Nat) (st' : PassState) :
    Prop where
  before : st'.before = st.before ++ fakeBlock.toList
  after : st'.after = st.after
  takenBlocks : st'.takenBlocks = st.takenBlocks
  processedMBBs : st'.processedMBBs = st.processedMBBs
  nextMBB : st.nextMBB ≤ st'.nextMBB
  blocks : ∀ b < st.nextMBB, st'.blocks b = st.blocks b
  none : fakeBlock = none → st.after = [] ∧ (st.blocks mbb).isReturnBlock
  some : ∀ f ∈ fakeBlock, st.nextMBB ≤ f ∧ f < st'.nextMBB ∧ st'.instrs f = [jmp64r]
  created : ∀ b, st.nextMBB ≤ b → b < st'.nextMBB → b ∈ fakeBlock

theorem insertFakeBlock_spec (h : insertFakeBlock st mbb = (fakeBlock, st')) :
    FakeInserted st mbb fakeBlock st' := by
  simp only [insertFakeBlock] at h
  split at h
  · rename_i hr
    cases h
    simp only [Bool.and_eq_true, List.isEmpty_iff] at hr
    exact ⟨by simp, rfl, rfl, rfl, Nat.le_refl _, fun _ _ => rfl, fun _ => hr, by simp,
      fun b hb hlt => absurd hlt (Nat.not_lt.mpr hb)⟩
  · simp only [createMachineBasicBlock_eq, Prod.mk.injEq] at h
    obtain ⟨rfl, rfl⟩ := h
    refine ⟨rfl, rfl, rfl, rfl, Nat.le_succ _, fun b hb => ?_, by simp, fun f hf => ?_,
      fun b hb hlt => congrArg some (Nat.le_antisymm hb (Nat.le_of_lt_succ hlt))⟩
    · rw [buildMI, setInstrs_blocks _ _ (Nat.ne_of_lt hb)]
      exact withBlock_blocks _ (Nat.ne_of_lt hb)
    · cases hf
      refine ⟨Nat.le_refl _, Nat.lt_succ_self _, ?_⟩
      rw [buildMI, setInstrs_instrs, if_pos rfl]
      show st.withBlock.instrs st.nextMBB ++ [jmp64r] = [jmp64r]
      rw [withBlock_instrs, if_pos rfl, List.nil_append]

theorem takeLane_spec {tk : Option Nat} {k : Nat} (h : takeLane st tk = (k, st'))
    (hk : ∀ k ∈ tk, k < st.takenBlocks.length) :
    k < st'.takenBlocks.length ∧ st'.takenBlocks.eraseIdx k = st.kept tk ∧
      st'.before = st.before ∧ st'.after = st.after ∧ st'.processedMBBs = st.processedMBBs ∧
      st'.nextMBB = st.nextMBB ∧ st'.blocks = st.blocks ∧
      (tk = some k ∧ st' = st ∨ st'.takenBlocks[k]? = some ⟨none, none, true⟩) := by
  cases tk with
  | some k =>
    cases h
    exact ⟨hk _ rfl, rfl, rfl, rfl, rfl, rfl, rfl, .inl ⟨rfl, rfl⟩⟩
  | none =>
    cases h
    refine ⟨by simp, ?_, rfl, rfl, rfl, rfl, rfl, .inr (by simp)⟩
    simp [PassState.kept, List.eraseIdx_append_of_length_le]

end

/-- The lanes have been updated for block `mbb`, and the one to be taken is at
position `k`. -/
structure LanesDone (dummyInstr : Bool) (st : PassState) (mbb : Nat) (rest : List Nat)
    (fakeBlock : Option Nat) (k : Nat) (st' : PassState) : Prop where
  processedMBBs : st'.processedMBBs = st.processedMBBs ++ [mbb]
  after : st'.after = rest
  nextMBB : st.nextMBB ≤ st'.nextMBB
  before : ∃ tr, st'.before = tr ++ (st.before ++ mbb :: fakeBlock.toList) ∧ tr.Nodup ∧
    ∀ b ∈ tr, st.nextMBB ≤ b ∧ b < st'.nextMBB ∧ b ∉ fakeBlock
  noFake : fakeBlock = none → rest = [] ∧ (st.blocks mbb).isReturnBlock
  fake : ∀ f ∈ fakeBlock, st.nextMBB ≤ f ∧ f < st'.nextMBB ∧ st'.instrs f = [jmp64r]
  instrs : ∀ b < st.nextMBB, b ∉ currents st.takenBlocks → st'.instrs b = st.instrs b
  blocks : ∀ b < st.nextMBB, b ≠ mbb → b ∉ currents st.takenBlocks → st'.blocks b = st.blocks b
  arrive : ∀ lane ∈ st.takenBlocks, lane.Arrives mbb → ∀ z, lane.currentMBB = some z →
    st'.instrs z = st.instrs z ++ [jmp4 mbb]
  skip : ∀ lane ∈ st.takenBlocks, ¬ lane.Arrives mbb → ∀ z, lane.currentMBB = some z →
    ∃ z' f, fakeBlock = some f ∧ lane.moveTo z' ∈ st'.takenBlocks.eraseIdx k ∧
      st'.instrs z = st.instrs z ++ skipTo dummyInstr (st.instrs mbb).length z' f
  keptNodup : (currents (st'.takenBlocks.eraseIdx k)).Nodup
  kept : ∀ l ∈ st'.takenBlocks.eraseIdx k, ∃ old ∈ st.takenBlocks, ¬ old.Arrives mbb ∧
    old.currentMBB.isSome ∧ ∃ z, l = old.moveTo z ∧ st.nextMBB ≤ z ∧ z < st'.nextMBB ∧ z ∉ fakeBlock ∧
      z ∈ st'.before ∧ st'.instrs z = []
  created : ∀ b, st.nextMBB ≤ b → b < st'.nextMBB →
    b ∈ fakeBlock ∨ b ∈ currents (st'.takenBlocks.eraseIdx k)
  taken : k < st'.takenBlocks.length ∧ ∃ lane, st'.takenBlocks[k]? = some lane ∧
    (lane.currentMBB = none ∨ lane ∈ st.takenBlocks)

section

variable {dummyInstr : Bool} {st st₁ st₂ st' : PassState} {mbb k : Nat} {rest : List Nat}
  {fakeBlock tk : Option Nat}

theorem Bookkeeping.current_lt (hB : Bookkeeping st) {z : Nat}
    (hz : z ∈ currents st.takenBlocks) : z < st.nextMBB := by
  obtain ⟨tr, code, hb, htr, -⟩ := hB.parts
  exact hB.fresh z (by simp [hb, htr z hz])

theorem Bookkeeping.processed_lt (hB : Bookkeeping st) {b : Nat} (hb : b ∈ st.processedMBBs) :
    b < st.nextMBB := by
  obtain ⟨tr, code, hbe, -, hcode⟩ := hB.parts
  exact hB.fresh b (by simp [hbe, hcode b hb])

theorem Bookkeeping.current_not_processed (hB : Bookkeeping st) {z : Nat}
    (hz : z ∈ currents st.takenBlocks) : z ∉ st.processedMBBs := by
  obtain ⟨tr, code, hbe, htr, hcode⟩ := hB.parts
  have hnd := (List.nodup_append.mp hB.nodup).1
  rw [hbe] at hnd
  exact fun h => (List.nodup_append.mp hnd).2.2 z (htr z hz) z (hcode z h) rfl

theorem Bookkeeping.not_current (hB : Bookkeeping st) {b : Nat} (hb : b ∈ st.after) :
    b ∉ currents st.takenBlocks := by
  obtain ⟨tr, code, hbe, htr, -⟩ := hB.parts
  intro hz
  exact (List.nodup_append.mp hB.nodup).2.2 b (by simp [hbe, htr b hz]) b hb rfl

theorem LanesDone.of_loop (hB : Bookkeeping st) (ha : st.after = mbb :: rest)
    (hf : insertFakeBlock (advance st mbb rest) mbb = (fakeBlock, st₁))
    (hl : updateLanes dummyInstr mbb fakeBlock st₁.takenBlocks { st₁ with takenBlocks := [] } none =
      .ok (st₂, tk))
    (ht : takeLane st₂ tk = (k, st')) : LanesDone dummyInstr st mbb rest fakeBlock k st' := by
  have hmem : mbb ∈ st.after := by simp [ha]
  have hm : mbb < st.nextMBB := hB.fresh mbb (by simp [ha])
  have F := insertFakeBlock_spec hf
  have hn₁ : st.nextMBB ≤ st₁.nextMBB := F.nextMBB
  have hlanes : st₁.takenBlocks = st.takenBlocks := F.takenBlocks
  have hb₁ : ∀ b < st.nextMBB, st₁.blocks b = st.blocks b := F.blocks
  have hi₁ : ∀ b < st.nextMBB, st₁.instrs b = st.instrs b := fun b hb => by
    simp only [PassState.instrs, hb₁ b hb]
  rw [hlanes] at hl
  have L := updateLanes_spec hl hB.lanes
    (fun z hz => Nat.lt_of_lt_of_le (hB.current_lt hz) hn₁) (Nat.lt_of_lt_of_le hm hn₁)
    (hB.not_current hmem) (by simp)
  have hn₂ : st₁.nextMBB ≤ st₂.nextMBB := L.nextMBB
  obtain ⟨hk, hkept, hbe, haf, hpr, hn, hbl, htk⟩ := takeLane_spec ht fun k hk => (L.taken k hk).1
  have hins : st'.instrs = st₂.instrs := funext fun b => by simp only [PassState.instrs, hbl]
  obtain ⟨new, hnew, hnd, hnewl⟩ := L.kept
  rw [show PassState.kept { st₁ with takenBlocks := [] } none = [] from rfl, List.nil_append] at hnew
  obtain ⟨tr, htr, htrn, htrf⟩ := L.before
  have hfake : ∀ z, st₁.nextMBB ≤ z → z ∉ fakeBlock := fun z hz hzf => by
    have := (F.some z hzf).2.1
    omega
  have hold : ∀ z ∈ currents st.takenBlocks, st₁.instrs z = st.instrs z :=
    fun z hz => hi₁ z (hB.current_lt hz)
  exact
    { processedMBBs := by rw [hpr, L.processedMBBs]; exact F.processedMBBs
      after := by rw [haf, L.after]; exact F.after
      nextMBB := by omega
      before := by
        refine ⟨tr, ?_, htrn, fun b hb => ?_⟩
        · rw [hbe, htr, show ({ st₁ with takenBlocks := [] } : PassState).before = st₁.before from rfl,
            F.before]
          simp [advance]
        · have := htrf b hb
          exact ⟨Nat.le_trans hn₁ this.1, by omega, hfake b this.1⟩
      noFake := fun h => F.none h
      fake := fun f hff => by
        obtain ⟨h₁, h₂, h₃⟩ := F.some f hff
        refine ⟨h₁, by omega, ?_⟩
        rw [hins, L.instrs f h₂]
        · exact h₃
        · intro hc
          exact Nat.lt_irrefl _ (Nat.lt_of_lt_of_le (hB.current_lt hc) h₁)
      instrs := fun b hb hbc => by
        rw [hins, L.instrs b (Nat.lt_of_lt_of_le hb hn₁) hbc]
        exact hi₁ b hb
      blocks := fun b hb hbm hbc => by
        rw [hbl, L.blocks b (Nat.lt_of_lt_of_le hb hn₁) hbc hbm]
        exact hb₁ b hb
      arrive := fun lane hlane harr z hz => by
        rw [hins, L.arrive lane hlane harr z hz]
        exact congrArg (· ++ _) (hold z (currents_mem hlane hz))
      skip := fun lane hlane harr z hz => by
        obtain ⟨z', f, hff, hmem, hi⟩ := L.skip lane hlane harr z hz
        refine ⟨z', f, hff, hkept ▸ hmem, ?_⟩
        rw [hins, hi, ← hold z (currents_mem hlane hz), ← hi₁ mbb hm]
        rfl
      keptNodup := by rwa [hkept, hnew]
      kept := fun l hl => by
        rw [hkept, hnew] at hl
        obtain ⟨old, hold, harr, hs, z, rfl, hz, hz', hzb, hzi⟩ := hnewl l hl
        exact ⟨old, hold, harr, hs, z, rfl, Nat.le_trans hn₁ hz, by omega, hfake z hz, hbe ▸ hzb,
          by rw [hins, hzi]⟩
      created := fun b hb hlt => by
        rcases Nat.lt_or_ge b st₁.nextMBB with h | h
        · exact .inl (F.created b hb h)
        · exact .inr (hkept ▸ L.created b h (hn ▸ hlt))
      taken := by
        refine ⟨hk, ?_⟩
        rcases htk with ⟨rfl, rfl⟩ | hlane
        · rcases (L.taken k rfl).2 with h | ⟨lane, hlane, -, h⟩
          · cases h
          · exact ⟨lane, h, .inr hlane⟩
        · exact ⟨_, hlane, .inl rfl⟩ }

theorem LanesDone.before_lt (D : LanesDone dummyInstr st mbb rest fakeBlock k st₁)
    (hB : Bookkeeping st) (ha : st.after = mbb :: rest) {b : Nat} (hb : b ∈ st₁.before) :
    b < st₁.nextMBB := by
  have hn := D.nextMBB
  obtain ⟨tr, hbe, -, htr⟩ := D.before
  rw [hbe] at hb
  simp only [List.mem_append, List.mem_cons, Option.mem_toList] at hb
  rcases hb with h | h | rfl | h
  · exact (htr b h).2.1
  · exact Nat.lt_of_lt_of_le (hB.fresh b (by simp [h])) hn
  · exact Nat.lt_of_lt_of_le (hB.fresh b (by simp [ha])) hn
  · exact (D.fake b h).2.1

/-- The lanes after the block: those led on and those made or left by the
replacement of its end; for an empty block, the lane taken as it was. -/
theorem Replaced.mem_lanes {ft : Option Nat}
    (D : LanesDone dummyInstr st mbb rest fakeBlock k st₁) (R : Replaced st₁ mbb ft k st')
    {lane : BlockLane} (hl : lane ∈ st'.takenBlocks) :
    lane ∈ st₁.takenBlocks.eraseIdx k ∨
      st₁.instrs mbb ≠ [] ∧
        NewLane st₁.nextMBB (st₁.instrs mbb) st₁.processedMBBs ft st' lane ∨
      st₁.instrs mbb = [] ∧ (lane.currentMBB = none ∨ lane ∈ st.takenBlocks) := by
  by_cases he : st₁.instrs mbb = []
  · rw [R.empty he] at hl
    obtain ⟨j, hj⟩ := List.mem_iff_getElem?.mp hl
    by_cases hjk : j = k
    · subst hjk
      obtain ⟨-, lane', h, h'⟩ := D.taken
      cases hj.symm.trans h
      exact .inr (.inr ⟨he, h'⟩)
    · exact .inl (List.mem_eraseIdx_iff_getElem?.mpr ⟨j, hjk, hj⟩)
  · obtain ⟨new, hperm, -, hnew⟩ := R.lanes he
    rcases List.mem_append.mp (hperm.mem_iff.mp hl) with h | h
    · exact .inr (.inl ⟨he, hnew lane h⟩)
    · exact .inl h

/-- The trampolines of the lanes after the block are different. -/
theorem Replaced.nodup_lanes {ft : Option Nat}
    (D : LanesDone dummyInstr st mbb rest fakeBlock k st₁) (hB : Bookkeeping st)
    (R : Replaced st₁ mbb ft k st') : (currents st'.takenBlocks).Nodup := by
  have key : ∀ new, st'.takenBlocks.Perm (new ++ st₁.takenBlocks.eraseIdx k) →
      (currents new).Nodup →
      (∀ z ∈ currents new, z < st.nextMBB ∨ st₁.nextMBB ≤ z) →
      (currents st'.takenBlocks).Nodup := by
    intro new hperm hnd hnew
    refine (hperm.filterMap BlockLane.currentMBB).nodup_iff.mpr ?_
    rw [List.filterMap_append]
    refine List.nodup_append.mpr ⟨hnd, D.keptNodup, fun a ha b hb hab => ?_⟩
    obtain ⟨l, hl, hlb⟩ := mem_currents.mp hb
    obtain ⟨old, -, -, -, z, rfl, hz, hz', -⟩ := D.kept l hl
    cases hlb
    have := hnew a ha
    omega
  by_cases he : st₁.instrs mbb = []
  · obtain ⟨hk, lane, hlane, hcur⟩ := D.taken
    refine key [lane] ?_ ?_ fun z hz => ?_
    · rw [R.empty he]
      have hget : st₁.takenBlocks[k] = lane := (List.getElem?_eq_some_iff.mp hlane).2
      rw [← hget]
      exact (List.getElem_cons_eraseIdx_perm hk).symm
    · cases hc : lane.currentMBB <;> simp [currents, hc]
    · obtain ⟨l, hl, hlz⟩ := mem_currents.mp hz
      cases List.mem_singleton.mp hl
      rcases hcur with h | h
      · rw [h] at hlz
        cases hlz
      · exact .inl (hB.current_lt (currents_mem h hlz))
  · obtain ⟨new, hperm, hnd, hnew⟩ := R.lanes he
    refine key new hperm hnd fun z hz => ?_
    obtain ⟨l, hl, hlz⟩ := mem_currents.mp hz
    cases hnew l hl with
    | dead => cases hlz
    | next h => cases hlz; exact .inr h
    | toward h => cases hlz; exact .inr h

theorem Replaced.bookkeeping {ft : Option Nat}
    (D : LanesDone dummyInstr st mbb rest fakeBlock k st₁) (hB : Bookkeeping st)
    (ha : st.after = mbb :: rest) (R : Replaced st₁ mbb ft k st') : Bookkeeping st' := by
  have hn := D.nextMBB
  have hn' := R.nextMBB
  obtain ⟨tr₁, hb₁, hnd₁, htr₁⟩ := D.before
  obtain ⟨tr₂, hb₂, hnd₂, htr₂⟩ := R.before
  obtain ⟨o, -, hao, ho⟩ := R.ending
  obtain ⟨tr, code, hbe, htr, hcode⟩ := hB.parts
  have hnd := hB.nodup
  have hfr := hB.fresh
  rw [ha] at hnd hfr
  rw [D.after] at hao
  have hlt : ∀ b ∈ st₁.before, b < st₁.nextMBB := fun b hb => D.before_lt hB ha hb
  have hrest : ∀ b ∈ rest, b < st.nextMBB := fun b hb => hfr b (by simp [hb])
  exact
    { nodup := by
        have hold : ∀ b ∈ (st.before ++ [mbb]) ++ rest, b < st.nextMBB := fun b hb =>
          hfr b (by simpa using hb)
        have h₀ : ((st.before ++ [mbb]) ++ rest).Nodup := by simpa using hnd
        have h₁ : ((st.before ++ [mbb]) ++ (fakeBlock.toList ++ rest)).Nodup := by
          refine nodup_insert h₀ (by cases fakeBlock <;> simp) fun f hf hmem => ?_
          have := (D.fake f (Option.mem_toList.mp hf)).1
          have := hold f hmem
          omega
        have h₂ : ([] ++ (tr₁ ++ ((st.before ++ [mbb]) ++ (fakeBlock.toList ++ rest)))).Nodup := by
          refine nodup_insert h₁ hnd₁ fun b hb hmem => ?_
          obtain ⟨hlo, -, hnf⟩ := htr₁ b hb
          have hmem : b ∈ fakeBlock.toList ∨ b ∈ (st.before ++ [mbb]) ++ rest := by
            simp only [List.nil_append, List.mem_append] at hmem ⊢
            tauto
          rcases hmem with h | h
          · exact hnf (Option.mem_toList.mp h)
          · have := hold b h
            omega
        have h₃ : ([] ++ (tr₂ ++ (st₁.before ++ rest))).Nodup := by
          refine nodup_insert (by simpa [hb₁] using h₂) hnd₂ fun b hb hmem => ?_
          have := (htr₂ b hb).1
          rw [List.nil_append] at hmem
          rcases List.mem_append.mp hmem with h | h
          · have := hlt b h
            omega
          · have := hrest b h
            omega
        rw [hao]
        refine nodup_insert (by simpa [hb₂] using h₃) (by cases o <;> simp) fun N hN hmem => ?_
        obtain ⟨hlo, -, hnb, -⟩ := ho N (Option.mem_toList.mp hN)
        rcases List.mem_append.mp hmem with h | h
        · exact hnb h
        · have := hrest N h
          omega
      fresh := fun b hb => by
        rw [hao, hb₂] at hb
        simp only [List.mem_append, Option.mem_toList] at hb
        rcases hb with (h | h) | h | h
        · exact (htr₂ b h).2
        · have := hlt b h
          omega
        · exact (ho b h).2.1
        · have := hrest b h
          omega
      lanes := R.nodup_lanes D hB
      parts := by
        refine ⟨tr₂ ++ tr₁ ++ tr, code ++ mbb :: fakeBlock.toList, by simp [hb₂, hb₁, hbe],
          fun z hz => ?_, fun b hb => ?_⟩
        · obtain ⟨l, hl, hlz⟩ := mem_currents.mp hz
          have new₂ : st₁.nextMBB ≤ z → z ∈ st'.before → z ∈ tr₂ ++ tr₁ ++ tr := by
            intro hzn hzb
            rw [hb₂] at hzb
            rcases List.mem_append.mp hzb with h | h
            · simp [h]
            · have := hlt z h
              omega
          rcases R.mem_lanes D hl with h | ⟨-, h⟩ | ⟨-, h⟩
          · obtain ⟨old, -, -, -, z', rfl, hz', -, hzf, hzb, -⟩ := D.kept l h
            cases hlz
            rw [hb₁] at hzb
            simp only [List.mem_append, List.mem_cons, Option.mem_toList] at hzb
            rcases hzb with h | h | rfl | h
            · simp [h]
            · have := hfr z (by simp [h])
              omega
            · have := hfr z (by simp)
              omega
            · exact absurd h hzf
          · cases h with
            | dead => cases hlz
            | next h _ h' => cases hlz; exact new₂ h h'
            | toward h _ h' => cases hlz; exact new₂ h h'
          · rcases h with h | h
            · rw [h] at hlz
              cases hlz
            · simp [htr z (currents_mem h hlz)]
        · rw [R.processedMBBs, D.processedMBBs] at hb
          rcases List.mem_append.mp hb with h | h
          · simp [hcode b h]
          · simp [List.mem_singleton.mp h] }

/-- One iteration of the walk, and the fake block that it inserts. -/
theorem runOnBlock_done (hB : Bookkeeping st) (ha : st.after = mbb :: rest)
    (h : runOnBlock dummyInstr st = .ok st') :
    BlockDone dummyInstr st mbb rest ((advance st mbb rest).mf.getFallThrough mbb)
      (insertFakeBlock (advance st mbb rest) mbb).1 st' := by
  simp only [runOnBlock, ha] at h
  rcases hf : insertFakeBlock (advance st mbb rest) mbb with ⟨fakeBlock, s₁⟩
  rw [hf] at h
  cases hl : updateLanes dummyInstr mbb fakeBlock s₁.takenBlocks { s₁ with takenBlocks := [] } none
    with
  | error e =>
    rw [hl] at h
    cases h
  | ok p =>
    obtain ⟨s₂, tk⟩ := p
    rw [hl] at h
    rcases ht : takeLane s₂ tk with ⟨k, s₃⟩
    simp only [bind, Except.bind, ht] at h
    have D := LanesDone.of_loop hB ha hf hl ht
    have hn := D.nextMBB
    have hm : mbb < st.nextMBB := hB.fresh mbb (by simp [ha])
    have hmc : mbb ∉ currents st.takenBlocks := hB.not_current (by simp [ha])
    have hmi : s₃.instrs mbb = st.instrs mbb := D.instrs mbb hm hmc
    have hkept : ∀ z ∈ currents (s₃.takenBlocks.eraseIdx k), st.nextMBB ≤ z ∧ z < s₃.nextMBB ∧
        z ∉ fakeBlock ∧ s₃.instrs z = [] := by
      intro z hz
      obtain ⟨l, hl, hlz⟩ := mem_currents.mp hz
      obtain ⟨old, -, -, -, z', rfl, h₁, h₂, h₃, -, h₄⟩ := D.kept l hl
      cases hlz
      exact ⟨h₁, h₂, h₃, h₄⟩
    have hproc : ∀ b ∈ st.processedMBBs ++ [mbb], b < s₃.nextMBB := fun b hb =>
      Nat.lt_of_lt_of_le (by
        rcases List.mem_append.mp hb with h | h
        · exact hB.processed_lt h
        · rwa [List.mem_singleton.mp h]) hn
    have R := replaceTerminator_spec h (by omega) D.taken.1 (fun z hz => (hkept z hz).2.1)
      (D.processedMBBs ▸ hproc) fun b hb => D.before_lt hB ha hb
    have hn' := R.nextMBB
    obtain ⟨tr₁, hb₁, -, htr₁⟩ := D.before
    obtain ⟨tr₂, hb₂, -, htr₂⟩ := R.before
    obtain ⟨o, ho, hao, hN⟩ := R.ending
    exact
      { processedMBBs := by rw [R.processedMBBs, D.processedMBBs]
        nextMBB := by omega
        before := by
          refine ⟨tr₂ ++ tr₁, by rw [hb₂, hb₁, List.append_assoc], fun b hb => ?_⟩
          rcases List.mem_append.mp hb with h | h
          · have := (htr₂ b h).1
            omega
          · exact (htr₁ b h).1
        noFake := D.noFake
        fake := fun f hff => by
          obtain ⟨h₁, h₂, h₃⟩ := D.fake f hff
          refine ⟨h₁, by omega, by rw [R.instrs f h₂ (by omega), h₃], fun hc => ?_⟩
          obtain ⟨l, hl, hlz⟩ := mem_currents.mp hc
          rcases R.mem_lanes D hl with h | ⟨-, h⟩ | ⟨-, h⟩
          · exact (hkept f (currents_mem h hlz)).2.2.1 hff
          · cases h with
            | dead => cases hlz
            | next h => cases hlz; omega
            | toward h => cases hlz; omega
          · rcases h with h | h
            · rw [h] at hlz
              cases hlz
            · have := hB.current_lt (currents_mem h hlz)
              omega
        instrs := fun b hb hbm hbc => by
          rw [R.instrs b (by omega) hbm, D.instrs b hb hbc]
        blocks := fun b hb hbm hbc => by
          rw [R.blocks b (by omega) hbm, D.blocks b hb hbm hbc]
        arrive := fun lane hlane harr z hz => by
          have hzc := currents_mem hlane hz
          have hzl := hB.current_lt hzc
          rw [R.instrs z (by omega) (fun h => hmc (h ▸ hzc)), D.arrive lane hlane harr z hz]
        skip := fun lane hlane harr z hz => by
          have hzc := currents_mem hlane hz
          have hzl := hB.current_lt hzc
          obtain ⟨z', f, hff, hk, hi⟩ := D.skip lane hlane harr z hz
          refine ⟨z', f, hff, ?_, ?_, ?_⟩
          · by_cases he : s₃.instrs mbb = []
            · rw [R.empty he]
              exact List.mem_of_mem_eraseIdx hk
            · obtain ⟨new, hperm, -, -⟩ := R.lanes he
              exact hperm.mem_iff.mpr (List.mem_append_right _ hk)
          · obtain ⟨hlo, hlt, -, hzi⟩ := hkept z' (currents_mem hk rfl)
            rw [R.instrs z' hlt (by omega), hzi]
          · rw [R.instrs z (by omega) (fun h => hmc (h ▸ hzc)), hi]
        ending := by
          rw [hmi] at ho
          refine ⟨o, ho, by rw [hao, D.after], fun N hN' => ?_⟩
          obtain ⟨h₁, h₂⟩ := hN N hN'
          exact ⟨by omega, h₂⟩
        live := fun z hz => by
          obtain ⟨l, hl, hlz⟩ := mem_currents.mp hz
          rcases R.mem_lanes D hl with h | ⟨-, h⟩ | ⟨-, h⟩
          · exact .inr (hkept z (currents_mem h hlz)).1
          · cases h with
            | dead => cases hlz
            | next h => cases hlz; exact .inr (Nat.le_trans hn h)
            | toward h => cases hlz; exact .inr (Nat.le_trans hn h)
          · rcases h with h | h
            · rw [h] at hlz
              cases hlz
            · exact .inl (currents_mem h hlz)
        lanes := fun hne => by
          rw [← hmi] at hne
          have hsplit : ∀ lane ∈ st'.takenBlocks, lane ∈ s₃.takenBlocks.eraseIdx k ∨
              NewLane s₃.nextMBB (s₃.instrs mbb) s₃.processedMBBs
                ((advance st mbb rest).mf.getFallThrough mbb) st' lane := by
            intro lane hl
            rcases R.mem_lanes D hl with h | ⟨-, h⟩ | ⟨h, -⟩
            · exact .inl h
            · exact .inr h
            · exact absurd h hne
          refine ⟨fun z hz => ?_, fun lane hl => ?_⟩
          · obtain ⟨l, hl, hlz⟩ := mem_currents.mp hz
            rcases hsplit l hl with h | h
            · exact (hkept z (currents_mem h hlz)).1
            · cases h with
              | dead => cases hlz
              | next h => cases hlz; omega
              | toward h => cases hlz; omega
          · rcases hsplit lane hl with h | h
            · obtain ⟨old, hold, harr, hs, z, rfl, hz, hz', -, -, hzi⟩ := D.kept lane h
              exact .inl ⟨old, hold, harr, hs, z, rfl, by rw [R.instrs z hz' (by omega), hzi]⟩
            · rw [hmi, D.processedMBBs] at h
              refine .inr ?_
              cases h with
              | dead => exact .dead
              | next h₁ h₂ h₃ h₄ h₅ => exact .next (by omega) h₂ h₃ h₄ h₅
              | toward h₁ h₂ h₃ h₄ h₅ h₆ => exact .toward (by omega) h₂ h₃ h₄ h₅ h₆
        oneTaken := fun hne => by
          have hzero : (s₃.takenBlocks.eraseIdx k).countP BlockLane.taken = 0 := by
            refine List.countP_eq_zero.mpr fun l hl => ?_
            obtain ⟨old, -, harr, -, z, rfl, -⟩ := D.kept l hl
            exact fun ht => harr (.inl ht)
          have hone := R.oneTaken (hmi ▸ hne)
          omega
        created := fun b hb hlt => by
          rcases Nat.lt_or_ge b s₃.nextMBB with h | h
          · refine (D.created b hb h).imp_right fun hb => .inr (.inl ?_)
            by_cases he : s₃.instrs mbb = []
            · rw [R.empty he]
              exact (List.Sublist.filterMap _ (List.eraseIdx_sublist ..)).subset hb
            · obtain ⟨new, hperm, -, -⟩ := R.lanes he
              rw [mem_currents_perm hperm, currents_append]
              exact List.mem_append_right _ hb
          · exact .inr (R.created b h hlt)
        filled := fun K Q T hm hff hT hF => by
          have hF₁ : Filled K Q s₁ := insertFakeBlock_filled hf hT.toFits (hF.congr rfl rfl)
          have hF₂ : Filled K Q s₂ := updateLanes_filled hl hT.toFits hm hff (hF₁.congr rfl rfl)
          have hF₃ : Filled K Q s₃ := by
            cases tk <;> cases ht
            · exact hF₂.congr rfl rfl
            · exact hF₂
          exact replaceTerminator_filled h (hmi ▸ hT) hF₃
        bookkeeping := R.bookkeeping D hB ha }

theorem runOnBlock_spec (hB : Bookkeeping st) (ha : st.after = mbb :: rest)
    (h : runOnBlock dummyInstr st = .ok st') :
    ∃ fakeBlock, BlockDone dummyInstr st mbb rest
      ((advance st mbb rest).mf.getFallThrough mbb) fakeBlock st' :=
  ⟨_, runOnBlock_done hB ha h⟩

end

end BS.BranchConversion
