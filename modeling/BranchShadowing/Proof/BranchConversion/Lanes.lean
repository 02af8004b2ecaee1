import BranchShadowing.Proof.BranchConversion.Basic
import Mathlib.Data.List.Perm.Basic

/-!
# The lane loop

What `updateLanes` does for one block `mbb`, `LanesUpdated`: a lane that arrives
gets its jump to `mbb`, a lane that skips the block is led through the fake
block to a new trampoline, and nothing else changes. `updateLanes_spec` is an
induction on the lanes: one lane is `LanesUpdated` of that lane alone, and
`LanesUpdated.append` puts two parts of the loop together.
-/

namespace BS.BranchConversion

open X86 PassState

/-- The lane ends at `mbb`: it takes the next block, or leads to this one. -/
def BlockLane.Arrives (lane : BlockLane) (mbb : Nat) : Prop :=
  lane.taken ∨ lane.destMBB = some mbb

/-- The lane, led on to trampoline `z`. -/
def BlockLane.moveTo (lane : BlockLane) (z : Nat) : BlockLane := { lane with currentMBB := some z }

/-- The trampolines of the live lanes. -/
def currents (lanes : List BlockLane) : List Nat := lanes.filterMap BlockLane.currentMBB

theorem mem_currents {lanes : List BlockLane} {z : Nat} :
    z ∈ currents lanes ↔ ∃ lane ∈ lanes, lane.currentMBB = some z := List.mem_filterMap

@[simp] theorem currents_append (l l' : List BlockLane) :
    currents (l ++ l') = currents l ++ currents l' := List.filterMap_append

theorem currents_mem {lanes : List BlockLane} {lane : BlockLane} {z : Nat} (h : lane ∈ lanes)
    (hz : lane.currentMBB = some z) : z ∈ currents lanes :=
  mem_currents.mpr ⟨lane, h, hz⟩

/-- What a trampoline gets whose lane skips a block of `n` instructions. -/
def skipTo (dummyInstr : Bool) (n : Nat) (z f : Nat) : List MachineInstr :=
  (if dummyInstr then List.replicate (n - 2) dummyAdd else []) ++
    [lea targetRegOpcode z, jmp4 f]

/-- The lanes besides the one to be taken. -/
def PassState.kept (st : PassState) : Option Nat → List BlockLane
  | none => st.takenBlocks
  | some k => st.takenBlocks.eraseIdx k

/-- The lane loop has gone over `lanes`, from `st` and taken lane `tk` on. -/
structure LanesUpdated (dummyInstr : Bool) (mbb : Nat) (fakeBlock : Option Nat)
    (lanes : List BlockLane) (st : PassState) (tk : Option Nat) (st' : PassState)
    (tk' : Option Nat) : Prop where
  after : st'.after = st.after
  processedMBBs : st'.processedMBBs = st.processedMBBs
  nextMBB : st.nextMBB ≤ st'.nextMBB
  before : ∃ tr, st'.before = tr ++ st.before ∧ tr.Nodup ∧
    ∀ b ∈ tr, st.nextMBB ≤ b ∧ b < st'.nextMBB
  instrs : ∀ b < st.nextMBB, b ∉ currents lanes → st'.instrs b = st.instrs b
  blocks : ∀ b < st.nextMBB, b ∉ currents lanes → b ≠ mbb → st'.blocks b = st.blocks b
  arrive : ∀ lane ∈ lanes, lane.Arrives mbb → ∀ z, lane.currentMBB = some z →
    st'.instrs z = st.instrs z ++ [jmp4 mbb]
  skip : ∀ lane ∈ lanes, ¬ lane.Arrives mbb → ∀ z, lane.currentMBB = some z →
    ∃ z' f, fakeBlock = some f ∧ lane.moveTo z' ∈ st'.kept tk' ∧
      st'.instrs z = st.instrs z ++ skipTo dummyInstr (st.instrs mbb).length z' f
  kept : ∃ new, st'.kept tk' = st.kept tk ++ new ∧ (currents new).Nodup ∧
    ∀ l ∈ new, ∃ lane ∈ lanes, ¬ lane.Arrives mbb ∧ lane.currentMBB.isSome ∧
      ∃ z, l = lane.moveTo z ∧ st.nextMBB ≤ z ∧ z < st'.nextMBB ∧ z ∈ st'.before ∧
        st'.instrs z = []
  created : ∀ b, st.nextMBB ≤ b → b < st'.nextMBB → b ∈ currents (st'.kept tk')
  pushed : st.takenBlocks <+: st'.takenBlocks
  taken : ∀ k ∈ tk', k < st'.takenBlocks.length ∧
    (tk = some k ∨ ∃ lane ∈ lanes, lane.Arrives mbb ∧ st'.takenBlocks[k]? = some lane)

namespace LanesUpdated

variable {dummyInstr : Bool} {mbb : Nat} {fakeBlock : Option Nat} {l₁ l₂ : List BlockLane}
  {st st₁ st₂ : PassState} {tk tk₁ tk₂ : Option Nat}

theorem nil (h : ∀ k ∈ tk, k < st.takenBlocks.length) :
    LanesUpdated dummyInstr mbb fakeBlock [] st tk st tk where
  after := rfl
  processedMBBs := rfl
  nextMBB := Nat.le_refl _
  before := ⟨[], rfl, List.nodup_nil, by simp⟩
  instrs _ _ _ := rfl
  blocks _ _ _ _ := rfl
  arrive := by simp
  skip := by simp
  kept := ⟨[], (List.append_nil _).symm, List.nodup_nil, by simp⟩
  created b hb hlt := absurd hlt (Nat.not_lt.mpr hb)
  pushed := List.prefix_rfl
  taken k hk := ⟨h k hk, .inl hk⟩

/-- The loop over two parts of the lanes, which share no trampoline. -/
theorem append (h₁ : LanesUpdated dummyInstr mbb fakeBlock l₁ st tk st₁ tk₁)
    (h₂ : LanesUpdated dummyInstr mbb fakeBlock l₂ st₁ tk₁ st₂ tk₂)
    (hd : (currents (l₁ ++ l₂)).Nodup) (hc : ∀ z ∈ currents (l₁ ++ l₂), z < st.nextMBB)
    (hm : mbb < st.nextMBB) (hmc : mbb ∉ currents (l₁ ++ l₂)) :
    LanesUpdated dummyInstr mbb fakeBlock (l₁ ++ l₂) st tk st₂ tk₂ := by
  have hn := h₁.nextMBB
  simp only [currents_append, List.nodup_append, List.mem_append, not_or] at hd hc hmc
  have hmi : st₁.instrs mbb = st.instrs mbb := h₁.instrs _ hm hmc.1
  have left : ∀ lane ∈ l₁, ∀ z, lane.currentMBB = some z → st₂.instrs z = st₁.instrs z :=
    fun lane hl z hz => h₂.instrs z
      (Nat.lt_of_lt_of_le (hc z (.inl (currents_mem hl hz))) hn)
      (fun h => hd.2.2 z (currents_mem hl hz) z h rfl)
  have right : ∀ lane ∈ l₂, ∀ z, lane.currentMBB = some z → st₁.instrs z = st.instrs z :=
    fun lane hl z hz => h₁.instrs z (hc z (.inr (currents_mem hl hz)))
      (fun h => hd.2.2 z h z (currents_mem hl hz) rfl)
  obtain ⟨tr₁, hb₁, ht₁, hf₁⟩ := h₁.before
  obtain ⟨tr₂, hb₂, ht₂, hf₂⟩ := h₂.before
  obtain ⟨new₁, hk₁, hnd₁, hnew₁⟩ := h₁.kept
  obtain ⟨new₂, hk₂, hnd₂, hnew₂⟩ := h₂.kept
  have fresh₁ : ∀ z ∈ currents new₁, st.nextMBB ≤ z ∧ z < st₁.nextMBB := by
    intro z hz
    obtain ⟨l, hl, hlz⟩ := mem_currents.mp hz
    obtain ⟨lane, -, -, -, z', rfl, h, h', -⟩ := hnew₁ l hl
    cases hlz
    exact ⟨h, h'⟩
  have fresh₂ : ∀ z ∈ currents new₂, st₁.nextMBB ≤ z := by
    intro z hz
    obtain ⟨l, hl, hlz⟩ := mem_currents.mp hz
    obtain ⟨lane, -, -, -, z', rfl, h, -⟩ := hnew₂ l hl
    cases hlz
    exact h
  exact
    { after := h₂.after.trans h₁.after
      processedMBBs := h₂.processedMBBs.trans h₁.processedMBBs
      nextMBB := Nat.le_trans hn h₂.nextMBB
      before := by
        refine ⟨tr₂ ++ tr₁, by rw [hb₂, hb₁, List.append_assoc], ?_, fun b hb => ?_⟩
        · refine List.nodup_append.mpr ⟨ht₂, ht₁, fun a ha b hb hab => ?_⟩
          have := (hf₂ a ha).1
          have := (hf₁ b hb).2
          omega
        · have := h₂.nextMBB
          rcases List.mem_append.mp hb with h | h
          · have := hf₂ b h
            omega
          · have := hf₁ b h
            omega
      instrs := fun b hb hbc => by
        simp only [currents_append, List.mem_append, not_or] at hbc
        rw [h₂.instrs b (by omega) hbc.2, h₁.instrs b hb hbc.1]
      blocks := fun b hb hbc hbm => by
        simp only [currents_append, List.mem_append, not_or] at hbc
        rw [h₂.blocks b (by omega) hbc.2 hbm, h₁.blocks b hb hbc.1 hbm]
      arrive := fun lane hl ha z hz => by
        rcases List.mem_append.mp hl with h | h
        · rw [left lane h z hz, h₁.arrive lane h ha z hz]
        · rw [h₂.arrive lane h ha z hz, right lane h z hz]
      skip := fun lane hl ha z hz => by
        rcases List.mem_append.mp hl with h | h
        · obtain ⟨z', f, hf, hkept, hi⟩ := h₁.skip lane h ha z hz
          exact ⟨z', f, hf, hk₂ ▸ List.mem_append_left _ hkept, by rw [left lane h z hz, hi]⟩
        · obtain ⟨z', f, hf, hkept, hi⟩ := h₂.skip lane h ha z hz
          exact ⟨z', f, hf, hkept, by rw [hi, right lane h z hz, hmi]⟩
      kept := by
        refine ⟨new₁ ++ new₂, by rw [hk₂, hk₁, List.append_assoc], ?_, fun l hl => ?_⟩
        · rw [currents_append]
          refine List.nodup_append.mpr ⟨hnd₁, hnd₂, fun a ha b hb hab => ?_⟩
          have := (fresh₁ a ha).2
          have := fresh₂ b hb
          omega
        · rcases List.mem_append.mp hl with h | h
          · obtain ⟨lane, hlane, ha, hs, z, rfl, hz, hz', hzb, hi⟩ := hnew₁ l h
            refine ⟨lane, List.mem_append_left _ hlane, ha, hs, z, rfl, hz,
              Nat.lt_of_lt_of_le hz' h₂.nextMBB, by simp [hb₂, hzb], ?_⟩
            rw [h₂.instrs z hz', hi]
            intro hzc
            have := hc z (.inr hzc)
            omega
          · obtain ⟨lane, hlane, ha, hs, z, rfl, hz, hz', hzb, hi⟩ := hnew₂ l h
            exact ⟨lane, List.mem_append_right _ hlane, ha, hs, z, rfl, Nat.le_trans hn hz, hz',
              hzb, hi⟩
      created := fun b hb hlt => by
        rcases Nat.lt_or_ge b st₁.nextMBB with h | h
        · rw [hk₂, currents_append]
          exact List.mem_append_left _ (h₁.created b hb h)
        · exact h₂.created b h hlt
      pushed := h₁.pushed.trans h₂.pushed
      taken := fun k hk => by
        refine ⟨(h₂.taken k hk).1, ?_⟩
        rcases (h₂.taken k hk).2 with rfl | ⟨lane, hl, ha, hlk⟩
        · rcases (h₁.taken k rfl).2 with h | ⟨lane, hl, ha, hlk⟩
          · exact .inl h
          · obtain ⟨t, ht⟩ := h₂.pushed
            have hlt := (h₁.taken k rfl).1
            exact .inr ⟨lane, List.mem_append_left _ hl, ha,
              by rw [← ht, List.getElem?_append_left hlt, hlk]⟩
        · exact .inr ⟨lane, List.mem_append_right _ hl, ha, hlk⟩ }

end LanesUpdated

/-! ## One lane -/

section

variable {dummyInstr : Bool} {mbb : Nat} {fakeBlock : Option Nat} {lane : BlockLane}
  {st : PassState} {tk : Option Nat}

/-- The state in which the lane has its jump to `mbb`. -/
def PassState.closed (st : PassState) (mbb : Nat) : Option Nat → PassState
  | some z => (st.buildMI z (jmp4 mbb)).addSuccessor z mbb
  | none => st

/-- The state in which trampoline `z` leads on, through `f`, to a new one. -/
def PassState.skipped (st : PassState) (dummyInstr : Bool) (mbb z f : Nat) : PassState :=
  let st' := st.withTrampoline mbb none
  let st' := if dummyInstr then st'.addDummyInstructions mbb z else st'
  ((st'.buildMI z (lea targetRegOpcode st.nextMBB)).buildMI z (jmp4 f)).addSuccessor z f

@[simp] theorem PassState.closed_fields (mbb : Nat) (c : Option Nat) :
    (st.closed mbb c).before = st.before ∧ (st.closed mbb c).after = st.after ∧
      (st.closed mbb c).nextMBB = st.nextMBB ∧ (st.closed mbb c).takenBlocks = st.takenBlocks ∧
      (st.closed mbb c).processedMBBs = st.processedMBBs := by
  cases c <;> exact ⟨rfl, rfl, rfl, rfl, rfl⟩

theorem PassState.closed_instrs (mbb b : Nat) (c : Option Nat) :
    (st.closed mbb c).instrs b =
      if c = some b then st.instrs b ++ [jmp4 mbb] else st.instrs b := by
  cases c with
  | none => rfl
  | some z =>
    simp only [closed, buildMI, addSuccessor_instrs, setInstrs_instrs, Option.some.injEq, eq_comm]
    split
    · rename_i h; rw [h]
    · rfl

theorem PassState.closed_blocks {mbb b : Nat} {c : Option Nat} (h : c ≠ some b) :
    (st.closed mbb c).blocks b = st.blocks b := by
  cases c with
  | none => rfl
  | some z =>
    have hz : b ≠ z := fun hb => h (by rw [hb])
    simp only [closed, buildMI]
    rw [addSuccessor_blocks _ _ hz, setInstrs_blocks _ _ hz]

theorem LanesUpdated.arrive_one (ha : lane.Arrives mbb) {st' : PassState} {tk' : Option Nat}
    (h : st'.before = st.before ∧ st'.after = st.after ∧ st'.nextMBB = st.nextMBB ∧
      st'.processedMBBs = st.processedMBBs ∧ st'.blocks = (st.closed mbb lane.currentMBB).blocks)
    (hkept : st'.kept tk' = st.kept tk) (hl : st.takenBlocks <+: st'.takenBlocks)
    (hk : ∀ k ∈ tk', k < st'.takenBlocks.length ∧
      (tk = some k ∨ st'.takenBlocks[k]? = some lane)) :
    LanesUpdated dummyInstr mbb fakeBlock [lane] st tk st' tk' := by
  obtain ⟨hb, haf, hn, hp, hbl⟩ := h
  have hi (b : Nat) : st'.instrs b = (st.closed mbb lane.currentMBB).instrs b := by
    simp only [PassState.instrs, hbl]
  have hcur {b : Nat} (hbc : b ∉ currents [lane]) : lane.currentMBB ≠ some b :=
    fun h => hbc (currents_mem (List.mem_singleton_self lane) h)
  exact
    { after := haf
      processedMBBs := hp
      nextMBB := Nat.le_of_eq hn.symm
      before := ⟨[], hb, List.nodup_nil, by simp⟩
      instrs := fun b _ hbc => by rw [hi, closed_instrs, if_neg (hcur hbc)]
      blocks := fun b _ hbc _ => by rw [hbl, closed_blocks (hcur hbc)]
      arrive := fun l hl _ z hz => by
        cases List.mem_singleton.mp hl
        rw [hi, closed_instrs, if_pos hz]
      skip := fun l hl hna => by
        cases List.mem_singleton.mp hl
        exact absurd ha hna
      kept := ⟨[], by rw [hkept, List.append_nil], List.nodup_nil, by simp⟩
      created := fun b hb hlt => absurd (hn ▸ hlt) (Nat.not_lt.mpr hb)
      pushed := hl
      taken := fun k hk' => (hk k hk').imp_right fun h =>
        h.imp_right fun h => ⟨lane, List.mem_singleton_self _, ha, h⟩ }

@[simp] theorem PassState.skipped_fields (dummyInstr : Bool) (mbb z f : Nat) :
    (st.skipped dummyInstr mbb z f).before = st.nextMBB :: st.before ∧
      (st.skipped dummyInstr mbb z f).after = st.after ∧
      (st.skipped dummyInstr mbb z f).nextMBB = st.nextMBB + 1 ∧
      (st.skipped dummyInstr mbb z f).takenBlocks = st.takenBlocks ∧
      (st.skipped dummyInstr mbb z f).processedMBBs = st.processedMBBs := by
  cases dummyInstr <;> simp [skipped, addDummyInstructions]

theorem PassState.skipped_instrs (dummyInstr : Bool) {z : Nat} (f : Nat) (hz : z < st.nextMBB)
    (hm : mbb < st.nextMBB) (b : Nat) :
    (st.skipped dummyInstr mbb z f).instrs b =
      if b = z then st.instrs z ++ skipTo dummyInstr (st.instrs mbb).length st.nextMBB f
      else if b = st.nextMBB then [] else st.instrs b := by
  have hz' : z ≠ st.nextMBB := Nat.ne_of_lt hz
  have hm' : mbb ≠ st.nextMBB := Nat.ne_of_lt hm
  cases dummyInstr
  · by_cases hb : b = z <;> simp [skipped, skipTo, hb, hz']
  · by_cases hb : b = z <;> simp [skipped, skipTo, addDummyInstructions, hb, hz', hm']

theorem PassState.skipped_blocks {z f b : Nat} (hz : b ≠ z) (hm : b ≠ mbb)
    (hn : b ≠ st.nextMBB) : (st.skipped dummyInstr mbb z f).blocks b = st.blocks b := by
  simp only [skipped, buildMI]
  rw [addSuccessor_blocks _ _ hz, setInstrs_blocks _ _ hz, setInstrs_blocks _ _ hz]
  split
  · rw [addDummyInstructions, setInstrs_blocks _ _ hz, withTrampoline_blocks _ _ hn hm]
  · rw [withTrampoline_blocks _ _ hn hm]

theorem LanesUpdated.skip_one {z f : Nat} (ha : ¬ lane.Arrives mbb)
    (hz : lane.currentMBB = some z) (hzn : z < st.nextMBB) (hm : mbb < st.nextMBB)
    (hk : ∀ k ∈ tk, k < st.takenBlocks.length) :
    LanesUpdated dummyInstr mbb (some f) [lane] st tk
      ((st.skipped dummyInstr mbb z f).pushLane (lane.moveTo st.nextMBB)) tk := by
  obtain ⟨hb, haf, hn, ht, hp⟩ := st.skipped_fields dummyInstr mbb z f
  have hi := st.skipped_instrs dummyInstr f hzn hm
  have hcur {b : Nat} (hbc : b ∉ currents [lane]) : b ≠ z :=
    fun h => hbc (currents_mem (List.mem_singleton_self lane) (h ▸ hz))
  have hkept : ((st.skipped dummyInstr mbb z f).pushLane (lane.moveTo st.nextMBB)).kept tk =
      st.kept tk ++ [lane.moveTo st.nextMBB] := by
    cases tk with
    | none => simp [PassState.kept]
    | some k => simp [PassState.kept, List.eraseIdx_append_of_lt_length (hk k rfl)]
  exact
    { after := haf
      processedMBBs := hp
      nextMBB := by simp
      before := ⟨[st.nextMBB], hb, List.nodup_singleton _, by simp⟩
      instrs := fun b hbn hbc => by
        rw [pushLane_instrs, hi, if_neg (hcur hbc), if_neg (Nat.ne_of_lt hbn)]
      blocks := fun b hbn hbc hbm => by
        rw [pushLane_blocks, skipped_blocks (hcur hbc) hbm (Nat.ne_of_lt hbn)]
      arrive := fun l hl hla => by
        cases List.mem_singleton.mp hl
        exact absurd hla ha
      skip := fun l hl _ y hy => by
        cases List.mem_singleton.mp hl
        cases hz.symm.trans hy
        refine ⟨st.nextMBB, f, rfl, ?_, ?_⟩
        · rw [hkept]
          exact List.mem_append_right _ (List.mem_singleton_self _)
        · rw [pushLane_instrs, hi, if_pos rfl]
      kept := by
        refine ⟨[lane.moveTo st.nextMBB], hkept, List.nodup_singleton _, fun l hl => ?_⟩
        cases List.mem_singleton.mp hl
        refine ⟨lane, List.mem_singleton_self _, ha, by simp [hz], st.nextMBB, rfl,
          Nat.le_refl _, by simp, by simp, ?_⟩
        rw [pushLane_instrs, hi, if_neg (Nat.ne_of_gt hzn), if_pos rfl]
      created := fun b hb hlt => by
        obtain rfl : b = st.nextMBB := by
          rw [pushLane_nextMBB, hn] at hlt
          omega
        rw [hkept, currents_append]
        exact List.mem_append_right _ (currents_mem (List.mem_singleton_self _) rfl)
      pushed := by
        rw [pushLane_takenBlocks, ht]
        exact List.prefix_append ..
      taken := fun k hk' => by
        have := hk k hk'
        refine ⟨?_, .inl hk'⟩
        simp only [pushLane_takenBlocks, ht, List.length_append, List.length_singleton]
        omega }

end

section

variable {dummyInstr : Bool} {mbb : Nat} {fakeBlock : Option Nat} {lane : BlockLane}
  {rest : List BlockLane} {st : PassState} {tk : Option Nat}

theorem updateLanes_arrive (ha : lane.Arrives mbb) :
    updateLanes dummyInstr mbb fakeBlock (lane :: rest) st tk =
      let st' := st.closed mbb lane.currentMBB
      updateLanes dummyInstr mbb fakeBlock rest (if tk.isNone then st'.pushLane lane else st')
        (some (tk.getD st'.takenBlocks.length)) := by
  simp only [updateLanes]
  rw [if_pos (show lane.taken = true ∨ lane.destMBB = some mbb from ha)]
  obtain ⟨c, d, t⟩ := lane
  cases c <;> cases tk <;> rfl

theorem updateLanes_skip {z : Nat} (ha : ¬ lane.Arrives mbb) (hz : lane.currentMBB = some z) :
    updateLanes dummyInstr mbb fakeBlock (lane :: rest) st tk =
      match fakeBlock with
      | none => .error (.assertion "assuming this will never happen for last block")
      | some f => updateLanes dummyInstr mbb fakeBlock rest
          ((st.skipped dummyInstr mbb z f).pushLane (lane.moveTo st.nextMBB)) tk := by
  simp only [updateLanes]
  rw [if_neg (show ¬ (lane.taken = true ∨ lane.destMBB = some mbb) from ha)]
  obtain ⟨c, d, t⟩ := lane
  cases hz
  cases fakeBlock <;> rfl

theorem updateLanes_dead (ha : ¬ lane.Arrives mbb) (hz : lane.currentMBB = none) :
    updateLanes dummyInstr mbb fakeBlock (lane :: rest) st tk =
      updateLanes dummyInstr mbb fakeBlock rest st tk := by
  simp only [updateLanes]
  rw [if_neg (show ¬ (lane.taken = true ∨ lane.destMBB = some mbb) from ha), hz]

/-- The first lane leads to a state from which the loop goes over the others. -/
theorem updateLanes_cons {st' : PassState} {tk' : Option Nat}
    (h : updateLanes dummyInstr mbb fakeBlock (lane :: rest) st tk = .ok (st', tk'))
    (hc : ∀ z, lane.currentMBB = some z → z < st.nextMBB) (hm : mbb < st.nextMBB)
    (hk : ∀ k ∈ tk, k < st.takenBlocks.length) :
    ∃ st₁ tk₁, updateLanes dummyInstr mbb fakeBlock rest st₁ tk₁ = .ok (st', tk') ∧
      LanesUpdated dummyInstr mbb fakeBlock [lane] st tk st₁ tk₁ := by
  by_cases ha : lane.Arrives mbb
  · rw [updateLanes_arrive ha] at h
    obtain ⟨hb, haf, hn, ht, hp⟩ := st.closed_fields mbb lane.currentMBB
    refine ⟨_, _, h, ?_⟩
    cases tk with
    | none =>
      refine .arrive_one ha ⟨hb, haf, hn, hp, rfl⟩ ?_ (by simp) (by simp)
      simp [PassState.kept, List.eraseIdx_append_of_length_le]
    | some k =>
      exact .arrive_one ha ⟨hb, haf, hn, hp, rfl⟩ (by simp [PassState.kept]) (by simp)
        (by simpa using hk)
  cases hz : lane.currentMBB with
  | none =>
    rw [updateLanes_dead ha hz] at h
    have hn : LanesUpdated dummyInstr mbb fakeBlock [] st tk st tk := .nil hk
    refine ⟨st, tk, h, { hn with
      instrs := fun _ _ _ => rfl
      blocks := fun _ _ _ _ => rfl
      arrive := fun l hl hla => ?_
      skip := fun l hl _ z hz' => ?_
      kept := ⟨[], (List.append_nil _).symm, List.nodup_nil, by simp⟩
      taken := fun k h => ⟨hk k h, .inl h⟩ }⟩
    · cases List.mem_singleton.mp hl
      exact absurd hla ha
    · cases List.mem_singleton.mp hl
      cases hz.symm.trans hz'
  | some z =>
    rw [updateLanes_skip ha hz] at h
    cases fakeBlock with
    | none => cases h
    | some f => exact ⟨_, _, h, .skip_one ha hz (hc z hz) hm hk⟩

end

/-- The lane loop, over lanes that share no trampoline. -/
theorem updateLanes_spec {dummyInstr : Bool} {mbb : Nat} {fakeBlock : Option Nat}
    {lanes : List BlockLane} {st st' : PassState} {tk tk' : Option Nat}
    (h : updateLanes dummyInstr mbb fakeBlock lanes st tk = .ok (st', tk'))
    (hd : (currents lanes).Nodup) (hc : ∀ z ∈ currents lanes, z < st.nextMBB)
    (hm : mbb < st.nextMBB) (hmc : mbb ∉ currents lanes)
    (hk : ∀ k ∈ tk, k < st.takenBlocks.length) :
    LanesUpdated dummyInstr mbb fakeBlock lanes st tk st' tk' := by
  induction lanes generalizing st tk with
  | nil =>
    simp only [updateLanes, Except.ok.injEq, Prod.mk.injEq] at h
    obtain ⟨rfl, rfl⟩ := h
    exact .nil hk
  | cons lane rest ih =>
    obtain ⟨st₁, tk₁, hr, h₁⟩ :=
      updateLanes_cons h (fun z hz => hc z (currents_mem (List.mem_cons_self ..) hz)) hm hk
    have hn := h₁.nextMBB
    rw [← List.singleton_append] at hd hc hmc ⊢
    have hcr : ∀ z ∈ currents rest, z ∈ currents ([lane] ++ rest) := by
      intro z hz
      rw [currents_append]
      exact List.mem_append_right _ hz
    have hdr : (currents rest).Nodup := by
      rw [currents_append] at hd
      exact (List.nodup_append.mp hd).2.1
    have h₂ := ih hr hdr (fun z hz => Nat.lt_of_lt_of_le (hc z (hcr z hz)) hn)
      (Nat.lt_of_lt_of_le hm hn) (fun h => hmc (hcr _ h)) (fun k hk => (h₁.taken k hk).1)
    exact h₁.append h₂ hd hc hm hmc

end BS.BranchConversion
