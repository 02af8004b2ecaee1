import BranchShadowing.Proof.BranchConversion.Walk

/-!
# What the walk does to a block

Whatever an iteration does is one of a few edits: it creates a block (`Create`), and
it extends a trampoline or changes the block that it walks (`Change`).
`runOnBlock_edited` says so once, and invariants of the walk are inductions on
`Edited`: where every block is in the layout, and properties of blocks that survive
each edit (`Keeps`). `blockLoop_invariant` is the rule for the whole walk.
-/

namespace BS.BranchConversion

open X86 PassState

/-- What is the same all through an iteration: the block that it walks with its first
instructions, the number of the first block that it creates, the fake block, and the
blocks left when it ends. -/
structure Iteration where
  dummyInstr : Bool
  mbb : Nat
  instrs : List MachineInstr
  lo : Nat
  fakeBlock : Option Nat
  after : List Nat

/-- The block with more instructions and successors. -/
def extend (B : MachineBasicBlock) (is : List MachineInstr) (ss : List Nat) : MachineBasicBlock :=
  { B with instrs := B.instrs ++ is, succs := B.succs ++ ss }

section

variable (R : Iteration)

/-- How a block can change while there are blocks up to number `m`. -/
inductive Change (m : Nat) : Nat → MachineBasicBlock → MachineBasicBlock → Prop
  | arrive {z : Nat} {B : MachineBasicBlock} : z ≠ R.mbb → R.mbb < m →
    Change m z B (extend B [jmp4 R.mbb] [R.mbb])
  | skip {z k x f : Nat} {B : MachineBasicBlock} : z ≠ R.mbb → f ∈ R.fakeBlock → f < m →
    R.lo ≤ x → x < m → Change m z B (extend B (skipTo R.dummyInstr k x f) [f])
  | own {B : MachineBasicBlock} {js : List MachineInstr} : Change m R.mbb B { B with instrs := js }
  | reach {x : Nat} {B : MachineBasicBlock} : R.lo ≤ x → x < m → x ∉ R.fakeBlock →
    Change m R.mbb B (extend B [] [x])

/-- What a block can be created as. -/
inductive Create : Nat → MachineBasicBlock → Prop
  | fake {f : Nat} : f ∈ R.fakeBlock → Create f { instrs := [jmp64r] }
  | empty {z : Nat} : Create z {}
  | back {z d : Nat} {i : MachineInstr} : i ∈ R.instrs → i.mbb? = some d →
    Create z { instrs := [jmp4 d], succs := [d] }
  | split {N d : Nat} {i : MachineInstr} : N ∈ R.after → i ∈ R.instrs → i.isUnconditionalBranch →
    i.mbb? = some d → Create N { instrs := [⟨i.opcode, [.mbb d]⟩] }

/-- What the iteration can have made of state `s`. -/
inductive Edited (s : PassState) : PassState → Prop
  | refl : Edited s s
  | lanes {st st' : PassState} : Edited s st → st'.before ++ st'.after = st.before ++ st.after →
    st'.blocks = st.blocks → st'.nextMBB = st.nextMBB → Edited s st'
  | change {st st' : PassState} {b : Nat} {B : MachineBasicBlock} : Edited s st →
    Change R st.nextMBB b (st.blocks b) B → st'.before ++ st'.after = st.before ++ st.after →
    st'.blocks = Function.update st.blocks b B → st'.nextMBB = st.nextMBB → Edited s st'
  | create {st st' : PassState} {B : MachineBasicBlock} : Edited s st → R.lo ≤ st.nextMBB →
    Create R st.nextMBB B →
    (∀ b, b ∈ st'.before ++ st'.after ↔ b = st.nextMBB ∨ b ∈ st.before ++ st.after) →
    st'.blocks = Function.update st.blocks st.nextMBB B → st'.nextMBB = st.nextMBB + 1 → Edited s st'

/-- The fake block has been created, and the block walked long before. -/
structure Iteration.Ready (st : PassState) : Prop where
  lo : R.lo ≤ st.nextMBB
  mbb : R.mbb < st.nextMBB
  fake : ∀ f ∈ R.fakeBlock, f < st.nextMBB

end

theorem PassState.addSuccessor_extend (st : PassState) (b c : Nat) :
    (st.addSuccessor b c).blocks = Function.update st.blocks b (extend (st.blocks b) [] [c]) := by
  simp [addSuccessor, extend]

theorem PassState.jump_extend (st : PassState) (b d : Nat) :
    ((st.buildMI b (jmp4 d)).addSuccessor b d).blocks =
      Function.update st.blocks b (extend (st.blocks b) [jmp4 d] [d]) := by
  simp [addSuccessor, setInstrs, instrs, extend]

theorem PassState.skipped_extend (st : PassState) (dummyInstr : Bool) (mbb z f : Nat) : ∃ k,
    (st.skipped dummyInstr mbb z f).blocks = Function.update (st.withTrampoline mbb none).blocks z
      (extend ((st.withTrampoline mbb none).blocks z) (skipTo dummyInstr k st.nextMBB f) [f]) := by
  refine ⟨((st.withTrampoline mbb none).instrs mbb).length, ?_⟩
  cases dummyInstr <;>
    simp [skipped, addSuccessor, setInstrs, instrs, extend, skipTo, addDummyInstructions]

section

variable {R : Iteration} {s st st' : PassState} {mi : MachineInstr} {k : Nat}

theorem Iteration.Ready.mono (h : R.Ready st) (hn : st.nextMBB ≤ st'.nextMBB) : R.Ready st' where
  lo := Nat.le_trans h.lo hn
  mbb := Nat.lt_of_lt_of_le h.mbb hn
  fake f hf := Nat.lt_of_lt_of_le (h.fake f hf) hn

namespace Edited

theorem pushLane (h : Edited R s st) (lane : BlockLane) : Edited R s (st.pushLane lane) :=
  h.lanes rfl rfl rfl

theorem updateLane (h : Edited R s st) (k : Nat) (a b : Option Nat) (c : Bool) :
    Edited R s (st.updateLane k a b c) :=
  h.lanes rfl rfl rfl

theorem setInstrs (h : Edited R s st) (js : List MachineInstr) :
    Edited R s (st.setInstrs R.mbb js) :=
  h.change .own rfl rfl rfl

/-- The block just created becomes a successor of the block walked. -/
theorem reach (h : Edited R s st') (hr : R.Ready st) (hn : st'.nextMBB = st.nextMBB + 1) :
    Edited R s (st'.addSuccessor R.mbb st.nextMBB) := by
  refine h.change (.reach hr.lo (by omega) fun hx => ?_) rfl (addSuccessor_extend ..) rfl
  exact Nat.lt_irrefl _ (hr.fake _ hx)

theorem withTrampoline (h : Edited R s st) (hr : R.Ready st) {dest : Option Nat}
    (hd : ∀ d ∈ dest, ∃ i ∈ R.instrs, i.mbb? = some d) :
    Edited R s (st.withTrampoline R.mbb dest) := by
  cases dest with
  | none =>
    have hW : Edited R s (st.withBlock.pushFront st.nextMBB) :=
      h.create hr.lo .empty (by simp [pushFront]) rfl rfl
    exact hW.reach hr rfl
  | some d =>
    obtain ⟨i, hi, hid⟩ := hd d rfl
    refine Edited.reach ?_ hr rfl
    refine h.create hr.lo (.back hi hid) (by simp [pushFront]) ?_ rfl
    refine (jump_extend (st.withBlock.pushFront st.nextMBB) _ _).trans ?_
    simp [PassState.withBlock, pushFront, extend]

theorem closed (h : Edited R s st) (hr : R.Ready st) {o : Option Nat}
    (hz : ∀ z ∈ o, z ≠ R.mbb) : Edited R s (st.closed R.mbb o) := by
  cases o with
  | none => exact h
  | some z => exact h.change (.arrive (hz z rfl) hr.mbb) rfl (jump_extend ..) rfl

theorem skipped (h : Edited R s st) (hr : R.Ready st) {z f : Nat} (hz : z ≠ R.mbb)
    (hf : f ∈ R.fakeBlock) : Edited R s (st.skipped R.dummyInstr R.mbb z f) := by
  have hW : Edited R s (st.withTrampoline R.mbb none) := h.withTrampoline hr (by simp)
  obtain ⟨k, hk⟩ := st.skipped_extend R.dummyInstr R.mbb z f
  refine hW.change (.skip hz hf ?_ hr.lo ?_) (by simp) hk (by simp)
  · rw [withTrampoline_nextMBB]
    exact Nat.lt_succ_of_lt (hr.fake f hf)
  · rw [withTrampoline_nextMBB]
    exact Nat.lt_succ_self _

end Edited

theorem insertFakeBlock_edited (h : insertFakeBlock st R.mbb = (R.fakeBlock, st'))
    (hE : Edited R s st) (hlo : R.lo = st.nextMBB) : Edited R s st' := by
  simp only [insertFakeBlock] at h
  split at h
  · obtain ⟨-, rfl⟩ := Prod.mk.injEq .. ▸ h
    exact hE
  · simp only [createMachineBasicBlock_eq, Prod.mk.injEq] at h
    obtain ⟨hf, rfl⟩ := h
    refine hE.create (Nat.le_of_eq hlo) (.fake hf.symm) (fun b => ?_) ?_ rfl
    · show b ∈ (st.before ++ [st.nextMBB]) ++ st.after ↔ _
      simp only [List.mem_append, List.mem_singleton]
      tauto
    · simp [setInstrs, instrs, PassState.withBlock, PassState.insert]

theorem updateLanes_edited {lanes : List BlockLane} {tk tk' : Option Nat}
    (h : updateLanes R.dummyInstr R.mbb R.fakeBlock lanes st tk = .ok (st', tk'))
    (hm : R.mbb ∉ currents lanes) (hE : Edited R s st) (hr : R.Ready st) : Edited R s st' := by
  induction lanes generalizing st tk with
  | nil =>
    simp only [updateLanes, Except.ok.injEq, Prod.mk.injEq] at h
    exact h.1 ▸ hE
  | cons lane rest ih =>
    rw [← List.singleton_append, currents_append, List.mem_append, not_or] at hm
    have hne : ∀ z ∈ lane.currentMBB, z ≠ R.mbb := fun z hz h =>
      hm.1 (h ▸ currents_mem (List.mem_singleton_self lane) hz)
    by_cases ha : lane.Arrives R.mbb
    · rw [updateLanes_arrive ha] at h
      have hE' := hE.closed hr hne
      have hr' := hr.mono (Nat.le_of_eq (st.closed_fields R.mbb lane.currentMBB).2.2.1.symm)
      cases tk with
      | none => exact ih h hm.2 (hE'.pushLane lane) (hr'.mono (Nat.le_refl _))
      | some k => exact ih h hm.2 hE' hr'
    · cases hz : lane.currentMBB with
      | none =>
        rw [updateLanes_dead ha hz] at h
        exact ih h hm.2 hE hr
      | some z =>
        rw [updateLanes_skip ha hz] at h
        split at h
        · cases h
        · rename_i f hf
          have hn := (st.skipped_fields R.dummyInstr R.mbb z f).2.2.1
          refine ih h hm.2 ((hE.skipped hr (hne z hz) hf).pushLane _) (hr.mono ?_)
          rw [pushLane_nextMBB, hn]
          exact Nat.le_succ _

/-! ## The end of the block -/

theorem replaceNoBranchBlock_edited (ft : Option Nat) (hE : Edited R s st) (hr : R.Ready st) :
    Edited R s (replaceNoBranchBlock st R.mbb ft k) := by
  cases ft with
  | none => exact hE.updateLane ..
  | some d =>
    have hW : Edited R s (st.withTrampoline R.mbb none) := hE.withTrampoline hr (by simp)
    exact (hW.updateLane ..).setInstrs _

theorem replaceUnconditionalJump_edited (h : replaceUnconditionalJump st R.mbb mi k = .ok st')
    (hi : mi ∈ R.instrs) (hE : Edited R s st) (hr : R.Ready st) : Edited R s st' := by
  simp only [replaceUnconditionalJump, createNewBBonTrampoline_eq] at h
  split at h
  · cases h
  · rename_i d hmi
    have hW {dest : Option Nat} (hd : ∀ d' ∈ dest, mi.mbb? = some d') {a b : Option Nat} {c : Bool} :
        Edited R s ((st.withTrampoline R.mbb dest).updateLane k a b c) :=
      (hE.withTrampoline hr fun d' hd' => ⟨mi, hi, hd d' hd'⟩).updateLane ..
    by_cases hp : d ∈ st.processedMBBs
    · simp only [hp, if_true] at h
      cases h
      exact ((hW fun _ hd => hmi.trans hd).setInstrs _).setInstrs _
    · simp only [hp, if_false] at h
      cases h
      exact ((hW (by simp)).setInstrs _).setInstrs _

theorem replaceConditionalBranch_edited (h : replaceConditionalBranch st R.mbb mi k = .ok st')
    (hi : mi ∈ R.instrs) (hE : Edited R s st) (hr : R.Ready st) : Edited R s st' := by
  simp only [replaceConditionalBranch, createNewBBonTrampoline_eq,
    withTrampoline_processedMBBs] at h
  split at h
  · cases h
  · rename_i d hmi
    split at h
    · cases h
    · have hW : Edited R s (st.withTrampoline R.mbb none) := hE.withTrampoline hr (by simp)
      have hr' : R.Ready (st.withTrampoline R.mbb none) := hr.mono (by simp)
      have edits {s' : PassState} (hs : Edited R s s') (i₁ i₂ i₃ : MachineInstr) :
          Edited R s ((((s'.buildMIBefore R.mbb i₁).buildMIBefore R.mbb i₂).buildMIBefore R.mbb
            i₃).eraseLast R.mbb) :=
        (((hs.setInstrs _).setInstrs _).setInstrs _).setInstrs _
      by_cases hp : d ∈ st.processedMBBs
      · simp only [hp, if_true] at h
        cases h
        have hW' : Edited R s ((st.withTrampoline R.mbb none).withTrampoline R.mbb (some d)) :=
          hW.withTrampoline hr' fun _ hd => ⟨mi, hi, hmi.trans hd⟩
        exact (edits hW' ..).updateLane ..
      · simp only [hp, if_false] at h
        cases h
        have hW' : Edited R s ((st.withTrampoline R.mbb none).withTrampoline R.mbb none) :=
          hW.withTrampoline hr' (by simp)
        exact (edits (hW'.pushLane _) ..).updateLane ..

theorem splitJump_edited (h : splitJump st R.mbb mi = .ok st') (hi : mi ∈ R.instrs)
    (hu : mi.isUnconditionalBranch) (hafter : st'.after ⊆ R.after) (hE : Edited R s st)
    (hr : R.Ready st) : st'.nextMBB = st.nextMBB + 1 ∧ Edited R s st' := by
  simp only [splitJump, createMachineBasicBlock_eq] at h
  split at h
  · cases h
  · rename_i d hmi
    cases h
    have hN : Edited R s ((st.withBlock.insertNext st.nextMBB).buildMI st.nextMBB
        ⟨mi.opcode, [.mbb d]⟩) := by
      refine hE.create hr.lo (.split (hafter (by simp)) hi hu hmi) (fun b => ?_) ?_ rfl
      · show b ∈ st.before ++ st.nextMBB :: st.after ↔ _
        simp only [List.mem_append, List.mem_cons]
        tauto
      · simp [PassState.setInstrs, instrs, PassState.withBlock, insertNext]
    exact ⟨rfl, (hN.reach hr rfl).setInstrs _⟩

theorem replaceTerminator_edited {ft : Option Nat} (h : replaceTerminator st R.mbb ft k = .ok st')
    (hi : R.instrs = st.instrs R.mbb) (hafter : st'.after = R.after) (hE : Edited R s st)
    (hr : R.Ready st) : Edited R s st' := by
  unfold replaceTerminator at h
  split at h
  · cases h
    exact hE
  · rename_i pos hpos
    have hpm : pos ∈ R.instrs := hi ▸ List.mem_of_getLast? hpos
    split at h
    · rename_i hpu
      split at h
      · rename_i jcc hjcc
        have hjm : jcc ∈ R.instrs := hi ▸ List.dropLast_subset _ (List.mem_of_getLast? hjcc)
        split at h
        · cases hs : splitJump st R.mbb pos with
          | error e =>
            rw [hs] at h
            cases h
          | ok s₁ =>
            rw [hs] at h
            have hsub : s₁.after ⊆ R.after := by
              rw [← hafter, replaceConditionalBranch_after h]
              exact List.Subset.refl _
            obtain ⟨hn, hE'⟩ := splitJump_edited hs hpm hpu hsub hE hr
            exact replaceConditionalBranch_edited h hjm hE' (hr.mono (by omega))
        · exact replaceUnconditionalJump_edited h hpm hE hr
      · exact replaceUnconditionalJump_edited h hpm hE hr
    · split at h
      · simp only [replaceIndirectJump] at h
        split at h
        · cases h
          exact hE.updateLane ..
        · cases h
      · split at h
        · exact replaceConditionalBranch_edited h hpm hE hr
        · split at h
          · cases h
            exact replaceNoBranchBlock_edited ft hE hr
          · cases h

end

/-! ## The iteration -/

/-- The iteration that walks block `mbb`, and ends in `st'`. -/
def iteration (dummyInstr : Bool) (st : PassState) (mbb : Nat) (rest : List Nat)
    (st' : PassState) : Iteration where
  dummyInstr := dummyInstr
  mbb := mbb
  instrs := st.instrs mbb
  lo := st.nextMBB
  fakeBlock := (insertFakeBlock (advance st mbb rest) mbb).1
  after := st'.after

section

variable {dummyInstr : Bool} {st st' fin : PassState} {mbb : Nat} {rest : List Nat}

theorem runOnBlock_edited (hB : Bookkeeping st) (ha : st.after = mbb :: rest)
    (h : runOnBlock dummyInstr st = .ok st') :
    Edited (iteration dummyInstr st mbb rest st') st st' := by
  have hR : (iteration dummyInstr st mbb rest st').fakeBlock =
      (insertFakeBlock (advance st mbb rest) mbb).1 := rfl
  simp only [runOnBlock, ha] at h
  rcases hf : insertFakeBlock (advance st mbb rest) mbb with ⟨fakeBlock, s₁⟩
  rw [hf] at h hR
  cases hl : updateLanes dummyInstr mbb fakeBlock s₁.takenBlocks { s₁ with takenBlocks := [] } none
    with
  | error e =>
    rw [hl] at h
    cases h
  | ok p =>
    obtain ⟨s₂, tk⟩ := p
    rw [hl] at h
    rcases ht : takeLane s₂ tk with ⟨k, s₃⟩
    simp only [bind, Except.bind, ht] at h
    have D := LanesDone.of_loop hB ha hf hl ht
    have F := insertFakeBlock_spec hf
    have hm : mbb < st.nextMBB := hB.fresh mbb (by simp [ha])
    have hmc : mbb ∉ currents s₁.takenBlocks := F.takenBlocks ▸ hB.not_current (by simp [ha])
    have hE₀ : Edited (iteration dummyInstr st mbb rest st') st (advance st mbb rest) :=
      Edited.refl.lanes (by simp [advance, ha]) rfl rfl
    have hE₁ : Edited (iteration dummyInstr st mbb rest st') st s₁ :=
      insertFakeBlock_edited (by rw [hR]; exact hf) hE₀ rfl
    have hr₁ : (iteration dummyInstr st mbb rest st').Ready s₁ :=
      ⟨F.nextMBB, Nat.lt_of_lt_of_le hm F.nextMBB, by rw [hR]; exact fun f hff => (F.some f hff).2.1⟩
    have hE₁' : Edited (iteration dummyInstr st mbb rest st') st { s₁ with takenBlocks := [] } :=
      hE₁.lanes rfl rfl rfl
    have hE₂ : Edited (iteration dummyInstr st mbb rest st') st s₂ :=
      updateLanes_edited (by rw [hR]; exact hl) hmc hE₁' (hr₁.mono (Nat.le_refl _))
    have hE₃ : Edited (iteration dummyInstr st mbb rest st') st s₃ := by
      cases tk <;> cases ht
      · exact hE₂.pushLane _
      · exact hE₂
    refine replaceTerminator_edited h (D.instrs mbb hm (hB.not_current (by simp [ha]))).symm rfl hE₃
      ⟨D.nextMBB, Nat.lt_of_lt_of_le hm D.nextMBB, ?_⟩
    rw [hR]
    exact fun f hff => (D.fake f hff).2.1

/-- What holds before the walk, and is kept by every iteration on the way to its end,
holds at its end. -/
theorem blockLoop_invariant {fuel : Nat} {I : PassState → Prop}
    (h : blockLoop dummyInstr fuel st = .ok fin) (hB : Bookkeeping st) (hI : I st)
    (hstep : ∀ s s' mbb rest, Bookkeeping s → s.after = mbb :: rest →
      runOnBlock dummyInstr s = .ok s' → Walk dummyInstr fin s' → I s → I s') : I fin := by
  induction fuel generalizing st with
  | zero =>
    simp only [blockLoop] at h
    split at h
    · cases h
      exact hI
    · cases h
  | succ fuel ih =>
    simp only [blockLoop] at h
    split at h
    · cases h
      exact hI
    · rename_i ha
      obtain ⟨mbb, rest, ha⟩ := List.exists_cons_of_ne_nil ha
      cases hr : runOnBlock dummyInstr st with
      | error e =>
        rw [hr] at h
        cases h
      | ok st₁ =>
        rw [hr] at h
        have hB₁ := (runOnBlock_done hB ha hr).bookkeeping
        exact ih h hB₁ (hstep st st₁ mbb rest hB ha hr (walk_of_blockLoop h hB₁) hI)

end

/-! ## What edits keep -/

/-- The blocks laid out are those in `l` and those created from number `n` on. -/
def LaidOut (l : List Nat) (n : Nat) (st : PassState) : Prop :=
  ∀ b, b ∈ st.before ++ st.after ↔ b ∈ l ∨ n ≤ b ∧ b < st.nextMBB

/-- Every block created so far has the property, which may depend on how many there are. -/
def Each (P : Nat → Nat → MachineBasicBlock → Prop) (st : PassState) : Prop :=
  ∀ b < st.nextMBB, P st.nextMBB b (st.blocks b)

/-- The property survives every edit of the iteration. -/
structure Keeps (P : Nat → Nat → MachineBasicBlock → Prop) (R : Iteration) : Prop where
  mono : ∀ {m b B}, P m b B → P (m + 1) b B
  change : ∀ {m b B B'}, Change R m b B B' → P m b B → P m b B'
  create : ∀ {b B}, R.lo ≤ b → Create R b B → P (b + 1) b B

namespace Edited

variable {R : Iteration} {s st : PassState}

theorem nextMBB_le (h : Edited R s st) : s.nextMBB ≤ st.nextMBB := by
  induction h with
  | refl => exact Nat.le_refl _
  | lanes _ _ _ hn ih => exact hn ▸ ih
  | change _ _ _ _ hn ih => exact hn ▸ ih
  | create _ _ _ _ _ hn ih => exact hn ▸ Nat.le_succ_of_le ih

theorem laidOut {l : List Nat} {n : Nat} (h : Edited R s st) (hn : n ≤ R.lo)
    (hs : LaidOut l n s) : LaidOut l n st := by
  induction h with
  | refl => exact hs
  | lanes _ hl _ hn ih => exact fun b => by rw [hl, hn, ih]
  | change _ _ hl _ hn ih => exact fun b => by rw [hl, hn, ih]
  | create _ hlo _ hl _ hn' ih =>
    intro b
    rw [hl, ih, hn']
    by_cases hb : b ∈ l
    · simp [hb]
    · simp only [hb, false_or]
      omega

/-- The block walked keeps its successors; those that it gets are new, and the fake
block is not one of them. -/
theorem succs (h : Edited R s st) (hm : R.mbb < s.nextMBB) : ∃ ss,
    (st.blocks R.mbb).succs = (s.blocks R.mbb).succs ++ ss ∧
      ∀ x ∈ ss, R.lo ≤ x ∧ x ∉ R.fakeBlock := by
  induction h with
  | refl => exact ⟨[], by simp, by simp⟩
  | lanes _ _ hb _ ih => exact hb ▸ ih
  | @change st st' b B _ hc _ hb _ ih =>
    obtain ⟨ss, hss, hnew⟩ := ih
    rw [hb]
    by_cases hbm : R.mbb = b
    · subst hbm
      rw [Function.update_self]
      generalize st.blocks R.mbb = B₀ at hc hss
      cases hc with
      | arrive hz => exact absurd rfl hz
      | skip hz => exact absurd rfl hz
      | own => exact ⟨ss, hss, hnew⟩
      | @reach x _ hx _ hf =>
        refine ⟨ss ++ [x], by simp [extend, hss], fun y hy => ?_⟩
        rcases List.mem_append.mp hy with hy | hy
        · exact hnew y hy
        · exact List.mem_singleton.mp hy ▸ ⟨hx, hf⟩
    · rw [Function.update_of_ne hbm]
      exact ⟨ss, hss, hnew⟩
  | create h _ _ _ hb _ ih =>
    have hne := Nat.ne_of_lt (Nat.lt_of_lt_of_le hm h.nextMBB_le)
    rw [hb, Function.update_of_ne hne]
    exact ih

theorem each {P : Nat → Nat → MachineBasicBlock → Prop} (h : Edited R s st) (K : Keeps P R)
    (hs : Each P s) : Each P st := by
  induction h with
  | refl => exact hs
  | lanes _ _ hb hn ih =>
    intro b hlt
    rw [hb, hn]
    exact ih b (hn ▸ hlt)
  | @change st st' c B _ hc _ hb hn ih =>
    intro b hlt
    rw [hb, hn]
    rw [hn] at hlt
    by_cases hbc : b = c
    · subst hbc
      rw [Function.update_self]
      exact K.change hc (ih b hlt)
    · rw [Function.update_of_ne hbc]
      exact ih b hlt
  | @create st st' B _ hlo hc _ hb hn ih =>
    intro b hlt
    rw [hb, hn]
    by_cases hbn : b = st.nextMBB
    · subst hbn
      rw [Function.update_self]
      exact K.create hlo hc
    · rw [Function.update_of_ne hbn]
      exact K.mono (ih b (by omega))

end Edited

end BS.BranchConversion
