import BranchShadowing.Proof.Shadow.Layouts

/-!
# Setting up and calling a shadow

A shadow that is set up from a victim's branch executes what its builder intends
(`setup_executes`).
-/

namespace BS.ShadowCode.BranchShadow

open Shadow
open Machine (Executed Runs)

variable {b : BranchShadow} {mapped : Ptr} {m : Mem Byte} {cells : Cells}
variable {r : Setup} {input : BitVec 32} {src dst inputInner targetInner : Ptr} {mode : Bool}

theorem prepareAttack_ok
    (h : prepareAttack src dst input mode inputInner targetInner = .ok (b, cells)) :
    b.src ≠ nullptr ∧ b.dst ≠ nullptr ∧
      (cells b.indirectShadowInput).value = input.signExtend 64 := by
  obtain ⟨_, hs, h⟩ := bind_eq_ok.mp h
  obtain ⟨_, hd, h⟩ := bind_eq_ok.mp h
  obtain ⟨rfl, rfl⟩ := Prod.mk.inj (Except.ok.inj h)
  exact ⟨ensure_ok.mp hs, ensure_ok.mp hd, rfl⟩

section

variable (hs : b.src ≠ nullptr) (hd : b.dst ≠ nullptr) (hap : Disjoint r)
include hs hd hap

theorem setupJmpShadow_executes (h : b.setupJmpShadow mapped m cells = .ok r) :
    b.Executes input r 2 := by
  obtain ⟨f, hf, h⟩ := bind_eq_ok.mp h
  obtain ⟨p, hp, h⟩ := bind_eq_ok.mp h
  obtain rfl := Except.ok.inj h
  obtain ⟨last, hr⟩ := ready hf hap
  by_cases hfwd : b.forward
  · simp only [if_pos hfwd] at hr ⊢
    obtain rfl : 7 = last := Nat.succ.inj hr.length
    exact jmpForward_executes hs hd hp hr
  · simp only [if_neg hfwd] at hr ⊢
    obtain rfl : 7 = last := Nat.succ.inj hr.length
    exact jmpBackward_executes hs hd hp hr

theorem setupJmpShadowRev_executes (h : b.setupJmpShadowRev mapped m cells = .ok r)
    (hsep : Separate b .jmpRev) : b.Executes input r 1 := by
  obtain ⟨f, hf, h⟩ := bind_eq_ok.mp h
  obtain ⟨p, hp, h⟩ := bind_eq_ok.mp h
  obtain rfl := Except.ok.inj h
  obtain ⟨last, hr⟩ := ready hf hap
  by_cases hfwd : b.forward
  · simp only [if_pos hfwd] at hr ⊢
    obtain rfl : 7 = last := Nat.succ.inj hr.length
    exact jmpRevForward_executes hs hd hp hr fun hmode => hsep hmode hfwd
  · simp only [if_neg hfwd] at hr ⊢
    obtain rfl : 7 = last := Nat.succ.inj hr.length
    exact jmpRevBackward_executes hs hd hp hr

theorem setupJneShadow_executes (h : b.setupJneShadow mapped m cells = .ok r)
    (hsrc : b.src ≠ SegJneEaxZero.jneOffset) (hshort : ShortDisplacements r)
    (hinput : (cells b.indirectShadowInput).value = input.signExtend 64) :
    b.Executes input r (Builder.jne.retval input) := by
  obtain ⟨f, hf, h⟩ := bind_eq_ok.mp h
  obtain ⟨q, -, h⟩ := bind_eq_ok.mp h
  obtain ⟨p, hp, h⟩ := bind_eq_ok.mp h
  obtain rfl := Except.ok.inj h
  obtain ⟨last, hr⟩ := ready hf hap
  unfold ShortDisplacements at hshort
  rw [hr.segments] at hshort
  by_cases hfwd : b.forward
  · simp only [if_pos hfwd] at hr
    obtain rfl : 9 = last := Nat.succ.inj hr.length
    exact jneForward_layout.executes hr hs hsrc hd hp (fun _ => hinput)
      (hshort 3 (by decide) 6 (.inl (hr.kind 3 _ rfl)))
  · simp only [if_neg hfwd] at hr
    obtain rfl : 10 = last := Nat.succ.inj hr.length
    exact jneBackward_layout.executes hr hs hsrc hd hp (fun _ => hinput)
      (hshort 7 (by decide) 5 (.inl (hr.kind 7 _ rfl)))

end

/-- A shadow that is set up executes what its builder intends. -/
theorem setup_executes {builder : Builder}
    (h : prepareAttack src dst input mode inputInner targetInner = .ok (b, cells))
    (hr : b.setup builder mapped m cells = .ok r) (hap : Disjoint r)
    (hshort : ShortDisplacements r) (hsep : Separate b builder) :
    b.Executes input r (builder.retval input) := by
  obtain ⟨hs, hd, hinput⟩ := prepareAttack_ok h
  cases builder with
  | jne => exact setupJneShadow_executes hs hd hap hr hsep hshort hinput
  | jmp => exact setupJmpShadow_executes hs hd hap hr
  | jmpRev => exact setupJmpShadowRev_executes hs hd hap hr hsep

theorem jneForward_ready (h : b.setupJneShadow mapped m cells = .ok r) (hfwd : b.forward)
    (hap : Disjoint r) : Ready b.jneForward mapped m cells r.finalized 9 := by
  obtain ⟨f, hf, h⟩ := bind_eq_ok.mp h
  obtain ⟨q, -, h⟩ := bind_eq_ok.mp h
  obtain ⟨p, hp, h⟩ := bind_eq_ok.mp h
  obtain rfl := Except.ok.inj h
  rw [if_pos hfwd] at hf
  obtain ⟨last, hr⟩ := ready hf hap
  obtain rfl : 9 = last := Nat.succ.inj hr.length
  exact hr

/-- What the tests read off the jne shadow that goes forward: whether its segments are disjoint,
its displacements of one byte, the entry and positions. -/
def readJne (b : BranchShadow) (r : Setup) : BranchShadow × Bool × List Ptr × List Ptr :=
  let s := r.finalized.shadow
  (b, decide (Disjoint r), [s.getPos 6 - s.getEnd 3, s.getPos 8 - s.getEnd 5, s.getPos 9 - s.getEnd 7],
    [r.entry, s.getPos 0, s.getPos 2, s.getPos 3, s.getPos 7, s.getPos 9])

theorem jneForward_short {d₃ d₅ d₇ : Ptr} (hr : Ready b.jneForward mapped m cells r.finalized 9)
    (hdisp : (readJne b r).2.2.1 = [d₃, d₅, d₇]) (h₃ : Signed 8 d₃) (h₅ : Signed 8 d₅)
    (h₇ : Signed 8 d₇) : ShortDisplacements r := by
  simp only [readJne, List.cons.injEq, and_true] at hdisp
  obtain ⟨rfl, rfl, rfl⟩ := hdisp
  intro i hi t ht
  rw [hr.segments, List.mem_range] at hi
  interval_cases i <;> rw [hr.kind _ _ rfl] at ht <;> rcases ht with ht | ht
  case «0».inl | «0».inr =>
    change b.jneEntry = _ at ht
    unfold jneEntry at ht
    split at ht <;> cases ht
  case «1».inl | «1».inr =>
    change b.jnePretest = _ at ht
    unfold jnePretest at ht
    split at ht <;> cases ht
  case «3».inl =>
    cases ht
    exact h₃
  case «5».inr =>
    cases ht
    exact h₅
  case «7».inr =>
    cases ht
    exact h₇
  all_goals cases ht

/-- What a shadow that is set up evaluates to. -/
theorem exists_of_setup {α : Type} {builder : Builder} {g : BranchShadow → Setup → α} {v : α}
    (h : ((prepareAttack src dst input mode inputInner targetInner).bind fun x =>
      (x.1.setup builder mapped m x.2).map (g x.1)) = .ok v) :
    ∃ b cells r, prepareAttack src dst input mode inputInner targetInner = .ok (b, cells) ∧
      b.setup builder mapped m cells = .ok r ∧ g b r = v := by
  obtain ⟨⟨b, cells⟩, hb, h⟩ := bind_eq_ok.mp h
  cases hr : b.setup builder mapped m cells with
  | error e =>
    rw [hr] at h
    cases h
  | ok r =>
    rw [hr] at h
    exact ⟨b, cells, r, hb, hr, Except.ok.inj h⟩

theorem setup_executes_jne : ∃ b cells r,
    prepareAttack 0x401010 0x401040 3 false 0x1000 0x2000 = .ok (b, cells) ∧
      b.setup .jne 0x7f0000000000 (fun _ => 0) cells = .ok r ∧ b.Executes 3 r 2 := by
  have hrun : ((prepareAttack 0x401010 0x401040 3 false 0x1000 0x2000).bind fun x =>
      (x.1.setup .jne 0x7f0000000000 (fun _ => 0) x.2).map (readJne x.1)) =
      .ok (⟨0x401010, 0x401040, false, 0, 1⟩, true, [0x2e, 0x1e, 0x7d], [0x7f0000400fff,
        0x7f0000400fff, 0x7f0000401007, 0x7f000040100e, 0x7f0000401047, 0x7f00004010c6]) := by
    decide +kernel
  obtain ⟨b, cells, r, hb, hr, hread⟩ := exists_of_setup hrun
  obtain ⟨hb', hread⟩ := Prod.mk.inj hread
  obtain ⟨hap, hread⟩ := Prod.mk.inj hread
  obtain ⟨hdisp, -⟩ := Prod.mk.inj hread
  have hap : Disjoint r := of_decide_eq_true hap
  have hready := jneForward_ready hr (by rw [hb']; decide) hap
  refine ⟨b, cells, r, hb, hr, ?_⟩
  show b.Executes 3 r (Builder.jne.retval 3)
  refine setup_executes hb hr hap (jneForward_short hready hdisp (by decide) (by decide) (by decide)) ?_
  rw [hb']
  show (0x401010 : Ptr) ≠ 2
  decide

/-! ## A victim at address 2 -/

/-- A call has one run: if the machine halts where the shadow returns to, then whatever it
executes on some way is what is executed. -/
theorem Executes.oneShadowed {v v' : BitVec 32} {s : Machine.State} {back : Ptr} {stack : List Ptr}
    {Q : List Executed → Machine.State → Prop} (h : b.Executes input r v)
    (hcalled : b.Called input r s) (hstack : s.stack = back :: stack)
    (hhalt : ∀ s' : Machine.State, s'.mem = s.mem → s'.rip = back → Machine.step s' = none)
    (hrun : Runs s fun bs s' => Returned back stack v' s' ∧ Q bs s') :
    ∃ bs s', Q bs s' ∧ OneShadowed b.src b.dst (bs ++ [⟨s'.rip, .ret, true, back⟩]) := by
  obtain ⟨n, es, s₁, hs₁, -, -, hstep₁, hone⟩ := h s back stack hcalled hstack
  obtain ⟨k, fs, s₂, hs₂, ⟨-, -, hstep₂⟩, hQ⟩ := hrun
  have hmem₁ : s₁.mem = s.mem := Machine.steps_mem hs₁
  have hmem₂ : s₂.mem = s.mem := Machine.steps_mem hs₂
  have heq := (hs₁.trans (.one hstep₁)).eq_of_halted (hhalt _ hmem₁ rfl)
    (hs₂.trans (.one hstep₂)) (hhalt _ hmem₂ rfl)
  obtain ⟨rfl, hrip⟩ := List.append_inj' heq rfl
  refine ⟨_, s₂, hQ, ?_⟩
  rwa [← hrip]

/-- The jne segment made for it has no position, and lies anywhere. -/
theorem jneAtTwo_not_executes : ¬ ∀ b cells r,
    prepareAttack 2 0x1000 1 false 0x1000 0x2000 = .ok (b, cells) →
      b.setup .jne 0x7f0000000000 (fun _ => 0) cells = .ok r → Disjoint r → ShortDisplacements r →
        b.Executes 1 r 2 := by
  intro h
  have hrun : ((prepareAttack 2 0x1000 1 false 0x1000 0x2000).bind fun x =>
      (x.1.setup .jne 0x7f0000000000 (fun _ => 0) x.2).map (readJne x.1)) =
      .ok (⟨2, 0x1000, false, 0, 1⟩, true, [0xd, 0xd, 0x7d], [0x7f0000000fe0, 0x7f0000000fe0,
        0x7f0000000fe8, 0x7f0000000fef, 0x7f0000001007, 0x7f0000001086]) := by
    decide +kernel
  obtain ⟨b, cells, r, hb, hr, hread⟩ := exists_of_setup hrun
  obtain ⟨hb', hread⟩ := Prod.mk.inj hread
  obtain ⟨hap, hread⟩ := Prod.mk.inj hread
  obtain ⟨hdisp, hpos⟩ := Prod.mk.inj hread
  have hap : Disjoint r := of_decide_eq_true hap
  have hready := jneForward_ready hr (by rw [hb']; decide) hap
  simp only [List.cons.injEq, and_true] at hpos
  obtain ⟨hentry, h₀, hpos₂, hpos₃, hpos₇, hpos₉⟩ := hpos
  have hshort : ShortDisplacements r := jneForward_short hready hdisp (by decide) (by decide) (by decide)
  have hdirect : b.useIndirectTargets = false := by rw [hb']
  let s : Machine.State :=
    { rip := r.entry, eax := 1, zf := false, regs := fun _ => 0, stack := [0]
      mem := fun a => if 0x7f0000000fe0 ≤ a then r.finalized.mem a else 0 }
  have hloaded : r.finalized.Loaded s.mem := fun a ha _ => by
    rw [front_eq hready.segments, h₀] at ha
    exact if_pos ha
  have hhalt : ∀ s' : Machine.State, s'.mem = s.mem → s'.rip = 0 → Machine.step s' = none := by
    intro s' hmem hrip
    unfold Machine.step
    rw [hmem, hrip]
    rfl
  have hcalled : b.Called 1 r s :=
    ⟨rfl, hloaded, fun _ => rfl, fun hmode => absurd (hdirect.symm.trans hmode) (by decide)⟩
  have hpath := jneForward_layout.path hready
    (hshort 3 (by rw [hready.segments]; decide) 6 (.inl (hready.kind 3 _ rfl)))
  have hrun := hpath.runs_odd (hready.code s.mem hloaded) (fun _ => rfl)
    (fun hmode => absurd (hdirect.symm.trans hmode) (by decide)) (hentry.trans h₀.symm) rfl
    (show (1 : BitVec 32) &&& 1 ≠ 0 by decide)
  obtain ⟨bs, s', ⟨hend, rfl⟩, e, hone, -⟩ :=
    (h b cells r hb hr hap hshort).oneShadowed hcalled rfl hhalt hrun
  rw [hend, hpos₂, hpos₃, hpos₇, hpos₉, hb'] at hone
  obtain ⟨hmem, ha⟩ := List.mem_filter.mp (hone ▸ List.mem_singleton_self e)
  simp only [List.cons_append, List.nil_append, List.mem_cons, List.not_mem_nil, or_false] at hmem
  rcases hmem with rfl | rfl | rfl | rfl <;> simp [Aliases, BpuUtils.lbrEntryBits] at ha

/-! ## A destination a window behind the source -/

theorem jmpRevForward_ready (h : b.setupJmpShadowRev mapped m cells = .ok r) (hfwd : b.forward)
    (hap : Disjoint r) : Ready b.jmpRevForward mapped m cells r.finalized 7 := by
  obtain ⟨f, hf, h⟩ := bind_eq_ok.mp h
  obtain ⟨p, hp, h⟩ := bind_eq_ok.mp h
  obtain rfl := Except.ok.inj h
  rw [if_pos hfwd] at hf
  obtain ⟨last, hr⟩ := ready hf hap
  obtain rfl : 7 = last := Nat.succ.inj hr.length
  exact hr

/-- In the indirect mode this layout has no short jump. -/
theorem jmpRevForward_short (hr : Ready b.jmpRevForward mapped m cells r.finalized 7)
    (hmode : b.useIndirectTargets = true) : ShortDisplacements r := by
  have hkind : ∀ a ∈ b.jmpRevForward, ∀ t, a.kind ≠ .jneEaxZero t ∧ a.kind ≠ .jump t := by
    simp [jmpRevForward, jmpEntry, jmpSrc, hmode]
  intro i hi t ht
  rw [hr.segments, List.mem_range] at hi
  have hget := List.getElem?_eq_getElem (show i < b.jmpRevForward.length from hi)
  rw [hr.kind i _ hget] at ht
  exact absurd ht (not_or.mpr (hkind _ (List.getElem_mem _) t))

/-- What is read off the reversed shadow that goes forward: whether its segments are disjoint,
the entry, positions and the words of the cells. -/
def readJmpRev (b : BranchShadow) (r : Setup) : BranchShadow × Bool × List Ptr × List Ptr :=
  let s := r.finalized.shadow
  (b, decide (Disjoint r), [r.entry, s.getPos 0, s.getPos 1, s.getPos 3],
    [(r.finalized.cells 0).inner, (r.finalized.cells 1).inner])

/-- The jump behind the destination is at an alias of the source as well. -/
theorem jmpRevFar_not_executes : ¬ ∀ b cells r,
    prepareAttack 0x401010 0x100401009 1 true 0x1000 0x2000 = .ok (b, cells) →
      b.setup .jmpRev 0x7f0000000000 (fun _ => 0) cells = .ok r → Disjoint r → ShortDisplacements r →
        b.Executes 1 r 1 := by
  intro h
  have hrun : ((prepareAttack 0x401010 0x100401009 1 true 0x1000 0x2000).bind fun x =>
      (x.1.setup .jmpRev 0x7f0000000000 (fun _ => 0) x.2).map (readJmpRev x.1)) =
      .ok (⟨0x401010, 0x100401009, true, 0, 1⟩, true, [0x7f0000401004, 0x7f0000401004,
        0x7f0000401010, 0x7f0100401010], [0x1000, 0x2000]) := by
    decide +kernel
  obtain ⟨b, cells, r, hb, hr, hread⟩ := exists_of_setup (g := readJmpRev) hrun
  obtain ⟨hb', hread⟩ := Prod.mk.inj hread
  obtain ⟨hap, hread⟩ := Prod.mk.inj hread
  obtain ⟨hpos, hinner⟩ := Prod.mk.inj hread
  have hap : Disjoint r := of_decide_eq_true hap
  have hmode : b.useIndirectTargets = true := by rw [hb']
  have hready := jmpRevForward_ready hr (by rw [hb']; decide) hap
  simp only [List.cons.injEq, and_true] at hpos hinner
  obtain ⟨hentry, h₀, h₁, h₃⟩ := hpos
  obtain ⟨hinput, htarget⟩ := hinner
  let word (c : Nat) : List Byte := toLE 8 (r.finalized.cells c).value.toNat
  let code : Mem Byte := fun a => if 0x7f0000401004 ≤ a then r.finalized.mem a else 0
  let s : Machine.State :=
    { rip := r.entry, eax := 1, zf := false, regs := fun _ => 0, stack := [0]
      mem := (code.write 0x1000 (word 0)).write 0x2000 (word 1) }
  have hword (c : Nat) : (word c).length = 8 := toLE_length ..
  have hloaded : r.finalized.Loaded s.mem := fun a ha _ => by
    rw [front_eq hready.segments, h₀] at ha
    change 0x7f0000401004 ≤ a at ha
    show ((code.write 0x1000 (word 0)).write 0x2000 (word 1)) a = _
    rw [Mem.write_of_ge _ (by rw [hword]; omega), Mem.write_of_ge _ (by rw [hword]; omega)]
    exact if_pos ha
  have hcells : ∀ c ∈ [b.indirectShadowInput, b.indirectTargetPtr],
      Machine.Holds s.mem (r.finalized.cells c).inner (word c) := by
    rw [hb']
    refine List.forall_mem_cons.mpr ⟨?_, List.forall_mem_singleton.mpr ?_⟩
    · rw [hinput]
      refine ⟨?_, show 0x1000 + (word 0).length ≤ 2 ^ 64 by rw [hword]; decide⟩
      exact (Mem.read_write_of_disjoint _
        (.inl (show 0x1000 + (word 0).length ≤ 0x2000 by rw [hword]; decide))).trans
          (Mem.read_write_self ..)
    · rw [htarget]
      exact ⟨Mem.read_write_self .., show 0x2000 + (word 1).length ≤ 2 ^ 64 by rw [hword]; decide⟩
  have hhalt : ∀ s' : Machine.State, s'.mem = s.mem → s'.rip = 0 → Machine.step s' = none := by
    intro s' hmem hrip
    unfold Machine.step
    rw [hmem, hrip]
    rfl
  have hcalled : b.Called 1 r s :=
    ⟨rfl, hloaded, fun hdirect => absurd (hdirect.symm.trans hmode) (by decide), fun _ => hcells⟩
  have hjumps := (jmpRevForward_compact hready).jumps (i := 3) (t := 6) (by decide) (by decide)
    (by decide) (by decide) (hready.kind 3 _ rfl)
  have hrun := (jmpRevForward_layout.path hready hjumps).runs (hready.code s.mem hloaded)
    (fun _ => hcells _ (by simp)) (hentry.trans h₀.symm) rfl
  obtain ⟨bs, s', ⟨-, ins, rfl⟩, e, hone, -⟩ :=
    (h b cells r hb hr hap (jmpRevForward_short hready hmode)).oneShadowed hcalled rfl hhalt hrun
  rw [h₁, h₃, hb'] at hone
  simp [Aliases, BpuUtils.lbrEntryBits] at hone

end BS.ShadowCode.BranchShadow
