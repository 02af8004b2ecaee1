import BranchShadowing.Proof.Shadow.Setup
import BranchShadowing.Spec.Attack

/-!
# The branch at the source of a shadow

A call of a shadow executes its branch at `m_shadow_src`, and no other branch there: the other
branches lie in other segments (`setup_oneAt`).
-/

namespace BS.ShadowCode.BranchShadow

open Shadow
open Machine (Executed Holds Runs)
open Attack (OneAt Low)

variable {b : BranchShadow} {layout : List Added} {mapped : Ptr} {m : Mem Byte} {cells : Cells}
variable {f : Finalized} {i j last t ret t' ret' : Nat} {back p q : Ptr} {stack : List Ptr}
variable {σ : Machine.State} {v input : BitVec 32}

/-- Addresses in different segments differ. -/
theorem Ready.within_ne (hr : Ready layout mapped m cells f last) (hlast : last ≤ 10)
    (hp : Within f i p) (hq : Within f j q) (hi : i ≤ last) (hj : j ≤ last) (hne : i ≠ j) :
    p ≠ q := by
  have hc : Compact f last last := ⟨hlast, hr.apart, fun k hk hk' => absurd hk' (by omega)⟩
  have hp₁ := hp.le
  have hp₂ := hp.lt
  have hq₁ := hq.le
  have hq₂ := hq.lt
  rintro rfl
  rcases Nat.lt_or_gt_of_ne hne with hlt | hgt
  · have := hc.past_le hlt hj
    omega
  · have := hc.past_le hgt hi
    omega

/-- The address lies in one of the segments but not in segment `i`. -/
def Elsewhere (f : Finalized) (last i : Nat) (p : Ptr) : Prop := ∃ j ≤ last, j ≠ i ∧ Within f j p

theorem Ready.elsewhere (hr : Ready layout mapped m cells f last) (hlast : last ≤ 10)
    (hlow : ∀ i ≤ last, (f.shadow.getPos i).toNat + (f.shadow.heap i).getSize.toNat ≤ 2 ^ 47)
    (hi : i ≤ last) (hq : Within f i q) (hp : Elsewhere f last i p) :
    p ≠ q ∧ p.toNat < 2 ^ 47 := by
  obtain ⟨j, hj, hne, hwithin⟩ := hp
  have hlt := hwithin.lt
  have hle := hlow j hj
  exact ⟨hr.within_ne hlast hwithin hq hj hi hne, by omega⟩

theorem Block.elsewhere (hb : Block f last t ret v) (hC : Code f last m) (hne : t + 1 ≠ i)
    (hne' : ret ≠ i) :
    Elsewhere f last i (f.shadow.getPos (t + 1)) ∧
      Elsewhere f last i (f.shadow.getPos ret + 120) :=
  ⟨⟨t + 1, hb.lt, hne, within_jumps hb.jumps⟩, ret, hb.le, hne', within_retq hC hb.le hb.retq⟩

/-- The branch at `q` and what is executed around it. -/
theorem oneAt (es₁ : List Executed) (e : Executed) (es₂ : List Executed)
    (hlow : e.pos.toNat < 2 ^ 47) (hlen : es₂.length ≤ 3)
    (h : ∀ x ∈ es₁ ++ es₂, x.pos ≠ e.pos ∧ x.pos.toNat < 2 ^ 47) :
    OneAt e.pos e.taken (es₁ ++ e :: es₂) := by
  refine ⟨fun x hx => ?_, es₁, e, es₂, rfl, rfl, rfl, hlen, fun x hx => (h x hx).1⟩
  rcases List.mem_append.mp hx with hx | hx
  · exact (h x (List.mem_append_left _ hx)).2
  · rcases List.mem_cons.mp hx with rfl | hx
    · exact hlow
    · exact (h x (List.mem_append_right _ hx)).2

section

variable (hr : Ready layout mapped m cells f last)
  (hlow : ∀ i ≤ last, (f.shadow.getPos i).toNat + (f.shadow.heap i).getSize.toNat ≤ 2 ^ 47)
include hr hlow

/-! ## The jmp shadows -/

theorem JmpPath.oneAt (hp : JmpPath b f last i t ret v) (hlast : last ≤ 10)
    (hsrc : Within f (i + 1) (f.shadow.getPos (i + 1))) (hne : t + 1 ≠ i + 1 ∧ ret ≠ i + 1)
    (hcode : f.Loaded σ.mem)
    (hcell : b.useIndirectTargets → Holds σ.mem (f.cells b.indirectTargetPtr).inner
      (toLE 8 (f.cells b.indirectTargetPtr).value.toNat))
    (hrip : σ.rip = f.shadow.getPos i) (hstack : σ.stack = back :: stack) :
    Runs σ fun bs s => Returned back stack v s ∧
      OneAt (f.shadow.getPos (i + 1)) true (bs ++ [⟨s.rip, .ret, true, back⟩]) := by
  have hC := hr.code σ.mem hcode
  refine (hp.runs hC hcell hrip hstack).mono ?_
  rintro bs s ⟨hret, hs, ins, rfl⟩
  obtain ⟨h₁, h₂⟩ := hp.block.elsewhere hC hne.1 hne.2
  have hout {p : Ptr} (h : Elsewhere f last (i + 1) p) :=
    hr.elsewhere hlast hlow hp.lt hsrc h
  have hsrc' : (f.shadow.getPos (i + 1)).toNat < 2 ^ 47 := by
    have := hsrc.lt
    have := hlow (i + 1) hp.lt
    omega
  refine ⟨hret, BranchShadow.oneAt [] ⟨f.shadow.getPos (i + 1), _, _, _⟩ [_, _] hsrc'
    (by simp) ?_⟩
  refine List.forall_mem_cons.mpr ⟨hout h₁, List.forall_mem_singleton.mpr ?_⟩
  rw [hs]
  exact hout h₂

/-! ## The jne shadow -/

theorem JnePath.oneAt (hp : JnePath b f last i t ret) {es : List Executed}
    (he : Even f last i t' ret' es) (hlast : last ≤ 10)
    (hsrc : Within f i (f.shadow.getPos i + 2))
    (hne : t + 1 ≠ i ∧ ret ≠ i ∧ t' + 1 ≠ i ∧ ret' ≠ i) (hcode : f.Loaded σ.mem)
    (hdirect : b.useIndirectTargets = false → σ.eax = input)
    (hcell : b.useIndirectTargets → Holds σ.mem (f.cells b.indirectShadowInput).inner
      (toLE 8 (input.signExtend 64).toNat))
    (hrip : σ.rip = f.shadow.getPos 0) (hstack : σ.stack = back :: stack) :
    Runs σ fun bs s => Returned back stack (Builder.jne.retval input) s ∧
      OneAt (f.shadow.getPos i + 2) (Attack.jumps input .jne)
        (bs ++ [⟨s.rip, .ret, true, back⟩]) := by
  obtain ⟨hne₁, hne₂, hne₃, hne₄⟩ := hne
  have hC := hr.code σ.mem hcode
  have hout {p : Ptr} (h : Elsewhere f last i p) := hr.elsewhere hlast hlow hp.lt.le hsrc h
  have hthree := hp.three
  have hlt := hp.lt
  have hsrc' : (f.shadow.getPos i + 2).toNat < 2 ^ 47 := by
    have := hsrc.lt
    have := hlow i hlt.le
    omega
  have hfirst : Elsewhere f last i (f.shadow.getPos 2) :=
    ⟨2, by omega, by omega, within_jumps hp.jumps⟩
  by_cases hodd : input &&& 1 = 0
  · have hjumps : Attack.jumps input .jne = false :=
      decide_eq_false fun h => odd_iff.mpr h hodd
    obtain ⟨h₁, h₂⟩ := he.block.elsewhere hC hne₃ hne₄
    rw [hjumps, Builder.retval, if_neg fun h => odd_iff.mpr h hodd]
    refine (hp.runs_even he hC hdirect hcell hrip hstack hodd).mono ?_
    rintro bs s ⟨hret, hs, rfl⟩
    have hes : es.length ≤ 1 ∧ ∀ x ∈ es, Elsewhere f last i x.pos := by
      rcases he.comes with ⟨-, rfl⟩ | ⟨hj, rfl⟩
      · exact ⟨by simp, List.forall_mem_nil _⟩
      · exact ⟨Nat.le_refl _, List.forall_mem_singleton.mpr
          ⟨i + 1, hlt, Nat.succ_ne_self i, within_jumps hj⟩⟩
    refine ⟨hret, ?_⟩
    rw [List.cons_append, List.cons_append, List.append_assoc]
    refine BranchShadow.oneAt [_] ⟨f.shadow.getPos i + 2, _, _, _⟩ _ hsrc' ?_ ?_
    · rw [List.length_append]
      exact Nat.add_le_add hes.1 (Nat.le_refl 2)
    · show ∀ x ∈ _ :: (es ++ [_, _]), _
      refine List.forall_mem_cons.mpr ⟨hout hfirst, List.forall_mem_append.mpr
        ⟨fun x hx => hout (hes.2 x hx), List.forall_mem_cons.mpr
          ⟨hout h₁, List.forall_mem_singleton.mpr ?_⟩⟩⟩
      rw [hs]
      exact hout h₂
  · have hjumps : Attack.jumps input .jne = true := decide_eq_true (odd_iff.mp hodd)
    obtain ⟨h₁, h₂⟩ := hp.block.elsewhere hC hne₁ hne₂
    rw [hjumps, Builder.retval, if_pos (odd_iff.mp hodd)]
    refine (hp.runs_odd hC hdirect hcell hrip hstack hodd).mono ?_
    rintro bs s ⟨hret, hs, rfl⟩
    refine ⟨hret, BranchShadow.oneAt [_] ⟨f.shadow.getPos i + 2, _, _, _⟩ [_, _] hsrc' (by simp) ?_⟩
    refine List.forall_mem_cons.mpr ⟨hout hfirst, List.forall_mem_cons.mpr
      ⟨hout h₁, List.forall_mem_singleton.mpr ?_⟩⟩
    rw [hs]
    exact hout h₂

end

/-! ## Layouts -/

/-- What is asked of a call that comes back to `back`. -/
def CallsOnce (r : Setup) (taken : Bool) (back : Ptr) (stack : List Ptr) (σ : Machine.State) :
    Prop :=
  Runs σ fun bs s =>
    Machine.step s = some ([⟨s.rip, .ret, true, back⟩], { s with rip := back, stack := stack }) ∧
      OneAt r.shadowSrc taken (bs ++ [⟨s.rip, .ret, true, back⟩])

theorem JmpLayout.oneAt (hl : JmpLayout b layout i t ret v)
    (hr : Ready layout mapped m cells f 7) (hjumps : Jumps f (t + 1) ret)
    (hlow : ∀ i ≤ 7, (f.shadow.getPos i).toNat + (f.shadow.heap i).getSize.toNat ≤ 2 ^ 47)
    (hp : getEntryPtr f.shadow = .ok p) (hcalled : b.Called input ⟨p, q, f⟩ σ)
    (hstack : σ.stack = back :: stack) :
    CallsOnce ⟨p, f.shadow.getPos (i + 1), f⟩ true back stack σ := by
  have hwithin : Within f (i + 1) (f.shadow.getPos (i + 1)) := by
    refine within_getPos ?_
    rw [hr.kind _ _ hl.src]
    show 0 < (b.jmpSrc t).size.toNat
    unfold jmpSrc
    split <;> exact Nat.zero_lt_succ _
  have hrun := (hl.path hr hjumps).oneAt hr hlow (by decide) hwithin hl.ne hcalled.code
    (fun hmode => hcalled.indirect hmode _ (by simp))
    (hcalled.rip.trans (hr.entry_eq hl.calls hp)) hstack
  exact hrun.mono fun bs s h => ⟨h.1.2.2, h.2⟩

theorem JneLayout.oneAt (hl : JneLayout b layout last i t ret t' ret')
    (hr : Ready layout mapped m cells f last)
    (hlow : ∀ i ≤ last, (f.shadow.getPos i).toNat + (f.shadow.heap i).getSize.toNat ≤ 2 ^ 47)
    (hp : getEntryPtr f.shadow = .ok p)
    (hinput : b.useIndirectTargets → (cells b.indirectShadowInput).value = input.signExtend 64)
    (hshort : Signed 8 (f.shadow.getPos t - f.shadow.getEnd i))
    (hcalled : b.Called input ⟨p, q, f⟩ σ) (hstack : σ.stack = back :: stack) :
    CallsOnce ⟨p, f.shadow.getPos i + 2, f⟩ (Attack.jumps input .jne) back stack σ := by
  obtain ⟨-, hi, -⟩ := hl.lt
  obtain ⟨bs, heven⟩ := hl.evenPath hr
  have hkind := hr.kind i _ hl.src
  have hsize : (f.shadow.heap i).getSize.toNat = 4 := by
    rw [ShadowSegment.getSize, hkind]
    rfl
  have hwithin : Within f i (f.shadow.getPos i + 2) := by
    have hlt := hlow i (by omega)
    have hjne : (f.shadow.getPos i + 2).toNat = (f.shadow.getPos i).toNat + 2 :=
      Machine.toNat_add_ofNat (n := 2) (by omega)
    exact ⟨by omega, by omega⟩
  refine ((hl.path hr hshort).oneAt hr hlow heven hl.few hwithin hl.ne hcalled.code hcalled.direct
    (fun hmode => ?_) (hcalled.rip.trans (hr.entry_eq hl.calls hp)) hstack).mono
      fun bs s h => ⟨h.1.2.2, h.2⟩
  rw [← hinput hmode, ← hr.cell_kept hl.fine]
  exact hcalled.indirect hmode _ (by simp)

/-! ## Setting up -/

variable {r : Setup}

theorem Ready.low (hr : Ready layout mapped m cells r.finalized last) (hlow : Low r) :
    ∀ i ≤ last, (r.finalized.shadow.getPos i).toNat +
      (r.finalized.shadow.heap i).getSize.toNat ≤ 2 ^ 47 := fun i hi =>
  hlow i (by rw [hr.segments, List.mem_range]; omega)

theorem setupJmpShadow_oneAt (hap : Disjoint r) (h : b.setupJmpShadow mapped m cells = .ok r)
    (hlow : Low r) (hcalled : b.Called input r σ) (hstack : σ.stack = back :: stack) :
    CallsOnce r true back stack σ := by
  obtain ⟨f, hf, h⟩ := bind_eq_ok.mp h
  obtain ⟨p, hp, h⟩ := bind_eq_ok.mp h
  obtain rfl := Except.ok.inj h
  obtain ⟨last, hr⟩ := ready hf hap
  by_cases hfwd : b.forward
  · simp only [if_pos hfwd] at hr hcalled ⊢
    obtain rfl : 7 = last := Nat.succ.inj hr.length
    have hc : Compact f 0 7 := hr.compact (by decide) jmpForward_layout.fine fun i _ hi => by
      interval_cases i <;> first | exact .inl rfl | exact .inr (.inl rfl)
    have hjumps := hc.jumps (i := 5) (t := 7) (by decide) (by decide) (by decide) (by decide)
      (hr.kind 5 _ rfl)
    exact jmpForward_layout.oneAt hr hjumps (hr.low hlow) hp hcalled hstack
  · simp only [if_neg hfwd] at hr hcalled ⊢
    obtain rfl : 7 = last := Nat.succ.inj hr.length
    have hc : Compact f 0 7 := hr.compact (by decide) jmpBackward_layout.fine fun i _ hi => by
      interval_cases i <;> first | exact .inl rfl | exact .inr (.inl rfl)
    have hjumps := hc.jumps (i := 3) (t := 7) (by decide) (by decide) (by decide) (by decide)
      (hr.kind 3 _ rfl)
    exact jmpBackward_layout.oneAt hr hjumps (hr.low hlow) hp hcalled hstack

theorem setupJmpShadowRev_oneAt (hap : Disjoint r)
    (h : b.setupJmpShadowRev mapped m cells = .ok r) (hlow : Low r)
    (hcalled : b.Called input r σ) (hstack : σ.stack = back :: stack) :
    CallsOnce r true back stack σ := by
  obtain ⟨f, hf, h⟩ := bind_eq_ok.mp h
  obtain ⟨p, hp, h⟩ := bind_eq_ok.mp h
  obtain rfl := Except.ok.inj h
  obtain ⟨last, hr⟩ := ready hf hap
  by_cases hfwd : b.forward
  · simp only [if_pos hfwd] at hr hcalled ⊢
    obtain rfl : 7 = last := Nat.succ.inj hr.length
    have hjumps := (jmpRevForward_compact hr).jumps (i := 3) (t := 6) (by decide) (by decide)
      (by decide) (by decide) (hr.kind 3 _ rfl)
    exact jmpRevForward_layout.oneAt hr hjumps (hr.low hlow) hp hcalled hstack
  · simp only [if_neg hfwd] at hr hcalled ⊢
    obtain rfl : 7 = last := Nat.succ.inj hr.length
    have hc : Compact f 0 7 := hr.compact (by decide) jmpRevBackward_layout.fine fun i _ hi => by
      interval_cases i <;> first | exact .inl rfl | exact .inr (.inl rfl)
    have hjumps := hc.jumps (i := 1) (t := 6) (by decide) (by decide) (by decide) (by decide)
      (hr.kind 1 _ rfl)
    exact jmpRevBackward_layout.oneAt hr hjumps (hr.low hlow) hp hcalled hstack

theorem setupJneShadow_oneAt (hap : Disjoint r) (h : b.setupJneShadow mapped m cells = .ok r)
    (hshort : ShortDisplacements r)
    (hinput : (cells b.indirectShadowInput).value = input.signExtend 64) (hlow : Low r)
    (hcalled : b.Called input r σ) (hstack : σ.stack = back :: stack) :
    CallsOnce r (Attack.jumps input .jne) back stack σ := by
  obtain ⟨f, hf, h⟩ := bind_eq_ok.mp h
  obtain ⟨q, hq, h⟩ := bind_eq_ok.mp h
  obtain ⟨p, hp, h⟩ := bind_eq_ok.mp h
  obtain rfl := Except.ok.inj h
  obtain ⟨_, -, hq⟩ := bind_eq_ok.mp hq
  obtain rfl := Except.ok.inj hq
  obtain ⟨last, hr⟩ := ready hf hap
  unfold ShortDisplacements at hshort
  rw [hr.segments] at hshort
  by_cases hfwd : b.forward
  · simp only [if_pos hfwd] at hr hcalled ⊢
    obtain rfl : 9 = last := Nat.succ.inj hr.length
    exact jneForward_layout.oneAt hr (hr.low hlow) hp (fun _ => hinput)
      (hshort 3 (by decide) 6 (.inl (hr.kind 3 _ rfl))) hcalled hstack
  · simp only [if_neg hfwd] at hr hcalled ⊢
    obtain rfl : 10 = last := Nat.succ.inj hr.length
    exact jneBackward_layout.oneAt hr (hr.low hlow) hp (fun _ => hinput)
      (hshort 7 (by decide) 5 (.inl (hr.kind 7 _ rfl))) hcalled hstack

/-- Whichever shadow is set up, a call executes its branch at the source once. -/
theorem setup_oneAt {src dst inputInner targetInner : Ptr} {mode : Bool} {builder : Builder}
    (h : prepareAttack src dst input mode inputInner targetInner = .ok (b, cells))
    (hr : b.setup builder mapped m cells = .ok r) (hap : Disjoint r)
    (hshort : ShortDisplacements r) (hlow : Low r) (hcalled : b.Called input r σ)
    (hstack : σ.stack = back :: stack) :
    CallsOnce r (Attack.jumps input builder) back stack σ := by
  cases builder with
  | jne => exact setupJneShadow_oneAt hap hr hshort (prepareAttack_ok h).2.2 hlow hcalled hstack
  | jmp => exact setupJmpShadow_oneAt hap hr hlow hcalled hstack
  | jmpRev => exact setupJmpShadowRev_oneAt hap hr hlow hcalled hstack

end BS.ShadowCode.BranchShadow
