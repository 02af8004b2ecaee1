import BranchShadowing.Proof.Shadow.Construct

/-!
# Executing the three shadows

In the jmp shadows control goes over the branch at the source to one block of the layout, in
the jne shadow to one of two: a write to EAX, a jump and a return (`block`).
-/

namespace BS.ShadowCode.BranchShadow

open Shadow
open Machine (Executed Holds Runs)

variable {b : BranchShadow} {layout : List Added} {mapped base : Ptr} {m : Mem Byte} {cells : Cells}
variable {f : Finalized} {i j k last t r : Nat} {back : Ptr} {stack : List Ptr}
variable {σ : Machine.State} {Q : List Executed → Machine.State → Prop} {v : BitVec 32}

/-! ## Words in memory -/

theorem load_word {p : Ptr} {w : BitVec 64} (h : Holds σ.mem p (toLE 8 w.toNat)) :
    BitVec.ofNat 64 (σ.load p 8) = w := by
  have hread : σ.mem.read p.toNat 8 = toLE 8 w.toNat := h.read
  rw [Machine.State.load, hread, ofLE_toLE_of_lt (show w.toNat < 256 ^ 8 from w.isLt),
    BitVec.ofNat_toNat, BitVec.setWidth_eq]

theorem load_input {p : Ptr} {input : BitVec 32}
    (h : Holds σ.mem p (toLE 8 (input.signExtend 64).toNat)) :
    BitVec.ofNat 32 (σ.load p 4) = input := by
  have hread : σ.mem.read p.toNat 4 = toLE 4 (input.signExtend 64).toNat := (h.take 4).read
  rw [Machine.State.load, hread, ofLE_toLE_setWidth (by decide)]
  ext k hk
  rw [BitVec.getElem_setWidth, BitVec.getLsbD_signExtend, if_pos hk]
  simp [hk, show k < 64 by omega]

/-! ## Blocks -/

/-- Where a block is left. -/
def Returned (back : Ptr) (stack : List Ptr) (v : BitVec 32) (s : Machine.State) : Prop :=
  s.eax = v ∧ s.stack = back :: stack ∧
    Machine.step s = some ([⟨s.rip, .ret, true, back⟩], { s with rip := back, stack := stack })

/-- The write to EAX at segment `i`, the jump behind it to segment `r`, and the return there. -/
structure Block (f : Finalized) (last i r : Nat) (v : BitVec 32) : Prop where
  lt : i < last
  le : r ≤ last
  eaxWrite : (f.shadow.heap i).kind = .eaxWrite v
  jumps : Jumps f (i + 1) r
  retq : (f.shadow.heap r).kind = .retq 120

theorem Block.runs (hb : Block f last i r v) (hC : Code f last σ.mem)
    (hrip : σ.rip = f.shadow.getPos i) (hstack : σ.stack = back :: stack)
    (hQ : ∀ s, s.rip = f.shadow.getPos r + 120 → Returned back stack v s →
      Q [⟨f.shadow.getPos (i + 1), .jmp (f.shadow.getPos r), true, f.shadow.getPos r⟩] s) :
    Runs σ Q := by
  refine hC.eaxWrite hb.lt hrip hb.eaxWrite ?_
  refine Code.jump hC hb.lt rfl hb.jumps ?_
  refine Code.retq hC hb.le rfl hb.retq hstack fun hstep => ?_
  exact hQ _ rfl ⟨rfl, hstack, hstep⟩

/-! ## The jmp shadows -/

/-- The way through a jmp shadow: from the entry, segment `i`, over the branch behind it to
the block at segment `t`. -/
structure JmpPath (b : BranchShadow) (f : Finalized) (last i t r : Nat) (v : BitVec 32) : Prop where
  lt : i < last
  entry : (f.shadow.heap i).kind = b.jmpEntry t
  src : (f.shadow.heap (i + 1)).kind = b.jmpSrc t
  cell : b.useIndirectTargets → (f.cells b.indirectTargetPtr).value = f.shadow.getPos t
  block : Block f last t r v

theorem JmpPath.runs (hp : JmpPath b f last i t r v) (hC : Code f last σ.mem)
    (hcell : b.useIndirectTargets → Holds σ.mem (f.cells b.indirectTargetPtr).inner
      (toLE 8 (f.cells b.indirectTargetPtr).value.toNat))
    (hrip : σ.rip = f.shadow.getPos i) (hstack : σ.stack = back :: stack) :
    Runs σ fun bs s => Returned back stack v s ∧ s.rip = f.shadow.getPos r + 120 ∧
      ∃ ins, bs = [⟨f.shadow.getPos (i + 1), ins, true, f.shadow.getPos t⟩,
        ⟨f.shadow.getPos (t + 1), .jmp (f.shadow.getPos r), true, f.shadow.getPos r⟩] := by
  have hentry := hp.entry
  have hsrc := hp.src
  unfold jmpEntry at hentry
  unfold jmpSrc at hsrc
  cases hmode : b.useIndirectTargets with
  | false =>
    rw [hmode, if_neg Bool.false_ne_true] at hentry hsrc
    refine hC.nop hp.lt hrip hentry ?_
    refine Code.jump hC hp.lt rfl (.inl hsrc) ?_
    exact hp.block.runs hC rfl hstack fun s hs hret => ⟨hret, hs, _, rfl⟩
  | true =>
    rw [hmode, if_pos rfl] at hentry hsrc
    have hload := load_word (hcell hmode)
    rw [hp.cell hmode] at hload
    refine hC.setPosInReg hp.lt hrip (.inl rfl) hentry ?_
    refine Code.jumpR13 hC hp.lt rfl hsrc hload ?_
    exact hp.block.runs hC rfl hstack fun s hs hret => ⟨hret, hs, _, rfl⟩

/-! ## The jne shadow -/

/-- The way through the jne shadow: from the entry to the jne, segment `i`, and from there to
the block at segment `t` or to what is behind the jne. -/
structure JnePath (b : BranchShadow) (f : Finalized) (last i t r : Nat) : Prop where
  three : 3 ≤ i
  lt : i < last
  entry : (f.shadow.heap 0).kind = b.jneEntry
  pretest : (f.shadow.heap 1).kind = b.jnePretest
  jumps : Jumps f 2 i
  src : (f.shadow.heap i).kind = .jneEaxZero t
  short : Signed 8 (f.shadow.getPos t - f.shadow.getEnd i)
  block : Block f last t r 2

variable {input : BitVec 32}

/-- From the entry control comes to the jne, with the lowest bit of the input in EAX. -/
theorem JnePath.runs_src (hp : JnePath b f last i t r) (hC : Code f last σ.mem)
    (hdirect : b.useIndirectTargets = false → σ.eax = input)
    (hcell : b.useIndirectTargets → Holds σ.mem (f.cells b.indirectShadowInput).inner
      (toLE 8 (input.signExtend 64).toNat))
    (hrip : σ.rip = f.shadow.getPos 0)
    (hr : ∀ s : Machine.State, s.mem = σ.mem → s.stack = σ.stack → s.eax = input &&& 1 →
      s.rip = f.shadow.getPos i → Runs s fun bs =>
        Q (⟨f.shadow.getPos 2, .jmp (f.shadow.getPos i), true, f.shadow.getPos i⟩ :: bs)) :
    Runs σ Q := by
  have hthree := hp.three
  have hlt := hp.lt
  have hentry := hp.entry
  have hpretest := hp.pretest
  unfold jneEntry at hentry
  unfold jnePretest at hpretest
  cases hmode : b.useIndirectTargets with
  | false =>
    rw [hmode, if_neg Bool.false_ne_true] at hentry hpretest
    refine hC.nop (by omega) hrip hentry ?_
    refine Code.eaxAndOne hC (by omega) rfl hpretest ?_
    refine Code.jump hC (by omega) rfl hp.jumps ?_
    refine hr _ rfl rfl ?_ rfl
    show σ.eax &&& 1 = _
    rw [hdirect hmode]
  | true =>
    rw [hmode, if_pos rfl] at hentry hpretest
    refine hC.setPosInReg (by omega) hrip (.inr rfl) hentry ?_
    refine Code.eaxAndOneIndir hC (by omega) rfl hpretest (load_input (hcell hmode)) ?_
    refine Code.jump hC (by omega) rfl hp.jumps ?_
    exact hr _ rfl rfl rfl rfl

theorem JnePath.runs_odd (hp : JnePath b f last i t r) (hC : Code f last σ.mem)
    (hdirect : b.useIndirectTargets = false → σ.eax = input)
    (hcell : b.useIndirectTargets → Holds σ.mem (f.cells b.indirectShadowInput).inner
      (toLE 8 (input.signExtend 64).toNat))
    (hrip : σ.rip = f.shadow.getPos 0) (hstack : σ.stack = back :: stack)
    (hodd : input &&& 1 ≠ 0) :
    Runs σ fun bs s => Returned back stack 2 s ∧ s.rip = f.shadow.getPos r + 120 ∧
      bs = [⟨f.shadow.getPos 2, .jmp (f.shadow.getPos i), true, f.shadow.getPos i⟩,
        ⟨f.shadow.getPos i + 2, .jne (f.shadow.getPos t), true, f.shadow.getPos t⟩,
        ⟨f.shadow.getPos (t + 1), .jmp (f.shadow.getPos r), true, f.shadow.getPos r⟩] := by
  refine hp.runs_src hC hdirect hcell hrip fun s hmem hs heax hrip => ?_
  rw [← hmem] at hC
  refine hC.jne_taken hp.lt.le hrip hp.src hp.short (heax ▸ hodd) ?_
  exact hp.block.runs hC rfl (hs.trans hstack) fun s hs hret => ⟨hret, hs, rfl⟩

/-- What is behind the jne comes to the block at segment `t'`. -/
structure Even (f : Finalized) (last i t' r' : Nat) (bs : List Executed) : Prop where
  block : Block f last t' r' 1
  comes : t' = i + 1 ∧ bs = [] ∨ Jumps f (i + 1) t' ∧
    bs = [⟨f.shadow.getPos (i + 1), .jmp (f.shadow.getPos t'), true, f.shadow.getPos t'⟩]

theorem JnePath.runs_even (hp : JnePath b f last i t r) {t' r' : Nat} {es : List Executed}
    (he : Even f last i t' r' es) (hC : Code f last σ.mem)
    (hdirect : b.useIndirectTargets = false → σ.eax = input)
    (hcell : b.useIndirectTargets → Holds σ.mem (f.cells b.indirectShadowInput).inner
      (toLE 8 (input.signExtend 64).toNat))
    (hrip : σ.rip = f.shadow.getPos 0) (hstack : σ.stack = back :: stack)
    (heven : input &&& 1 = 0) :
    Runs σ fun bs s => Returned back stack 1 s ∧ s.rip = f.shadow.getPos r' + 120 ∧
      bs = ⟨f.shadow.getPos 2, .jmp (f.shadow.getPos i), true, f.shadow.getPos i⟩ ::
        ⟨f.shadow.getPos i + 2, .jne (f.shadow.getPos t), false, f.shadow.getEnd i⟩ ::
        (es ++ [⟨f.shadow.getPos (t' + 1), .jmp (f.shadow.getPos r'), true, f.shadow.getPos r'⟩]) := by
  refine hp.runs_src hC hdirect hcell hrip fun s hmem hs heax hrip => ?_
  rw [← hmem] at hC
  refine hC.jne_falls hp.lt hrip hp.src hp.short (heax.trans heven) ?_
  rcases he.comes with ⟨rfl, rfl⟩ | ⟨hj, rfl⟩
  · exact he.block.runs hC rfl (hs.trans hstack) fun s hs hret => ⟨hret, hs, rfl⟩
  · refine Code.jump hC hp.lt rfl hj ?_
    exact he.block.runs hC rfl (hs.trans hstack) fun s hs hret => ⟨hret, hs, rfl⟩

/-! ## Distances -/

/-- The segments do not overlap, and from segment `i` on they follow each other closely. -/
structure Compact (f : Finalized) (i last : Nat) : Prop where
  few : last ≤ 10
  apart : ∀ k < last, (f.shadow.getPos k).toNat + (f.shadow.heap k).getSize.toNat ≤
    (f.shadow.getPos (k + 1)).toNat
  near : ∀ k, i ≤ k → k < last →
    (f.shadow.getPos (k + 1)).toNat ≤ (f.shadow.getPos k).toNat + 20000

namespace Compact

variable (h : Compact f k last)
include h

theorem past_le (hij : i < j) (hj : j ≤ last) :
    (f.shadow.getPos i).toNat + (f.shadow.heap i).getSize.toNat ≤ (f.shadow.getPos j).toNat := by
  induction j, hij using Nat.le_induction with
  | base => exact h.apart i (by omega)
  | succ j hij ih =>
    have := ih (by omega)
    have := h.apart j (by omega)
    omega

theorem le_add (hki : k ≤ i) (hij : i ≤ j) (hj : j ≤ last) :
    (f.shadow.getPos j).toNat ≤ (f.shadow.getPos i).toNat + 20000 * (j - i) := by
  induction j, hij using Nat.le_induction with
  | base => omega
  | succ j hij ih =>
    have := ih (by omega)
    have := h.near j (by omega) (by omega)
    omega

/-- The segments lie in less than a window. -/
theorem spread (hki : k ≤ i) (hi : i ≤ last) (hj : j ≤ last) :
    (f.shadow.getPos j).toNat ≤ (f.shadow.getPos i).toNat + 200000 := by
  have hfew := h.few
  rcases Nat.le_total i j with hij | hji
  · have := h.le_add hki hij hj
    omega
  · rcases Nat.eq_or_lt_of_le hji with rfl | hlt
    · omega
    · have := h.past_le hlt hi
      omega

end Compact

theorem not_aliases_of_lt {p q : Ptr} (h : p.toNat < q.toNat) (h' : q.toNat < p.toNat + 2 ^ 32) :
    ¬ Aliases BpuUtils.lbrEntryBits p q := by
  unfold Aliases
  rw [show BpuUtils.lbrEntryBits = 32 from rfl]
  omega

/-- The address lies in segment `i`. -/
structure Within (f : Finalized) (i : Nat) (p : Ptr) : Prop where
  le : (f.shadow.getPos i).toNat ≤ p.toNat
  lt : p.toNat < (f.shadow.getPos i).toNat + (f.shadow.heap i).getSize.toNat

/-- No address in one segment is an alias of one in another. -/
theorem Compact.not_aliases (h : Compact f k last) {p q : Ptr} (hp : Within f i p)
    (hq : Within f j q) (hki : k ≤ i) (hi : i ≤ last) (hkj : k ≤ j) (hj : j ≤ last) (hne : i ≠ j)
    (hsize : ∀ l ≤ last, (f.shadow.heap l).getSize.toNat ≤ 200) :
    ¬ Aliases BpuUtils.lbrEntryBits p q := by
  have hp₁ := hp.le
  have hp₂ := hp.lt
  have hq₁ := hq.le
  have hq₂ := hq.lt
  have hsi := hsize i hi
  have hsj := hsize j hj
  rcases Nat.lt_or_gt_of_ne hne with hlt | hgt
  · have h₁ := h.past_le hlt hj
    have h₂ := h.spread hki hi hj
    exact not_aliases_of_lt (by omega) (by omega)
  · have h₁ := h.past_le hgt hi
    have h₂ := h.spread hkj hj hi
    exact fun ha => not_aliases_of_lt (by omega) (by omega) ha.symm

theorem signed_of_close {p q : Ptr} (h₁ : p.toNat ≤ q.toNat + 2 ^ 30)
    (h₂ : q.toNat ≤ p.toNat + 2 ^ 30) : Signed 32 (p - q) := by
  have hp := p.isLt
  have hq := q.isLt
  unfold Signed
  rw [BitVec.toInt_eq_toNat_cond, BitVec.toNat_sub]
  split <;> omega

/-- A long jump reaches every segment near its own. -/
theorem Compact.jumps (h : Compact f k last) (hki : k ≤ i) (hi : i < last) (hkt : k ≤ t)
    (ht : t ≤ last) (hkind : (f.shadow.heap i).kind = .longJump t) : Jumps f i t := by
  refine .inr ⟨hkind, ?_⟩
  have h₁ := h.spread hki hi.le ht
  have h₂ := h.spread hkt ht hi.le
  have hap := h.apart i hi
  have hpos := (f.shadow.getPos (i + 1)).isLt
  have hsize : (f.shadow.heap i).getSize = 5 := by rw [ShadowSegment.getSize, hkind]; rfl
  rw [hsize, show (5 : BitVec 64).toNat = 5 from rfl] at hap
  have hend : (f.shadow.getEnd i).toNat = (f.shadow.getPos i).toNat + 5 := by
    rw [Shadow.getEnd, ShadowSegment.getEnd, hsize]
    exact Machine.toNat_add_ofNat (n := 5) (show (f.shadow.getPos i).toNat + 5 < 2 ^ 64 by omega)
  exact signed_of_close (by omega) (by omega)

/-- The segments of a layout are compact from segment `k` on if of two that follow each other
there one is made without a position, or they are near for another reason. -/
theorem Made.compact (hm : Made layout f last) (hfew : last ≤ 10)
    (hapart : ∀ i < last, (f.shadow.getPos i).toNat + (f.shadow.heap i).getSize.toNat ≤
      (f.shadow.getPos (i + 1)).toNat)
    (hsize : ∀ a ∈ layout, a.kind.size.toNat ≤ 200)
    (hloose : ∀ i, k ≤ i → i < last → (layout.map Added.pos)[i]? = some nullptr ∨
      (layout.map Added.pos)[i + 1]? = some nullptr ∨
        (f.shadow.getPos (i + 1)).toNat ≤ (f.shadow.getPos i).toNat + 20000) :
    Compact f k last := by
  refine ⟨by omega, hapart, fun i hki hi => ?_⟩
  have hlen := hm.length
  have hget : ∀ j ≤ last, ∃ a, layout[j]? = some a ∧ a ∈ layout := fun j hj =>
    ⟨_, List.getElem?_eq_getElem (by omega), List.getElem_mem (by omega)⟩
  obtain ⟨a, ha, hmem⟩ := hget i hi.le
  obtain ⟨a', ha', -⟩ := hget (i + 1) hi
  have hsize := hsize a hmem
  have hbound : gapBound (last + 1) ≤ 10000 := by
    unfold gapBound
    omega
  have hclose := hm.close i a a' ha ha'
  have hnull := hloose i hki hi
  rw [List.getElem?_map, List.getElem?_map, ha, ha', Option.map_some, Option.map_some,
    Option.some_inj, Option.some_inj] at hnull
  rcases hnull with h | h | h
  · have := hclose (.inl h)
    omega
  · have := hclose (.inr h)
    omega
  · exact h

/-! ## Addresses of branches -/

theorem within_getPos (hpos : 0 < (f.shadow.heap i).kind.size.toNat) :
    Within f i (f.shadow.getPos i) :=
  ⟨Nat.le_refl _, Nat.lt_add_of_pos_right hpos⟩

theorem within_jumps (hj : Jumps f i t) : Within f i (f.shadow.getPos i) := by
  refine within_getPos ?_
  rcases hj with hkind | ⟨hkind, -⟩ <;>
    · rw [hkind]
      exact Nat.zero_lt_succ _

theorem within_retq (hC : Code f last m) (hi : i ≤ last)
    (hkind : (f.shadow.heap i).kind = .retq 120) : Within f i (f.shadow.getPos i + 120) := by
  obtain ⟨cells, hcontent⟩ := hC.content
  have hhex := (hcontent i hi).1
  have hsize : (f.shadow.heap i).getSize.toNat = 121 := by rw [ShadowSegment.getSize, hkind]; rfl
  rw [ShadowSegment.makeHex, hkind] at hhex
  have hlen : (SegRetq.finalize 120).map List.length = .ok 121 := rfl
  rw [show SegRetq.finalize 120 = _ from hhex] at hlen
  have hfits := (hC.holds i hi).fits
  rw [List.length_take, Except.ok.inj hlen, hsize] at hfits
  have hpos : (f.shadow.getPos i + 120).toNat = (f.shadow.getPos i).toNat + 120 :=
    Machine.toNat_add_ofNat (n := 120) (show (f.shadow.getPos i).toNat + 120 < 2 ^ 64 by omega)
  constructor
  · omega
  · omega

/-- Of the segments made from a layout only one has addresses that are aliases of one in it. -/
theorem Compact.not_aliases_src (h : Compact f k last) (hsize : ∀ l ≤ last,
      (f.shadow.heap l).getSize.toNat ≤ 200) {p q src : Ptr} (hq : Within f i q)
    (hsrc : Aliases BpuUtils.lbrEntryBits q src) (hki : k ≤ i) (hi : i ≤ last)
    (hp : Within f j p) (hkj : k ≤ j) (hj : j ≤ last) (hne : j ≠ i) :
    ¬ Aliases BpuUtils.lbrEntryBits p src := fun ha =>
  h.not_aliases hp hq hkj hj hki hi hne hsize (ha.trans hsrc.symm)

/-! ## One branch at an alias -/

variable {src dst : Ptr} {e : Executed} {bs bs' : List Executed}

theorem oneShadowed (hbs : ∀ x ∈ bs, ¬ Aliases BpuUtils.lbrEntryBits x.pos src)
    (he : Aliases BpuUtils.lbrEntryBits e.pos src)
    (hbs' : ∀ x ∈ bs', ¬ Aliases BpuUtils.lbrEntryBits x.pos src)
    (hgoes : e.taken → Aliases BpuUtils.lbrEntryBits e.goes dst) :
    OneShadowed src dst (bs ++ e :: bs') := by
  have hnil : ∀ l : List Executed, (∀ x ∈ l, ¬ Aliases BpuUtils.lbrEntryBits x.pos src) →
      l.filter (fun x => Aliases BpuUtils.lbrEntryBits x.pos src) = [] := fun l hl =>
    List.filter_eq_nil_iff.mpr fun x hx => by simpa using hl x hx
  refine ⟨e, ?_, hgoes⟩
  rw [List.filter_append, hnil bs hbs, List.filter_cons_of_pos (by simpa using he), hnil bs' hbs']
  rfl

variable {r : Setup} {ret : Nat}

theorem JmpPath.executes (hp : JmpPath b r.finalized last i t ret v)
    (hcode : ∀ mem, r.finalized.Loaded mem → Code r.finalized last mem)
    (hentry : r.entry = r.finalized.shadow.getPos i)
    (hsrc : Aliases BpuUtils.lbrEntryBits (r.finalized.shadow.getPos (i + 1)) b.src)
    (hdst : Aliases BpuUtils.lbrEntryBits (r.finalized.shadow.getPos t) b.dst)
    (hjump : ¬ Aliases BpuUtils.lbrEntryBits (r.finalized.shadow.getPos (t + 1)) b.src)
    (hret : ¬ Aliases BpuUtils.lbrEntryBits (r.finalized.shadow.getPos ret + 120) b.src) :
    b.Executes input r v := by
  intro s back stack hcalled hstack
  have hC := hcode s.mem hcalled.code
  refine (hp.runs hC (fun hmode => hcalled.indirect hmode _ (by simp)) (hcalled.rip.trans hentry)
    hstack).mono ?_
  rintro bs s' ⟨⟨heax, hstack', hstep⟩, hrip, ins, rfl⟩
  refine ⟨heax, hstack', hstep, ?_⟩
  show OneShadowed _ _ ([] ++ _ :: [_, _])
  refine oneShadowed (List.forall_mem_nil _) hsrc ?_ fun _ => hdst
  refine List.forall_mem_cons.mpr ⟨hjump, List.forall_mem_singleton.mpr ?_⟩
  rw [hrip]
  exact hret

theorem odd_iff : input &&& 1 ≠ 0 ↔ input.toNat % 2 = 1 := by
  have h : (input &&& 1).toNat = input.toNat % 2 := by
    rw [BitVec.toNat_and]
    exact Nat.and_one_is_mod _
  rw [ne_eq, ← BitVec.toNat_inj, h]
  show ¬ input.toNat % 2 = 0 ↔ _
  omega

theorem JnePath.executes (hp : JnePath b r.finalized last i t ret) {t' ret' : Nat}
    (he : Even r.finalized last i t' ret' bs)
    (hcode : ∀ mem, r.finalized.Loaded mem → Code r.finalized last mem)
    (hentry : r.entry = r.finalized.shadow.getPos 0)
    (hinput : b.useIndirectTargets →
      (r.finalized.cells b.indirectShadowInput).value = input.signExtend 64)
    (hsrc : Aliases BpuUtils.lbrEntryBits (r.finalized.shadow.getPos i + 2) b.src)
    (hdst : Aliases BpuUtils.lbrEntryBits (r.finalized.shadow.getPos t) b.dst)
    (hfar : ∀ j ≤ last, j ≠ i → ∀ p, Within r.finalized j p →
      ¬ Aliases BpuUtils.lbrEntryBits p b.src)
    (hne : t + 1 ≠ i ∧ ret ≠ i ∧ t' + 1 ≠ i ∧ ret' ≠ i) :
    b.Executes input r (Builder.jne.retval input) := by
  obtain ⟨hne₁, hne₂, hne₃, hne₄⟩ := hne
  intro s back stack hcalled hstack
  have hC := hcode s.mem hcalled.code
  have hcell : b.useIndirectTargets → Holds s.mem (r.finalized.cells b.indirectShadowInput).inner
      (toLE 8 (input.signExtend 64).toNat) := fun hmode => by
    rw [← hinput hmode]
    exact hcalled.indirect hmode _ (by simp)
  have hrip := hcalled.rip.trans hentry
  have hthree := hp.three
  have hfirst : ∀ x ∈ [(⟨r.finalized.shadow.getPos 2, .jmp (r.finalized.shadow.getPos i), true,
      r.finalized.shadow.getPos i⟩ : Executed)], ¬ Aliases BpuUtils.lbrEntryBits x.pos b.src :=
    List.forall_mem_singleton.mpr
      (hfar 2 (by have := hp.lt; omega) (by omega) _ (within_jumps hp.jumps))
  have hblock : ∀ {t ret v}, Block r.finalized last t ret v → t + 1 ≠ i → ret ≠ i →
      ¬ Aliases BpuUtils.lbrEntryBits (r.finalized.shadow.getPos (t + 1)) b.src ∧
        ¬ Aliases BpuUtils.lbrEntryBits (r.finalized.shadow.getPos ret + 120) b.src :=
    fun hb h₁ h₂ => ⟨hfar _ hb.lt h₁ _ (within_jumps hb.jumps),
      hfar _ hb.le h₂ _ (within_retq hC hb.le hb.retq)⟩
  by_cases hodd : input &&& 1 = 0
  · rw [Builder.retval, if_neg fun h => odd_iff.mpr h hodd]
    refine (hp.runs_even he hC (hcalled.direct) hcell hrip hstack hodd).mono ?_
    rintro bs s' ⟨⟨heax, hstack', hstep⟩, hend, rfl⟩
    refine ⟨heax, hstack', hstep, ?_⟩
    obtain ⟨hjump, hret⟩ := hblock he.block hne₃ hne₄
    show OneShadowed _ _ ([_] ++ _ :: _)
    refine oneShadowed hfirst hsrc ?_ (fun h => absurd h Bool.false_ne_true)
    refine List.forall_mem_append.mpr ⟨List.forall_mem_append.mpr ⟨?_, ?_⟩, ?_⟩
    · rcases he.comes with ⟨-, rfl⟩ | ⟨hj, rfl⟩
      · exact List.forall_mem_nil _
      · exact List.forall_mem_singleton.mpr
          (hfar (i + 1) hp.lt (Nat.succ_ne_self i) _ (within_jumps hj))
    · exact List.forall_mem_singleton.mpr hjump
    · rw [List.forall_mem_singleton, hend]
      exact hret
  · rw [Builder.retval, if_pos (odd_iff.mp hodd)]
    refine (hp.runs_odd hC hcalled.direct hcell hrip hstack hodd).mono ?_
    rintro bs s' ⟨⟨heax, hstack', hstep⟩, hend, rfl⟩
    refine ⟨heax, hstack', hstep, ?_⟩
    obtain ⟨hjump, hret⟩ := hblock hp.block hne₁ hne₂
    show OneShadowed _ _ ([_] ++ _ :: [_, _])
    refine oneShadowed hfirst hsrc ?_ fun _ => hdst
    refine List.forall_mem_cons.mpr ⟨hjump, List.forall_mem_singleton.mpr ?_⟩
    rw [hend]
    exact hret

end BS.ShadowCode.BranchShadow
