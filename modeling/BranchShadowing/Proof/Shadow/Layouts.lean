import Mathlib.Tactic.IntervalCases
import BranchShadowing.Proof.Shadow.BranchShadow

/-!
# The six layouts

The four layouts of the jmp shadows are instances of one pattern (`JmpLayout`), and the two of
the jne shadow of another (`JneLayout`). A shadow made from either executes what its builder
intends.
-/

namespace BS.ShadowCode.BranchShadow

open Shadow
open Machine (Executed)

variable {b : BranchShadow} {layout : List Added} {mapped base : Ptr} {m : Mem Byte} {cells : Cells}
variable {s : Shadow} {f : Finalized} {i j k last t ret c : Nat} {a : Added} {v : BitVec 32}

/-! ## Segments -/

/-- The segment is small, and if it sets a cell then to `target`. -/
structure Fine (target : Option Nat) (a : Added) : Prop where
  size : a.kind.size.toNat ≤ 200
  target : ∀ t c reg, a.kind = .setPosInReg (some t) c reg → target = some t

section Fine

variable {target : Option Nat} {call : Call} {kind : SegKind} {p : Ptr}

theorem Fine.of_kind (hsize : kind.size.toNat ≤ 200)
    (h : ∀ t c reg, kind ≠ .setPosInReg (some t) c reg) : Fine target ⟨call, kind, p⟩ :=
  ⟨hsize, fun t c reg hk => absurd hk (h t c reg)⟩

@[simp]
theorem fine_eaxWrite : Fine target ⟨call, .eaxWrite v, p⟩ :=
  .of_kind (Nat.le_of_ble_eq_true rfl) (by simp)

@[simp]
theorem fine_jneEaxZero : Fine target ⟨call, .jneEaxZero t, p⟩ :=
  .of_kind (Nat.le_of_ble_eq_true rfl) (by simp)

@[simp]
theorem fine_jump : Fine target ⟨call, .jump t, p⟩ :=
  .of_kind (Nat.le_of_ble_eq_true rfl) (by simp)

@[simp]
theorem fine_longJump : Fine target ⟨call, .longJump t, p⟩ :=
  .of_kind (Nat.le_of_ble_eq_true rfl) (by simp)

@[simp]
theorem fine_retq : Fine target ⟨call, .retq 120#64, p⟩ := .of_kind (by decide) (by simp)

@[simp]
theorem fine_jmpEntry : Fine (some t) ⟨call, b.jmpEntry t, p⟩ := by
  unfold jmpEntry
  split
  · refine ⟨Nat.le_of_ble_eq_true rfl, fun t' c reg h => ?_⟩
    injection h
  · exact .of_kind (by decide) (by simp)

@[simp]
theorem fine_jmpSrc : Fine target ⟨call, b.jmpSrc t, p⟩ := by
  unfold jmpSrc
  split <;> exact .of_kind (Nat.le_of_ble_eq_true rfl) (by simp)

@[simp]
theorem fine_jneEntry : Fine none ⟨call, b.jneEntry, p⟩ := by
  unfold jneEntry
  split <;> exact .of_kind (Nat.le_of_ble_eq_true rfl) (by simp)

@[simp]
theorem fine_jnePretest : Fine target ⟨call, b.jnePretest, p⟩ := by
  unfold jnePretest
  split <;> exact .of_kind (Nat.le_of_ble_eq_true rfl) (by simp)

end Fine

theorem Made.cellTarget {target : Option Nat} (hm : Made layout f last)
    (hfine : ∀ a ∈ layout, Fine target a) (hj : j ≤ last) (ht : t ∈ cellTarget f.shadow.heap c j) :
    target = some t := by
  have hlen := hm.length
  have hget := List.getElem?_eq_getElem (show j < layout.length by omega)
  unfold Shadow.cellTarget at ht
  rw [hm.kind j _ hget] at ht
  split at ht
  · rename_i target' c' reg hkind
    split at ht
    · rw [Option.mem_def.mp ht] at hkind
      exact (hfine _ (List.getElem_mem _)).target t c' reg hkind
    · cases ht
  · cases ht

theorem Made.pos_aliases (hm : Made layout f last) (ha : layout[i]? = some a)
    (hpos : a.pos ≠ nullptr) (hjne : ∀ t, a.kind ≠ .jneEaxZero t) :
    Aliases BpuUtils.lbrEntryBits (f.shadow.getPos i) a.pos := by
  have hmark := hm.aliases i a ha hpos (.inr hjne)
  unfold ShadowSegment.mark at hmark
  rw [hm.kind i a ha] at hmark
  split at hmark
  · exact absurd (by assumption) (hjne _)
  · exact hmark

/-- A segment is made without a position, as a jump to segment `t`. -/
def Goes (layout : List Added) (i t : Nat) : Prop :=
  layout[i]? = some ⟨.addSegment, .jump t, nullptr⟩ ∨
    layout[i]? = some ⟨.addSegment, .longJump t, nullptr⟩

theorem Goes.jumps (hg : Goes layout i t) (hm : Made layout f last) (hc : Compact f k last)
    (hki : k ≤ i) (hi : i < last) (hkt : k ≤ t) (ht : t ≤ last) : Jumps f i t := by
  rcases hg with hg | hg
  · exact .inl (hm.kind i _ hg)
  · exact hc.jumps hki hi hkt ht (hm.kind i _ hg)

theorem Made.entry_eq (hm : Made layout f last)
    (hcalls : layout.map Added.call =
      List.replicate i .addSegment ++ .addEntry :: List.replicate j .addSegment)
    {p : Ptr} (hp : getEntryPtr f.shadow = .ok p) : p = f.shadow.getPos i := by
  unfold getEntryPtr at hp
  split at hp
  · cases hp
  · rename_i e he
    have hcall := hm.entry e he
    rw [hcalls] at hcall
    have : e = i := by grind
    rw [← Except.ok.inj hp, this]

/-- What a layout leaves, once it is finalized and its segments do not overlap. -/
structure Ready (layout : List Added) (mapped : Ptr) (m : Mem Byte) (cells : Cells) (f : Finalized)
    (last : Nat) : Prop extends Made layout f last where
  finished : ∃ s base, Finished s last mapped base m cells f
  code : ∀ mem, f.Loaded mem → Code f last mem
  apart : ∀ i < last, (f.shadow.getPos i).toNat + (f.shadow.heap i).getSize.toNat ≤
    (f.shadow.getPos (i + 1)).toNat

theorem ready (h : construct layout mapped m cells = .ok f)
    (hd : ∀ i ∈ f.shadow.segments, ∀ j ∈ f.shadow.segments, i ≠ j → ¬ f.shadow.Overlap i j) :
    ∃ last, Ready layout mapped m cells f last := by
  obtain ⟨s, last, base, hf, hm, hclear⟩ := construct_made h
  have hc := hclear hd
  exact ⟨last, { hm with
    finished := ⟨s, base, hf⟩
    code := fun _ hmem => hf.code hc hmem
    apart := fun i hi => hf.end_le hi (hc i hi) }⟩

namespace Ready

variable (hr : Ready layout mapped m cells f last) {target : Option Nat}
include hr

theorem getSize_le (hfine : ∀ a ∈ layout, Fine target a) (hi : i ≤ last) :
    (f.shadow.heap i).getSize.toNat ≤ 200 := by
  have hlen := hr.length
  have hget := List.getElem?_eq_getElem (show i < layout.length by omega)
  rw [ShadowSegment.getSize, hr.kind i _ hget]
  exact (hfine _ (List.getElem_mem _)).size

theorem compact (hlast : last ≤ 10) (hfine : ∀ a ∈ layout, Fine target a)
    (hloose : ∀ i, k ≤ i → i < last → (layout.map Added.pos)[i]? = some nullptr ∨
      (layout.map Added.pos)[i + 1]? = some nullptr ∨
        (f.shadow.getPos (i + 1)).toNat ≤ (f.shadow.getPos i).toNat + 20000) :
    Compact f k last :=
  hr.toMade.compact hlast hr.apart (fun a ha => (hfine a ha).size) hloose

/-- The cell that the segments set is set to their target. -/
theorem cell_value (hfine : ∀ a ∈ layout, Fine (some t) a) (hi : i ≤ last) {reg : Byte}
    (hkind : (f.shadow.heap i).kind = .setPosInReg (some t) c reg) :
    (f.cells c).value = f.shadow.getPos t := by
  obtain ⟨s, base, hf⟩ := hr.finished
  refine hf.cell_value hi ?_ fun j hj t' ht' => ?_
  · unfold Shadow.cellTarget
    rw [hkind]
    exact if_pos rfl
  · exact (Option.some.inj (hr.cellTarget hfine hj ht')).symm

theorem cell_kept (hfine : ∀ a ∈ layout, Fine none a) (c : Nat) :
    (f.cells c).value = (cells c).value := by
  obtain ⟨s, base, hf⟩ := hr.finished
  refine hf.cell_kept fun j hj => Option.eq_none_iff_forall_not_mem.mpr fun t ht => ?_
  cases hr.cellTarget hfine hj ht

end Ready

/-! ## The jmp shadows -/

/-- The entry is segment `i`, the source is behind it, and the destination, at segment `t`,
writes `v` and goes to the return at segment `ret`. -/
structure JmpLayout (b : BranchShadow) (layout : List Added) (i t ret : Nat) (v : BitVec 32) :
    Prop where
  length : layout.length = 8
  calls : layout.map Added.call =
    List.replicate i .addSegment ++ .addEntry :: List.replicate (7 - i) .addSegment
  fine : ∀ a ∈ layout, Fine (some t) a
  entry : layout[i]? = some ⟨.addEntry, b.jmpEntry t, nullptr⟩
  src : layout[i + 1]? = some ⟨.addSegment, b.jmpSrc t, b.src⟩
  dst : layout[t]? = some ⟨.addSegment, .eaxWrite v, b.dst⟩
  goes : layout[t + 1]? = some ⟨.addSegment, .longJump ret, nullptr⟩
  retq : layout[ret]? = some ⟨.addSegment, .retq 120, nullptr⟩
  lt : t + 1 < ret
  ne : t + 1 ≠ i + 1 ∧ ret ≠ i + 1

theorem jmpForward_layout : JmpLayout b b.jmpForward 0 4 7 2 where
  length := rfl
  calls := rfl
  fine := by simp [jmpForward]
  entry := rfl
  src := rfl
  dst := rfl
  goes := rfl
  retq := rfl
  lt := by decide
  ne := by decide

theorem jmpBackward_layout : JmpLayout b b.jmpBackward 4 2 7 2 where
  length := rfl
  calls := rfl
  fine := by simp [jmpBackward]
  entry := rfl
  src := rfl
  dst := rfl
  goes := rfl
  retq := rfl
  lt := by decide
  ne := by decide

theorem jmpRevForward_layout : JmpLayout b b.jmpRevForward 0 2 6 1 where
  length := rfl
  calls := rfl
  fine := by simp [jmpRevForward]
  entry := rfl
  src := rfl
  dst := rfl
  goes := rfl
  retq := rfl
  lt := by decide
  ne := by decide

theorem jmpRevBackward_layout : JmpLayout b b.jmpRevBackward 4 0 6 1 where
  length := rfl
  calls := rfl
  fine := by simp [jmpRevBackward]
  entry := rfl
  src := rfl
  dst := rfl
  goes := rfl
  retq := rfl
  lt := by decide
  ne := by decide

theorem jmpSrc_ne_jne (t' : Nat) : b.jmpSrc t ≠ .jneEaxZero t' := by
  unfold jmpSrc
  split <;> simp

namespace JmpLayout

variable {p : Ptr} {input : BitVec 32} (hl : JmpLayout b layout i t ret v)
  (hr : Ready layout mapped m cells f 7)
include hl hr

omit hr in
theorem bounds : i < 7 ∧ t < 7 ∧ t + 1 < 7 ∧ ret ≤ 7 := by
  have hsrc := (List.getElem?_eq_some_iff.mp hl.src).1
  have hret := (List.getElem?_eq_some_iff.mp hl.retq).1
  have hlen := hl.length
  have hlt := hl.lt
  omega

theorem path (hjumps : Jumps f (t + 1) ret) : JmpPath b f 7 i t ret v := by
  obtain ⟨hi, ht, -, hret⟩ := hl.bounds
  have hentry := hr.kind i _ hl.entry
  refine ⟨hi, hentry, hr.kind _ _ hl.src, fun hmode => ?_,
    ⟨ht, hret, hr.kind t _ hl.dst, hjumps, hr.kind ret _ hl.retq⟩⟩
  rw [jmpEntry, if_pos hmode] at hentry
  exact hr.cell_value hl.fine hi.le hentry

theorem executes (hs : b.src ≠ nullptr) (hd : b.dst ≠ nullptr)
    (hp : getEntryPtr f.shadow = .ok p) (hjumps : Jumps f (t + 1) ret)
    (hjump : ¬ Aliases BpuUtils.lbrEntryBits (f.shadow.getPos (t + 1)) b.src)
    (hret : ¬ Aliases BpuUtils.lbrEntryBits (f.shadow.getPos ret + 120) b.src) :
    b.Executes input ⟨p, f.shadow.getPos (i + 1), f⟩ v :=
  (hl.path hr hjumps).executes hr.code (hr.entry_eq hl.calls hp)
    (hr.pos_aliases hl.src hs jmpSrc_ne_jne) (hr.pos_aliases hl.dst hd (by simp)) hjump hret

/-- If the segments are compact, the other branches are not at aliases of the source. -/
theorem executes_of_compact (hs : b.src ≠ nullptr) (hd : b.dst ≠ nullptr)
    (hp : getEntryPtr f.shadow = .ok p) (hc : Compact f 0 7) :
    b.Executes input ⟨p, f.shadow.getPos (i + 1), f⟩ v := by
  obtain ⟨hi, ht, hj, hret⟩ := hl.bounds
  have hjumps := hc.jumps (Nat.zero_le _) hj (Nat.zero_le _) hret (hr.kind _ _ hl.goes)
  have hwithin : Within f (i + 1) (f.shadow.getPos (i + 1)) := by
    refine within_getPos ?_
    rw [hr.kind _ _ hl.src]
    show 0 < (b.jmpSrc t).size.toNat
    unfold jmpSrc
    split <;> exact Nat.zero_lt_succ _
  have hfar := fun {j p} => hc.not_aliases_src (fun l hl' => hr.getSize_le hl.fine hl') hwithin
    (hr.pos_aliases hl.src hs jmpSrc_ne_jne) (Nat.zero_le _) hi (j := j) (p := p)
  refine hl.executes hr hs hd hp hjumps ?_ ?_
  · exact hfar (within_jumps hjumps) (Nat.zero_le _) hj.le hl.ne.1
  · have hwithin := within_retq (hr.code f.mem fun _ _ _ => rfl) hret (hr.kind ret _ hl.retq)
    exact hfar hwithin (Nat.zero_le _) hret hl.ne.2

end JmpLayout

section

variable {p : Ptr} {input : BitVec 32} (hs : b.src ≠ nullptr) (hd : b.dst ≠ nullptr)
  (hp : getEntryPtr f.shadow = .ok p)
include hs hd hp

theorem jmpForward_executes (hr : Ready b.jmpForward mapped m cells f 7) :
    b.Executes input ⟨p, f.shadow.getPos 1, f⟩ 2 := by
  have hc : Compact f 0 7 := hr.compact (by decide) jmpForward_layout.fine fun i _ hi => by
    interval_cases i <;> first | exact .inl rfl | exact .inr (.inl rfl)
  exact jmpForward_layout.executes_of_compact hr hs hd hp hc

theorem jmpBackward_executes (hr : Ready b.jmpBackward mapped m cells f 7) :
    b.Executes input ⟨p, f.shadow.getPos 5, f⟩ 2 := by
  have hc : Compact f 0 7 := hr.compact (by decide) jmpBackward_layout.fine fun i _ hi => by
    interval_cases i <;> first | exact .inl rfl | exact .inr (.inl rfl)
  exact jmpBackward_layout.executes_of_compact hr hs hd hp hc

theorem jmpRevBackward_executes (hr : Ready b.jmpRevBackward mapped m cells f 7) :
    b.Executes input ⟨p, f.shadow.getPos 5, f⟩ 1 := by
  have hc : Compact f 0 7 := hr.compact (by decide) jmpRevBackward_layout.fine fun i _ hi => by
    interval_cases i <;> first | exact .inl rfl | exact .inr (.inl rfl)
  exact jmpRevBackward_layout.executes_of_compact hr hs hd hp hc

end

/-- A short jump to the next segment is checked to be near it. -/
theorem Ready.near (hr : Ready layout mapped m cells f last) (hi : i < last)
    (hkind : (f.shadow.heap i).kind = .jump (i + 1))
    (hroom : (f.shadow.getPos (i + 1)).toNat + 126 ≤ 2 ^ 64) :
    (f.shadow.getPos (i + 1)).toNat ≤ (f.shadow.getPos i).toNat + 200 := by
  obtain ⟨cells, hcontent⟩ := (hr.code f.mem fun _ _ _ => rfl).content
  have hhex := (hcontent i hi.le).1
  have hap := hr.apart i hi
  have hsize : (f.shadow.heap i).getSize = 2 := by rw [ShadowSegment.getSize, hkind]; rfl
  rw [ShadowSegment.makeHex, hkind] at hhex
  obtain ⟨d, hd, hhex⟩ := bind_eq_ok.mp hhex
  obtain ⟨_, hens, -⟩ := bind_eq_ok.mp hhex
  obtain ⟨h₁, h₂⟩ := ensure_ok.mp hens
  obtain ⟨_, -, hd⟩ := bind_eq_ok.mp hd
  obtain ⟨_, -, hd⟩ := bind_eq_ok.mp hd
  rw [← Except.ok.inj hd] at h₁ h₂
  have hpos := (f.shadow.getPos (i + 1)).isLt
  rw [hsize] at hap
  change (f.shadow.getPos i).toNat + 2 ≤ (f.shadow.getPos (i + 1)).toNat at hap
  have hend : (f.shadow.getPos i + 2).toNat = (f.shadow.getPos i).toNat + 2 :=
    Machine.toNat_add_ofNat (n := 2) (by omega)
  have hsub : (f.shadow.getPos (i + 1) - (f.shadow.heap i).getEnd).toNat =
      (f.shadow.getPos (i + 1)).toNat - ((f.shadow.getPos i).toNat + 2) := by
    rw [ShadowSegment.getEnd, hsize]
    change (f.shadow.getPos (i + 1) - (f.shadow.getPos i + 2)).toNat = _
    rw [BitVec.toNat_sub_of_le (BitVec.le_def.mpr (by omega)), hend]
  change (-128 : Int) < (f.shadow.getPos (i + 1) - (f.shadow.heap i).getEnd).toInt at h₁
  change (f.shadow.getPos (i + 1) - (f.shadow.heap i).getEnd).toInt < 128 at h₂
  rw [BitVec.toInt_eq_toNat_cond, hsub] at h₁ h₂
  split at h₁ <;> omega

/-- In the reversed shadow that goes forward the branch at the source and the segment that it
goes to both have positions. -/
theorem jmpRevForward_compact (hr : Ready b.jmpRevForward mapped m cells f 7) : Compact f 2 7 :=
  hr.compact (by decide) jmpRevForward_layout.fine fun i h hi => by
    interval_cases i <;> first | exact .inl rfl | exact .inr (.inl rfl)

theorem aliases_add_right {p q : Ptr} (h : Aliases BpuUtils.lbrEntryBits p q) (c : Ptr) :
    Aliases BpuUtils.lbrEntryBits (p + c) (q + c) := by
  unfold Aliases at h ⊢
  rw [show BpuUtils.lbrEntryBits = 32 from rfl] at h ⊢
  rw [BitVec.toNat_add, BitVec.toNat_add]
  omega

/-- The segments behind it follow it at fixed distances. -/
theorem jmpRevForward_distances (hr : Ready b.jmpRevForward mapped m cells f 7) :
    f.shadow.getPos 3 = f.shadow.getPos 2 + 7 ∧ f.shadow.getPos 6 = f.shadow.getPos 2 + 28 := by
  have hsize : ∀ i, 2 ≤ i → i < 6 → (f.shadow.heap i).getSize = 5 := fun i h hi => by
    interval_cases i
    · exact congrArg SegKind.size (hr.kind 2 _ rfl)
    · exact congrArg SegKind.size (hr.kind 3 _ rfl)
    · exact congrArg SegKind.size (hr.kind 4 _ rfl)
    · exact congrArg SegKind.size (hr.kind 5 _ rfl)
  have hnext : ∀ i, 2 ≤ i → i < 6 → f.shadow.getPos (i + 1) = f.shadow.getPos i + 7 := fun i h hi => by
    rw [hr.trailing i (by omega) fun j a hj ha => ?_, Shadow.getEnd, ShadowSegment.getEnd,
      hsize i h hi, BitVec.add_assoc]
    · rfl
    · have hlt := (List.getElem?_eq_some_iff.mp ha).1
      change j < 8 at hlt
      interval_cases j <;> first | omega | (obtain rfl := Option.some.inj ha; rfl)
  refine ⟨hnext 2 (by decide) (by decide), ?_⟩
  rw [hnext 5 (by decide) (by decide), hnext 4 (by decide) (by decide),
    hnext 3 (by decide) (by decide), hnext 2 (by decide) (by decide)]
  bv_omega

/-- The jump behind the segment that it goes to, and the return, are at aliases of the source
only if the victim's addresses are that far apart. -/
theorem jmpRevForward_executes {p : Ptr} {input : BitVec 32} (hs : b.src ≠ nullptr)
    (hd : b.dst ≠ nullptr) (hp : getEntryPtr f.shadow = .ok p)
    (hr : Ready b.jmpRevForward mapped m cells f 7)
    (hsep : b.useIndirectTargets → ¬ Aliases BpuUtils.lbrEntryBits (b.dst + 7) b.src ∧
      ¬ Aliases BpuUtils.lbrEntryBits (b.dst + 148) b.src) :
    b.Executes input ⟨p, f.shadow.getPos 1, f⟩ 1 := by
  have hc := jmpRevForward_compact hr
  have hjumps := hc.jumps (i := 3) (by decide) (by decide) (t := 6) (by decide) (by decide)
    (hr.kind 3 _ rfl)
  cases hmode : b.useIndirectTargets with
  | false =>
    refine jmpRevForward_layout.executes_of_compact hr hs hd hp ?_
    refine hr.compact (by decide) jmpRevForward_layout.fine fun i _ hi => ?_
    rcases Nat.lt_or_ge i 2 with hlt | hge
    · interval_cases i
      · exact .inl rfl
      · refine .inr (.inr ((hr.near (by decide) ?_ ?_).trans (by omega)))
        · rw [hr.kind 1 _ rfl]
          show b.jmpSrc 2 = _
          rw [jmpSrc, hmode, if_neg Bool.false_ne_true]
        · have h₁ := hc.past_le (i := 2) (j := 6) (by decide) (by decide)
          have h₂ : _ ≤ (f.shadow.getPos 7).toNat := hc.apart 6 (by decide)
          have h₃ := (f.shadow.getPos 7).isLt
          have hsize₂ : (f.shadow.heap 2).getSize.toNat = 5 := by
            rw [ShadowSegment.getSize, hr.kind 2 _ rfl]
            rfl
          have hsize₆ : (f.shadow.heap 6).getSize.toNat = 121 := by
            rw [ShadowSegment.getSize, hr.kind 6 _ rfl]
            rfl
          show (f.shadow.getPos 2).toNat + 126 ≤ 2 ^ 64
          omega
    · interval_cases i <;> first | exact .inl rfl | exact .inr (.inl rfl)
  | true =>
    obtain ⟨h₁, h₂⟩ := hsep hmode
    obtain ⟨h₃, h₆⟩ := jmpRevForward_distances hr
    have hdst := hr.pos_aliases (i := 2) rfl hd (by simp)
    refine jmpRevForward_layout.executes hr hs hd hp hjumps ?_ ?_
    · rw [h₃]
      exact fun ha => h₁ ((aliases_add_right hdst 7).symm.trans ha)
    · rw [h₆, BitVec.add_assoc]
      exact fun ha => h₂ ((aliases_add_right hdst 148).symm.trans ha)

/-! ## The jne shadow -/

/-- Segment `i` is the jne at the source. If it jumps it goes to segment `t`, and control
returns at segment `ret`; else to segment `t'`, and it returns at segment `ret'`. -/
structure JneLayout (b : BranchShadow) (layout : List Added) (last i t ret t' ret' : Nat) :
    Prop where
  length : layout.length = last + 1
  few : last ≤ 10
  calls : layout.map Added.call =
    List.replicate 0 .addSegment ++ .addEntry :: List.replicate last .addSegment
  fine : ∀ a ∈ layout, Fine none a
  loose : ∀ j < last, (layout.map Added.pos)[j]? = some nullptr ∨
    (layout.map Added.pos)[j + 1]? = some nullptr
  entry : layout[0]? = some ⟨.addEntry, b.jneEntry, nullptr⟩
  pretest : layout[1]? = some ⟨.addSegment, b.jnePretest, nullptr⟩
  start : Goes layout 2 i
  src : layout[i]? = some ⟨.addSegment, .jneEaxZero t, b.src⟩
  dst : layout[t]? = some ⟨.addSegment, .eaxWrite 2, b.dst⟩
  goes : Goes layout (t + 1) ret
  retq : layout[ret]? = some ⟨.addSegment, .retq 120, nullptr⟩
  even : t' = i + 1 ∨ Goes layout (i + 1) t'
  dst' : layout[t']? = some ⟨.addSegment, .eaxWrite 1, nullptr⟩
  goes' : Goes layout (t' + 1) ret'
  retq' : layout[ret']? = some ⟨.addSegment, .retq 120, nullptr⟩
  lt : 3 ≤ i ∧ i + 1 < last ∧ t + 1 < last ∧ t' + 1 < last
  ne : t + 1 ≠ i ∧ ret ≠ i ∧ t' + 1 ≠ i ∧ ret' ≠ i

theorem jneForward_layout : JneLayout b b.jneForward 9 3 6 9 4 8 where
  length := rfl
  few := by decide
  calls := rfl
  fine := by simp [jneForward]
  loose := fun j hj => by interval_cases j <;> first | exact .inl rfl | exact .inr rfl
  entry := rfl
  pretest := rfl
  start := .inr rfl
  src := rfl
  dst := rfl
  goes := .inl rfl
  retq := rfl
  even := .inl rfl
  dst' := rfl
  goes' := .inl rfl
  retq' := rfl
  lt := by decide
  ne := by decide

theorem jneBackward_layout : JneLayout b b.jneBackward 10 7 5 10 3 9 where
  length := rfl
  few := by decide
  calls := rfl
  fine := by simp [jneBackward]
  loose := fun j hj => by interval_cases j <;> first | exact .inl rfl | exact .inr rfl
  entry := rfl
  pretest := rfl
  start := .inr rfl
  src := rfl
  dst := rfl
  goes := .inr rfl
  retq := rfl
  even := .inr (.inl rfl)
  dst' := rfl
  goes' := .inr rfl
  retq' := rfl
  lt := by decide
  ne := by decide

namespace JneLayout

variable {last t' ret' : Nat} {p src : Ptr} {input : BitVec 32}
  (hl : JneLayout b layout last i t ret t' ret') (hr : Ready layout mapped m cells f last)
include hl hr

theorem compact : Compact f 0 last :=
  hr.compact hl.few hl.fine fun j _ hj => (hl.loose j hj).imp_right .inl

theorem path (hshort : Signed 8 (f.shadow.getPos t - f.shadow.getEnd i)) :
    JnePath b f last i t ret := by
  obtain ⟨hthree, hi, ht, -⟩ := hl.lt
  have hlen := hl.length
  have hret := (List.getElem?_eq_some_iff.mp hl.retq).1
  have hc := hl.compact hr
  have hjumps := fun {i t} (h : Goes layout i t) hi ht =>
    h.jumps hr.toMade hc (Nat.zero_le _) hi (Nat.zero_le _) ht
  exact ⟨hthree, by omega, hr.kind 0 _ hl.entry, hr.kind 1 _ hl.pretest,
    hjumps hl.start (by omega) (by omega), hr.kind i _ hl.src, hshort,
    by omega, by omega, hr.kind t _ hl.dst, hjumps hl.goes ht (by omega), hr.kind ret _ hl.retq⟩

theorem evenPath : ∃ bs, Even f last i t' ret' bs := by
  obtain ⟨hthree, hi, -, ht⟩ := hl.lt
  have hlen := hl.length
  have hret := (List.getElem?_eq_some_iff.mp hl.retq').1
  have hc := hl.compact hr
  have hjumps := fun {i t} (h : Goes layout i t) hi ht =>
    h.jumps hr.toMade hc (Nat.zero_le _) hi (Nat.zero_le _) ht
  have hblock : Block f last t' ret' 1 := ⟨by omega, by omega, hr.kind t' _ hl.dst',
    hjumps hl.goes' ht (by omega), hr.kind ret' _ hl.retq'⟩
  rcases hl.even with heq | hgoes
  · exact ⟨_, hblock, .inl ⟨heq, rfl⟩⟩
  · exact ⟨_, hblock, .inr ⟨hjumps hgoes hi (by omega), rfl⟩⟩

theorem executes (hs : b.src ≠ nullptr) (hsrc : b.src ≠ SegJneEaxZero.jneOffset)
    (hd : b.dst ≠ nullptr) (hp : getEntryPtr f.shadow = .ok p)
    (hinput : b.useIndirectTargets → (cells b.indirectShadowInput).value = input.signExtend 64)
    (hshort : Signed 8 (f.shadow.getPos t - f.shadow.getEnd i)) :
    b.Executes input ⟨p, src, f⟩ (Builder.jne.retval input) := by
  obtain ⟨-, hi, -⟩ := hl.lt
  obtain ⟨bs, heven⟩ := hl.evenPath hr
  have hkind := hr.kind i _ hl.src
  have hmark := hr.aliases i _ hl.src hs (.inl hsrc)
  rw [ShadowSegment.mark, hkind] at hmark
  have hsize : (f.shadow.heap i).getSize.toNat = 4 := by
    rw [ShadowSegment.getSize, hkind]
    rfl
  have hwithin : Within f i (f.shadow.getPos i + 2) := by
    have hap := hr.apart i (by omega)
    have hpos := (f.shadow.getPos (i + 1)).isLt
    have hjne : (f.shadow.getPos i + 2).toNat = (f.shadow.getPos i).toNat + 2 :=
      Machine.toNat_add_ofNat (n := 2) (by omega)
    exact ⟨by omega, by omega⟩
  refine (hl.path hr hshort).executes heven hr.code (hr.entry_eq hl.calls hp)
    (fun hmode => ?_) hmark (hr.pos_aliases hl.dst hd (by simp)) ?_ hl.ne
  · rw [← hinput hmode]
    exact hr.cell_kept hl.fine _
  · exact fun j hj hne q hq => (hl.compact hr).not_aliases_src
      (fun l hl' => hr.getSize_le hl.fine hl') hwithin hmark (Nat.zero_le _) (by omega) hq
      (Nat.zero_le _) hj hne

end JneLayout

end BS.ShadowCode.BranchShadow
