import BranchShadowing.Proof.Shadow.Encoding

/-!
# Running segments

In memory that a shadow was loaded into (`Code`), control runs through a segment and over
the NOPs behind it to the next: one rule for each kind of segment, with the branch that it
executes, if any.
-/

namespace BS.ShadowCode

open Machine (Executed Holds Runs)

namespace Shadow

variable {heap : Heap} {base mapped : Ptr} {cells : Cells} {m mem : Mem Byte}
variable {s : Shadow} {f : Finalized} {i k last t : Nat}

/-- The segments up to `last` are in memory, each ends before the next, and NOPs are
between them. -/
structure Code (f : Finalized) (last : Nat) (mem : Mem Byte) : Prop where
  content : ∃ cells, ∀ i ≤ last,
    (f.shadow.heap i).makeHex f.shadow.heap cells = .ok (f.shadow.heap i).hex ∧
      ∀ c, (f.cells c).inner = (cells c).inner
  holds : ∀ i ≤ last, Holds mem (f.shadow.getPos i)
    ((f.shadow.heap i).hex.take (f.shadow.heap i).getSize.toNat)
  apart : ∀ i < last, (f.shadow.getPos i).toNat + (f.shadow.heap i).getSize.toNat ≤
    (f.shadow.getPos (i + 1)).toNat
  nops : ∀ i < last, ∀ a, (f.shadow.getPos i).toNat + (f.shadow.heap i).getSize.toNat ≤ a →
    a < (f.shadow.getPos (i + 1)).toNat → mem a = 0x90

theorem Finished.code (hf : Finished s last mapped base m cells f)
    (hc : ∀ i, i + 1 ≤ last → Clear s.heap i (i + 1)) (hmem : f.Loaded mem) : Code f last mem := by
  have hint := hf.intact hc
  have hend := hf.toNat_getEnd
  rw [← hf.add_reach (Nat.le_refl last)] at hend
  have hlast : ∀ i ≤ last, (f.shadow.getPos i).toNat + (f.shadow.heap i).getSize.toNat ≤
      (f.shadow.getEnd last).toNat := by
    intro i hi
    rcases Nat.eq_or_lt_of_le hi with rfl | hlt
    · exact hend.ge
    · have := hf.apart_of_clear hc hlt (Nat.le_refl last)
      omega
  have hfirst : ∀ i ≤ last, (f.shadow.getPos 0).toNat ≤ (f.shadow.getPos i).toNat := fun i hi =>
    BitVec.le_def.mp (hf.sorted (Nat.zero_le i) hi)
  unfold Finalized.Loaded at hmem
  rw [front_eq hf.segments, back_eq hf.segments] at hmem
  refine ⟨⟨cells, fun i hi => ⟨hf.makeHex hi, ?_⟩⟩, fun i hi => ⟨?_, ?_⟩, fun i hi => ?_,
    fun i hi a ha₁ ha₂ => ?_⟩
  · obtain ⟨heap₀, -, hfin⟩ := hf.contents
    exact finalizeSegments_inner hfin
  · have hread := hint.content i (by rw [hf.segments, List.mem_range]; omega)
    have hle := hf.getSize_le hi
    rw [List.length_take, Nat.min_eq_left hle, ← hread]
    refine Mem.read_congr fun x hx => hmem _ ?_ ?_
    · have := hfirst i hi
      omega
    · have := hlast i hi
      omega
  · rw [List.length_take, Nat.min_eq_left (hf.getSize_le hi)]
    exact hf.room hi
  · exact hf.end_le hi (hc i hi)
  · have h₁ := hfirst i hi.le
    have h₂ := hlast (i + 1) hi
    have hnop := hint.nops a
    rw [front_eq hf.segments, back_eq hf.segments] at hnop
    rw [hmem a (by omega) (by omega)]
    refine hnop (by omega) (by omega) fun j hj hcov => ?_
    rw [hf.segments, List.mem_range] at hj
    unfold Covers at hcov
    rcases Nat.lt_or_ge i j with hij | hij
    · have := BitVec.le_def.mp (hf.sorted (show i + 1 ≤ j from hij) (by omega))
      omega
    · rcases Nat.eq_or_lt_of_le hij with rfl | hlt
      · omega
      · have := hf.apart_of_clear hc hlt hi.le
        omega

/-- The segment is a jump to segment `t`, and near enough. -/
def Jumps (f : Finalized) (i t : Nat) : Prop :=
  (f.shadow.heap i).kind = .jump t ∨ (f.shadow.heap i).kind = .longJump t ∧
    Signed 32 (f.shadow.getPos t - f.shadow.getEnd i)

namespace Code

variable {σ : Machine.State} {Q : List Executed → Machine.State → Prop}

section

variable (h : Code f last σ.mem) (hi : i ≤ last) (hrip : σ.rip = f.shadow.getPos i)
include h hi

theorem bytes {l : List Byte} (hhex : (f.shadow.heap i).hex = l)
    (hsize : (f.shadow.heap i).getSize.toNat = l.length) : Holds σ.mem (f.shadow.getPos i) l := by
  have hh := h.holds i hi
  rwa [hhex, hsize, List.take_length] at hh

omit hi in
/-- From the end of a segment control comes to the next. -/
theorem fall (hi : i < last) (hrip : σ.rip = f.shadow.getEnd i)
    (hr : Runs { σ with rip := f.shadow.getPos (i + 1) } Q) : Runs σ Q := by
  have hap := h.apart i hi
  have hpos := (f.shadow.getPos (i + 1)).isLt
  have hend : σ.rip.toNat = (f.shadow.getPos i).toNat + (f.shadow.heap i).getSize.toNat := by
    rw [hrip, getEnd, ShadowSegment.getEnd, BitVec.toNat_add]
    refine Nat.mod_eq_of_lt ?_
    show (f.shadow.getPos i).toNat + (f.shadow.heap i).getSize.toNat < 2 ^ 64
    omega
  obtain ⟨n, hn⟩ := Nat.exists_eq_add_of_le hap
  have hnext : σ.rip + BitVec.ofNat 64 n = f.shadow.getPos (i + 1) := by
    apply BitVec.eq_of_toNat_eq
    rw [Machine.toNat_add_ofNat (by omega)]
    omega
  refine Runs.nops (n := n) (fun k hk => h.nops i hi _ (by omega) (by omega)) (by omega) ?_
  rwa [hnext]

omit hi in
/-- A segment of one instruction that is no branch. -/
theorem straight (hi : i < last) (hrip : σ.rip = f.shadow.getPos i) {l : List Byte}
    (ins : Machine.Instr) {σ' : Machine.State} (hl : Holds σ.mem (f.shadow.getPos i) l)
    (hd : Machine.decode (f.shadow.getPos i) l = some (ins, (f.shadow.heap i).getSize.toNat))
    (hb : ins.isBranch = false) (he : ins.exec (f.shadow.getEnd i) σ = some σ')
    (hmem : σ'.mem = σ.mem) (hend : σ'.rip = f.shadow.getEnd i)
    (hr : Runs { σ' with rip := f.shadow.getPos (i + 1) } Q) : Runs σ Q := by
  have hsize : f.shadow.getPos i + BitVec.ofNat 64 (f.shadow.heap i).getSize.toNat =
      f.shadow.getEnd i := by
    rw [BitVec.ofNat_toNat, BitVec.setWidth_eq]
    rfl
  rw [← hrip] at hl hd hsize
  refine Runs.instr hl hd hb (hsize.symm ▸ he) ?_
  exact fall (hmem ▸ h) hi hend hr

omit hi in
theorem nop (hi : i < last) (hrip : σ.rip = f.shadow.getPos i)
    (hkind : (f.shadow.heap i).kind = .nop 1)
    (hr : Runs { σ with rip := f.shadow.getPos (i + 1) } Q) : Runs σ Q := by
  obtain ⟨cells, hcontent⟩ := h.content
  have hhex := (hcontent i hi.le).1
  have hsize : (f.shadow.heap i).getSize = 1 := by
    rw [ShadowSegment.getSize, hkind]
    rfl
  have hl := h.holds i hi.le
  rw [ShadowSegment.makeHex, hkind] at hhex
  rw [← Except.ok.inj hhex, hsize] at hl
  refine h.straight hi hrip .nop hl ?_ rfl rfl rfl rfl hr
  rw [hsize]
  rfl

omit hi in
theorem eaxAndOne (hi : i < last) (hrip : σ.rip = f.shadow.getPos i)
    (hkind : (f.shadow.heap i).kind = .eaxAndOne)
    (hr : Runs { σ with rip := f.shadow.getPos (i + 1), eax := σ.eax &&& 1, zf := σ.eax &&& 1 = 0 } Q) :
    Runs σ Q := by
  obtain ⟨cells, hcontent⟩ := h.content
  have hhex := (hcontent i hi.le).1
  have hsize : (f.shadow.heap i).getSize = 3 := by rw [ShadowSegment.getSize, hkind]; rfl
  rw [ShadowSegment.makeHex, hkind] at hhex
  have hl := h.bytes hi.le (Except.ok.inj hhex).symm (by rw [hsize]; rfl)
  refine h.straight hi hrip (.andEax 1) hl ?_ rfl rfl rfl rfl hr
  rw [hsize]
  rfl

omit hi in
theorem eaxWrite (hi : i < last) (hrip : σ.rip = f.shadow.getPos i) {val : BitVec 32}
    (hkind : (f.shadow.heap i).kind = .eaxWrite val)
    (hr : Runs { σ with rip := f.shadow.getPos (i + 1), eax := val } Q) : Runs σ Q := by
  obtain ⟨cells, hcontent⟩ := h.content
  have hhex := (hcontent i hi.le).1
  have hsize : (f.shadow.heap i).getSize = 5 := by rw [ShadowSegment.getSize, hkind]; rfl
  rw [ShadowSegment.makeHex, hkind] at hhex
  have hl := h.bytes hi.le (Except.ok.inj hhex).symm (by rw [hsize]; rfl)
  refine h.straight hi hrip (.movEax val) hl ?_ rfl rfl rfl rfl hr
  rw [hsize]
  show some (Machine.Instr.movEax (BitVec.ofNat 32 (ofLE (toLE 4 val.toNat))), 5) = _
  have hval : BitVec.ofNat 32 (ofLE (toLE 4 val.toNat)) = val := by
    rw [ofLE_toLE_of_lt (show val.toNat < 256 ^ 4 from val.isLt), BitVec.ofNat_toNat, BitVec.setWidth_eq]
  rw [hval]
  rfl

omit hi in
/-- R13 or R14 gets the address of the word of the cell. -/
theorem setPosInReg (hi : i < last) (hrip : σ.rip = f.shadow.getPos i) {target : Option Nat}
    {c : Nat} {register : Byte} (hreg : register = 13 ∨ register = 14)
    (hkind : (f.shadow.heap i).kind = .setPosInReg target c register)
    (hr : Runs { σ with
      rip := f.shadow.getPos (i + 1)
      regs := Function.update σ.regs register.toNat (f.cells c).inner } Q) : Runs σ Q := by
  obtain ⟨cells, hcontent⟩ := h.content
  obtain ⟨hhex, hinner⟩ := hcontent i hi.le
  have hsize : (f.shadow.heap i).getSize = 10 := by rw [ShadowSegment.getSize, hkind]; rfl
  rw [ShadowSegment.makeHex, hkind] at hhex
  have hl := h.bytes hi.le (Except.ok.inj hhex).symm (by rw [hsize]; rfl)
  refine h.straight hi hrip (.movabs register.toNat (f.cells c).inner) hl ?_ rfl rfl rfl rfl hr
  rw [hsize, hinner]
  exact decode_setPosInReg hreg _ _

omit hi in
/-- EAX gets the lowest bit of what R14 points to. -/
theorem eaxAndOneIndir (hi : i < last) (hrip : σ.rip = f.shadow.getPos i)
    (hkind : (f.shadow.heap i).kind = .eaxAndOneIndir) {val : BitVec 32}
    (hval : BitVec.ofNat 32 (σ.load (σ.regs 14) 4) = val)
    (hr : Runs { σ with rip := f.shadow.getPos (i + 1), eax := val &&& 1, zf := val &&& 1 = 0 } Q) :
    Runs σ Q := by
  obtain ⟨cells, hcontent⟩ := h.content
  have hhex := (hcontent i hi.le).1
  have hsize : (f.shadow.heap i).getSize = 6 := by rw [ShadowSegment.getSize, hkind]; rfl
  rw [ShadowSegment.makeHex, hkind] at hhex
  have hl := h.bytes hi.le (Except.ok.inj hhex).symm (by rw [hsize]; rfl)
  have hl' := hl.drop (k := 3) (by decide)
  have hend : f.shadow.getPos i + BitVec.ofNat 64 3 + BitVec.ofNat 64 3 = f.shadow.getEnd i := by
    rw [getEnd, ShadowSegment.getEnd, hsize, BitVec.add_assoc]
    rfl
  rw [← hrip] at hl hl' hend
  refine Runs.instr (i := .loadEax 14) (n := 3) hl rfl rfl rfl ?_
  refine Runs.instr (i := .andEax 1) (n := 3) hl' rfl rfl rfl ?_
  refine fall h hi hend ?_
  rwa [hval]

/-- A jump goes to its target. -/
theorem jump (hrip : σ.rip = f.shadow.getPos i) (hjump : Jumps f i t)
    (hr : Runs { σ with rip := f.shadow.getPos t } fun bs =>
      Q (⟨f.shadow.getPos i, .jmp (f.shadow.getPos t), true, f.shadow.getPos t⟩ :: bs)) :
    Runs σ Q := by
  obtain ⟨cells, hcontent⟩ := h.content
  have hhex := (hcontent i hi).1
  unfold ShadowSegment.makeHex at hhex
  obtain ⟨hd, hsize⟩ : Machine.decode (f.shadow.getPos i) (f.shadow.heap i).hex =
      some (.jmp (f.shadow.getPos t), (f.shadow.heap i).hex.length) ∧
        (f.shadow.heap i).getSize.toNat = (f.shadow.heap i).hex.length := by
    rcases hjump with hkind | ⟨hkind, hsigned⟩
    · rw [hkind] at hhex
      have hd : Shadow.Decodes _ cells _ := jump_decodes hkind hhex
      rw [Shadow.Decodes, hkind] at hd
      obtain ⟨d, -, hlist⟩ := bind_eq_ok.mp hhex
      obtain ⟨_, -, hlist⟩ := bind_eq_ok.mp hlist
      refine ⟨hd, ?_⟩
      rw [ShadowSegment.getSize, hkind, ← Except.ok.inj hlist]
      rfl
    · rw [hkind] at hhex
      have hd : Shadow.Decodes _ cells _ := (longJump_decodes hkind hhex).mpr hsigned
      rw [Shadow.Decodes, hkind] at hd
      obtain ⟨d, -, hlist⟩ := bind_eq_ok.mp hhex
      refine ⟨hd, ?_⟩
      rw [ShadowSegment.getSize, hkind, ← Except.ok.inj hlist]
      rfl
  have hl := h.bytes hi rfl hsize
  rw [← hrip] at hd hl hr
  exact Runs.branch hl hd rfl rfl hr

/-- `jmp *(%r13)`. -/
theorem jumpR13 (hrip : σ.rip = f.shadow.getPos i) (hkind : (f.shadow.heap i).kind = .jumpR13)
    {p : Ptr} (hp : BitVec.ofNat 64 (σ.load (σ.regs 13) 8) = p)
    (hr : Runs { σ with rip := p } fun bs => Q (⟨f.shadow.getPos i, .jmpMem 13 0, true, p⟩ :: bs)) :
    Runs σ Q := by
  obtain ⟨cells, hcontent⟩ := h.content
  have hhex := (hcontent i hi).1
  have hsize : (f.shadow.heap i).getSize = 4 := by rw [ShadowSegment.getSize, hkind]; rfl
  rw [ShadowSegment.makeHex, hkind] at hhex
  have hl := h.bytes hi (Except.ok.inj hhex).symm (by rw [hsize]; rfl)
  have he : (Machine.Instr.jmpMem 13 0).exec (σ.rip + BitVec.ofNat 64 4) σ =
      some { σ with rip := p } := by
    show some { σ with rip := BitVec.ofNat 64 (σ.load (σ.regs 13 + 0) 8) } = _
    rw [show σ.regs 13 + 0 = σ.regs 13 from BitVec.add_zero _, hp]
  rw [← hrip] at hl hr
  exact Runs.branch (i := .jmpMem 13 0) (n := 4) hl rfl rfl he hr

/-- The test and the jne behind it. -/
theorem jneBytes (hrip : σ.rip = f.shadow.getPos i) (hkind : (f.shadow.heap i).kind = .jneEaxZero t)
    (hsigned : Signed 8 (f.shadow.getPos t - f.shadow.getEnd i)) :
    ∃ l l', (Holds σ.mem σ.rip l ∧ Machine.decode σ.rip l = some (.testEaxEax, 2)) ∧
      (Holds σ.mem (σ.rip + 2) l' ∧
        Machine.decode (σ.rip + 2) l' = some (.jne (f.shadow.getPos t), 2)) ∧
      σ.rip + 2 + BitVec.ofNat 64 2 = f.shadow.getEnd i := by
  obtain ⟨cells, hcontent⟩ := h.content
  have hhex := (hcontent i hi).1
  rw [ShadowSegment.makeHex, hkind] at hhex
  have hd : Shadow.Decodes _ cells _ := (jneEaxZero_decodes hkind hhex).mpr hsigned
  rw [Shadow.Decodes, hkind] at hd
  obtain ⟨d, -, hlist⟩ := bind_eq_ok.mp hhex
  have hsize : (f.shadow.heap i).getSize = 4 := by rw [ShadowSegment.getSize, hkind]; rfl
  have hlen : (f.shadow.heap i).hex.length = 4 := by rw [← Except.ok.inj hlist]; rfl
  have hl := h.bytes hi rfl (by rw [hsize, hlen]; rfl)
  have hl' := hl.drop (k := 2) (by omega)
  refine ⟨_, _, ⟨hrip ▸ hl, hrip ▸ hd.1⟩, ⟨hrip ▸ hl', hrip ▸ hd.2⟩, ?_⟩
  rw [hrip, getEnd, ShadowSegment.getEnd, hsize, BitVec.add_assoc]
  rfl

/-- The jne goes to its target if EAX is not 0. -/
theorem jne_taken (hrip : σ.rip = f.shadow.getPos i) (hkind : (f.shadow.heap i).kind = .jneEaxZero t)
    (hsigned : Signed 8 (f.shadow.getPos t - f.shadow.getEnd i)) (heax : σ.eax ≠ 0)
    (hr : Runs { σ with rip := f.shadow.getPos t, zf := false } fun bs =>
      Q (⟨f.shadow.getPos i + 2, .jne (f.shadow.getPos t), true, f.shadow.getPos t⟩ :: bs)) :
    Runs σ Q := by
  obtain ⟨l, l', ⟨hl, htest⟩, ⟨hl', hjne⟩, -⟩ := h.jneBytes hi hrip hkind hsigned
  have he : Machine.Instr.testEaxEax.exec (σ.rip + BitVec.ofNat 64 2) σ =
      some { σ with rip := σ.rip + 2, zf := false } := by
    simpa [Machine.Instr.exec] using heax
  rw [← hrip] at hr
  exact Runs.instr hl htest rfl he (Runs.branch hl' hjne rfl rfl hr)

omit hi in
/-- Otherwise control falls through it. -/
theorem jne_falls (hi : i < last) (hrip : σ.rip = f.shadow.getPos i)
    (hkind : (f.shadow.heap i).kind = .jneEaxZero t)
    (hsigned : Signed 8 (f.shadow.getPos t - f.shadow.getEnd i)) (heax : σ.eax = 0)
    (hr : Runs { σ with rip := f.shadow.getPos (i + 1), zf := true } fun bs =>
      Q (⟨f.shadow.getPos i + 2, .jne (f.shadow.getPos t), false, f.shadow.getEnd i⟩ :: bs)) :
    Runs σ Q := by
  obtain ⟨l, l', ⟨hl, htest⟩, ⟨hl', hjne⟩, hend⟩ := h.jneBytes hi.le hrip hkind hsigned
  have he : Machine.Instr.testEaxEax.exec (σ.rip + BitVec.ofNat 64 2) σ =
      some { σ with rip := σ.rip + 2, zf := true } := by
    simp [Machine.Instr.exec, heax]
  have he' : (Machine.Instr.jne (f.shadow.getPos t)).exec (σ.rip + 2 + BitVec.ofNat 64 2)
      { σ with rip := σ.rip + 2, zf := true } = some { σ with rip := f.shadow.getEnd i, zf := true } := by
    rw [← hend]
    rfl
  rw [← hrip] at hr
  exact Runs.instr hl htest rfl he (Runs.branch hl' hjne rfl he' (fall h hi rfl hr))

/-- Over its NOPs control comes to the return. -/
theorem retq (hrip : σ.rip = f.shadow.getPos i) {nops : BitVec 64}
    (hkind : (f.shadow.heap i).kind = .retq nops) {back : Ptr} {stack : List Ptr}
    (hstack : σ.stack = back :: stack)
    (hr : Machine.step { σ with rip := f.shadow.getPos i + nops } =
        some ([⟨f.shadow.getPos i + nops, .ret, true, back⟩], { σ with rip := back, stack := stack }) →
      Q [] { σ with rip := f.shadow.getPos i + nops }) : Runs σ Q := by
  obtain ⟨cells, hcontent⟩ := h.content
  have hhex := (hcontent i hi).1
  rw [ShadowSegment.makeHex, hkind] at hhex
  obtain ⟨hex, hfill, hlist⟩ := bind_eq_ok.mp hhex
  have hsize : (f.shadow.heap i).getSize = 1 + nops * 1 := by rw [ShadowSegment.getSize, hkind]; rfl
  split at hlist
  · cases hlist
  rename_i hne
  have hn : (1 + nops * 1 : BitVec 64).toNat = nops.toNat + 1 := by bv_omega
  unfold fillHex at hfill
  split at hfill
  · rw [← Except.ok.inj hfill, hn, Nat.add_sub_cancel] at hlist
    have hl := h.bytes hi (Except.ok.inj hlist).symm (by rw [hsize, hn]; simp)
    rw [← hrip] at hl
    have hfits := hl.fits
    rw [List.length_set, List.length_replicate] at hfits
    have hrun : BitVec.ofNat 64 nops.toNat = nops := by rw [BitVec.ofNat_toNat, BitVec.setWidth_eq]
    have hret := hl.drop (k := nops.toNat) (by simp)
    refine Runs.nops (n := nops.toNat) (fun k hk => ?_) (by omega) ?_
    · rw [hl.byte (by simp; omega), List.getElem_set_ne (by omega), List.getElem_replicate]
    · rw [hrun] at hret ⊢
      rw [hrip] at hret ⊢
      have hbyte : (List.replicate (nops.toNat + 1) (0x90 : Byte)).set nops.toNat 0xc3 =
          List.replicate nops.toNat 0x90 ++ [0xc3] := by
        rw [List.replicate_succ', List.set_append_right _ _ (by simp)]
        simp
      rw [hbyte, List.drop_left' (List.length_replicate)] at hret
      have he : Machine.Instr.ret.exec (f.shadow.getPos i + nops + BitVec.ofNat 64 1)
          { σ with rip := f.shadow.getPos i + nops } =
            some { σ with rip := back, stack := stack } := by
        simp only [Machine.Instr.exec, hstack]
      exact .done (hr (Machine.step_of_holds (s := { σ with rip := f.shadow.getPos i + nops })
        (i := .ret) (n := 1) hret rfl he))
  · cases hfill

end

end Code

end Shadow

end BS.ShadowCode
