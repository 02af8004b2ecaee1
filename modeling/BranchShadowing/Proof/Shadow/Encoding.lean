import BranchShadowing.Proof.Shadow.Content
import BranchShadowing.Proof.X86.Machine
import BranchShadowing.Spec.Shadow.Execution

/-!
# Decoding the segments

A displacement that is cut to fewer bits is the same afterwards if it was small enough
(`signExtend_setWidth_iff`), and only `SegJump` checks that. A cell is set by every segment
that has it, and so holds what the last one wants (`finalizeSegments_value`).
-/

namespace BS.ShadowCode

theorem signExtend_setWidth_iff {w : Nat} (hw : w < 64) (d : BitVec 64) :
    (d.setWidth (w + 1)).signExtend 64 = d ↔ Shadow.Signed (w + 1) d := by
  have hmod : (d.toNat : Int).bmod (2 ^ (w + 1)) = d.toInt.bmod (2 ^ (w + 1)) := by
    rw [BitVec.toInt_eq_toNat_bmod d, Int.bmod_bmod_of_dvd (Nat.pow_dvd_pow 2 hw)]
  unfold Shadow.Signed
  rw [← BitVec.toInt_inj, BitVec.toInt_signExtend_of_le hw, BitVec.toInt_setWidth, hmod,
    Int.bmod_eq_iff (Nat.two_pow_pos _), Nat.add_sub_cancel, sub_self]
  simp only [dvd_zero, and_true]
  push_cast
  rw [pow_succ]
  omega

namespace Shadow

variable {heap heap' : Heap} {base mapped : Ptr} {cells cells' : Cells} {m : Mem Byte}
variable {s : Shadow} {f : Finalized} {i k last t c : Nat} {seg : ShadowSegment}

/-! ## Jumps -/

/-- A jump with the distance to the target, cut to fewer bits. -/
theorem jumpTo_eq_iff {w : Nat} (hw : w < 64) (pos target : Ptr) (len : Nat) :
    Machine.jumpTo pos len ((target - (pos + BitVec.ofNat 64 len)).setWidth (w + 1)) = target ↔
      Signed (w + 1) (target - (pos + BitVec.ofNat 64 len)) := by
  have htarget : target = pos + BitVec.ofNat 64 len + (target - (pos + BitVec.ofNat 64 len)) := by
    rw [BitVec.add_comm, BitVec.sub_add_cancel]
  rw [← signExtend_setWidth_iff hw]
  unfold Machine.jumpTo
  constructor
  · intro h
    exact (BitVec.add_right_inj _).mp (h.trans htarget)
  · intro h
    rw [h]
    exact htarget.symm

theorem ofLE_toLE_setWidth {w n : Nat} (h : w = 8 * n) (d : BitVec 64) :
    BitVec.ofNat w (ofLE (toLE n d.toNat)) = d.setWidth w := by
  subst h
  rw [ofLE_toLE, show 256 = 2 ^ 8 from rfl, ← Nat.pow_mul]
  refine BitVec.eq_of_toNat_eq ?_
  rw [BitVec.toNat_ofNat, Nat.mod_mod, BitVec.toNat_setWidth]

theorem getDiff_ok {a b d : Ptr} (h : Pointers.getDiff a b = .ok d) : d = a - b := by
  obtain ⟨_, -, h⟩ := bind_eq_ok.mp h
  obtain ⟨_, -, h⟩ := bind_eq_ok.mp h
  exact (Except.ok.inj h).symm

theorem jneEaxZero_decodes (hkind : seg.kind = .jneEaxZero t)
    (h : SegJneEaxZero.finalize (heap t).pos seg.getEnd = .ok seg.hex) :
    Shadow.Decodes heap cells seg ↔ Signed 8 ((heap t).pos - seg.getEnd) := by
  obtain ⟨d, hd, h⟩ := bind_eq_ok.mp h
  obtain rfl := getDiff_ok hd
  have hend : seg.getEnd = seg.pos + 2 + BitVec.ofNat 64 2 := by
    rw [ShadowSegment.getEnd, ShadowSegment.getSize, hkind, BitVec.add_assoc]
    rfl
  have hjump := jumpTo_eq_iff (w := 7) (by decide) (seg.pos + 2) (heap t).pos 2
  rw [← hend] at hjump
  rw [← hjump]
  unfold Shadow.Decodes
  rw [hkind, ← Except.ok.inj h]
  show Machine.decode seg.pos [0x85, 0xc0, 0x75, _] = some (.testEaxEax, 2) ∧
    some (Machine.Instr.jne (Machine.jumpTo (seg.pos + 2) 2 _), 2) = some (.jne _, 2) ↔ _
  simp [Machine.decode]

theorem jump_decodes (hkind : seg.kind = .jump t)
    (h : SegJump.finalize (heap t).pos seg.getEnd = .ok seg.hex) : Shadow.Decodes heap cells seg := by
  obtain ⟨d, hd, h⟩ := bind_eq_ok.mp h
  obtain rfl := getDiff_ok hd
  obtain ⟨_, hrange, h⟩ := bind_eq_ok.mp h
  obtain ⟨hlo, hhi⟩ := ensure_ok.mp hrange
  have hend : seg.getEnd = seg.pos + BitVec.ofNat 64 2 := by
    rw [ShadowSegment.getEnd, ShadowSegment.getSize, hkind]
    rfl
  have hjump := (jumpTo_eq_iff (w := 7) (by decide) seg.pos (heap t).pos 2).mpr (by
    rw [← hend]
    exact ⟨Int.le_of_lt hlo, hhi⟩)
  rw [← hend] at hjump
  unfold Shadow.Decodes
  rw [hkind, ← Except.ok.inj h]
  show some (Machine.Instr.jmp (Machine.jumpTo seg.pos 2 _), 2) = some (.jmp _, 2)
  rw [hjump]

theorem longJump_decodes (hkind : seg.kind = .longJump t)
    (h : SegLongJump.finalize (heap t).pos seg.getEnd = .ok seg.hex) :
    Shadow.Decodes heap cells seg ↔ Signed 32 ((heap t).pos - seg.getEnd) := by
  obtain ⟨d, hd, h⟩ := bind_eq_ok.mp h
  obtain rfl := getDiff_ok hd
  have hend : seg.getEnd = seg.pos + BitVec.ofNat 64 5 := by
    rw [ShadowSegment.getEnd, ShadowSegment.getSize, hkind]
    rfl
  have hjump := jumpTo_eq_iff (w := 31) (by decide) seg.pos (heap t).pos 5
  rw [← hend] at hjump
  rw [← hjump]
  unfold Shadow.Decodes
  rw [hkind, ← Except.ok.inj h]
  show some (Machine.Instr.jmp (Machine.jumpTo seg.pos 5
    (BitVec.ofNat 32 (ofLE (toLE 4 ((heap t).pos - seg.getEnd).toNat)))), 5) = some (.jmp _, 5) ↔ _
  rw [ofLE_toLE_setWidth (by decide)]
  simp

/-- The encoding of `movabs` for R13 and R14. -/
theorem decode_setPosInReg {register : Byte} (hr : register = 13 ∨ register = 14)
    (pos inner : Ptr) : Machine.decode pos (SegSetPosInReg.hex inner register) =
      some (.movabs register.toNat inner, 10) := by
  have hinner : BitVec.ofNat 64 (ofLE (toLE 8 inner.toNat)) = inner := by
    rw [ofLE_toLE_setWidth (by decide), BitVec.setWidth_eq]
  rcases hr with rfl | rfl
  · show some (Machine.Instr.movabs 13 (BitVec.ofNat 64 (ofLE (toLE 8 inner.toNat))), 10) = _
    rw [hinner]
    rfl
  · show some (Machine.Instr.movabs 14 (BitVec.ofNat 64 (ofLE (toLE 8 inner.toNat))), 10) = _
    rw [hinner]
    rfl

/-! ## Cells -/

theorem finalizeSegments_inner {l : List Nat}
    (h : finalizeSegments l heap cells = .ok (heap', cells')) (c : Nat) :
    (cells' c).inner = (cells c).inner := by
  induction l generalizing heap cells with
  | nil => rw [(Prod.mk.inj (Except.ok.inj h)).2]
  | cons i l ih =>
    obtain ⟨⟨hex, cells₁⟩, hi, h⟩ := bind_eq_ok.mp h
    obtain ⟨hex', -, hi⟩ := bind_eq_ok.mp hi
    obtain ⟨rfl, rfl⟩ := Prod.mk.inj (Except.ok.inj hi)
    rw [ih h, setTarget_inner]

theorem setTarget_value (i c : Nat) : ((heap i).setTarget heap cells c).value =
    ((cellTarget heap c i).map fun t => (heap t).pos).getD (cells c).value := by
  unfold ShadowSegment.setTarget cellTarget
  generalize (heap i).kind = kind
  cases kind with
  | setPosInReg target c' register =>
    by_cases h : c' = c
    · cases target <;> simp [h]
    · cases target <;> simp [h, Ne.symm h]
  | _ => rfl

theorem cellTarget_congr (h : ∀ j, (heap' j).kind = (heap j).kind) :
    cellTarget heap' = cellTarget heap := by
  funext c i
  unfold cellTarget
  rw [h]

/-- The last segment that sets a cell decides on its value. -/
theorem finalizeSegments_value {l : List Nat}
    (h : finalizeSegments l heap cells = .ok (heap', cells')) (c : Nat) :
    (cells' c).value = (((l.filterMap (cellTarget heap c)).getLast?).map
      fun t => (heap t).pos).getD (cells c).value := by
  induction l generalizing heap cells with
  | nil =>
    rw [(Prod.mk.inj (Except.ok.inj h)).2]
    rfl
  | cons i l ih =>
    obtain ⟨⟨hex, cells₁⟩, hi, h⟩ := bind_eq_ok.mp h
    obtain ⟨hex', -, hi⟩ := bind_eq_ok.mp hi
    obtain ⟨rfl, rfl⟩ := Prod.mk.inj (Except.ok.inj hi)
    have hsame : ∀ j, (Function.update heap i { heap i with hex := hex' } j).kind = (heap j).kind ∧
        (Function.update heap i { heap i with hex := hex' } j).pos = (heap j).pos := by
      intro j
      by_cases hj : j = i
      · simp [hj]
      · simp [hj]
    rw [ih h, cellTarget_congr fun j => (hsame j).1, setTarget_value]
    simp only [(hsame _).2]
    cases hset : cellTarget heap c i with
    | none => rw [List.filterMap_cons_none hset, Option.map_none, Option.getD_none]
    | some t =>
      rw [List.filterMap_cons_some hset, List.getLast?_cons]
      cases (l.filterMap (cellTarget heap c)).getLast? <;> rfl

/-! ## The segments -/

theorem getLast?_cellTarget {l : List Nat} (hi : i ∈ l) (h : cellTarget heap c i = some t) :
    ∃ t', (l.filterMap (cellTarget heap c)).getLast? = some t' := by
  have hmem : t ∈ l.filterMap (cellTarget heap c) := List.mem_filterMap.mpr ⟨i, hi, h⟩
  exact ⟨_, List.getLast?_eq_some_getLast (List.ne_nil_of_mem hmem)⟩

namespace Finished

theorem decodes_iff_encodable (hf : Finished s last mapped base m cells f) (hi : i ≤ last) :
    Shadow.Decodes f.shadow.heap f.cells (f.shadow.heap i) ↔
      f.shadow.Encodable (f.shadow.heap i) := by
  have hhex := hf.makeHex hi
  obtain ⟨heap₀, hpos, hfin⟩ := hf.contents
  unfold ShadowSegment.makeHex at hhex
  cases hkind : (f.shadow.heap i).kind with
  | jneEaxZero t =>
    rw [hkind] at hhex
    rw [jneEaxZero_decodes hkind hhex, Encodable, hkind]
    rfl
  | jump t =>
    rw [hkind] at hhex
    rw [Encodable, hkind]
    exact ⟨fun _ => trivial, fun _ => jump_decodes hkind hhex⟩
  | longJump t =>
    rw [hkind] at hhex
    rw [longJump_decodes hkind hhex, Encodable, hkind]
    rfl
  | setPosInReg target c register =>
    have hdecode : register = 13 ∨ register = 14 →
        Machine.decode (f.shadow.heap i).pos (f.shadow.heap i).hex =
          some (.movabs register.toNat (f.cells c).inner, 10) := by
      rw [hkind] at hhex
      rw [← Except.ok.inj hhex, finalizeSegments_inner hfin c]
      exact fun hr => decode_setPosInReg hr _ _
    cases target with
    | none =>
      rw [Shadow.Decodes, Encodable, hkind]
      exact iff_of_true (fun hr => ⟨hdecode hr, fun t ht => nomatch ht⟩) trivial
    | some t =>
      have hset : cellTarget f.shadow.heap c i = some t := by
        rw [cellTarget, hkind]
        exact if_pos rfl
      obtain ⟨t', hlast⟩ := getLast?_cellTarget (List.mem_range.mpr (Nat.lt_succ_of_le hi)) hset
      have hvalue := finalizeSegments_value hfin c
      rw [← cellTarget_congr fun j => (finalizeSegments_pos hfin j).1, hlast] at hvalue
      rw [Shadow.Decodes, Encodable, hkind, hf.segments]
      simp only [hlast, Option.mem_some_iff, forall_eq']
      have hcell : (f.cells c).value = f.shadow.getPos t' := hvalue.trans (hpos t')
      rw [hcell]
      exact ⟨fun h hr => (h hr).2, fun h hr => ⟨hdecode hr, h hr⟩⟩
  | _ =>
    rw [Shadow.Decodes, Encodable, hkind]

/-- A cell that all the segments which set it set to the same target. -/
theorem cell_value (hf : Finished s last mapped base m cells f) (hi : i ≤ last)
    (hset : cellTarget f.shadow.heap c i = some t)
    (hall : ∀ j ≤ last, ∀ t' ∈ cellTarget f.shadow.heap c j, t' = t) :
    (f.cells c).value = f.shadow.getPos t := by
  obtain ⟨heap₀, hpos, hfin⟩ := hf.contents
  obtain ⟨t', hlast⟩ := getLast?_cellTarget (List.mem_range.mpr (Nat.lt_succ_of_le hi)) hset
  have hvalue := finalizeSegments_value hfin c
  rw [← cellTarget_congr fun j => (finalizeSegments_pos hfin j).1, hlast] at hvalue
  obtain ⟨j, hj, hjt⟩ := List.mem_filterMap.mp (List.mem_of_getLast? hlast)
  rw [hvalue, ← hall j (Nat.le_of_lt_succ (List.mem_range.mp hj)) t' hjt]
  exact hpos t'

/-- A cell that none sets. -/
theorem cell_kept (hf : Finished s last mapped base m cells f)
    (hnone : ∀ j ≤ last, cellTarget f.shadow.heap c j = none) :
    (f.cells c).value = (cells c).value := by
  obtain ⟨heap₀, -, hfin⟩ := hf.contents
  have hnil : (List.range (last + 1)).filterMap (cellTarget heap₀ c) = [] := by
    rw [← cellTarget_congr fun j => (finalizeSegments_pos hfin j).1, List.filterMap_eq_nil_iff]
    exact fun j hj => hnone j (Nat.le_of_lt_succ (List.mem_range.mp hj))
  rw [finalizeSegments_value hfin c, hnil]
  rfl

end Finished

/-- All branches decode to what they stand for exactly when their displacements are small
enough, and segments agree on the cells they share. -/
theorem decodes_iff {calls : List Call} (hb : build k heap calls = .ok s)
    (h : s.finalize mapped m cells = .ok f) :
    f.Decodes ↔ ∀ i ∈ f.shadow.segments, f.shadow.Encodable (f.shadow.heap i) := by
  obtain ⟨s', last, base, -, -, -, hf⟩ := finalize_finished hb h
  refine forall₂_congr fun i hi => hf.decodes_iff_encodable ?_
  rw [hf.segments, List.mem_range] at hi
  exact Nat.le_of_lt_succ hi

/-- The shadow with a jne. -/
theorem decodes_iff_jne : ∃ s f, build 32 (jneHeap 0x401002) threeCalls = .ok s ∧
    s.finalize 0x7f0000000000 (fun _ => 0) (fun _ => ⟨0, 0⟩) = .ok f ∧ f.Decodes := by
  have hrun : ((build 32 (jneHeap 0x401002) threeCalls).bind fun s =>
      (s.finalize 0x7f0000000000 (fun _ => 0) fun _ => ⟨0, 0⟩).map fun f =>
        (f.shadow.segments, (f.shadow.heap 0).kind, (f.shadow.heap 1).kind, (f.shadow.heap 2).kind,
          f.shadow.getPos 2 - (f.shadow.heap 1).getEnd)) =
      .ok ([0, 1, 2], .nop 1, .jneEaxZero 2, .retq 1, 0xc) := by
    decide
  obtain ⟨s, f, hb, hf, hrun⟩ := exists_of_run hrun
  simp only [Prod.mk.injEq] at hrun
  obtain ⟨hseg, h₀, h₁, h₂, hdiff⟩ := hrun
  refine ⟨s, f, hb, hf, (decodes_iff hb hf).mpr fun i hi => ?_⟩
  rw [hseg] at hi
  simp only [List.mem_cons, List.not_mem_nil, or_false] at hi
  unfold Encodable
  rcases hi with rfl | rfl | rfl
  · rw [h₀]
    trivial
  · rw [h₁]
    show Signed 8 (f.shadow.getPos 2 - (f.shadow.heap 1).getEnd)
    rw [hdiff]
    decide
  · rw [h₂]
    trivial

/-- A jne over 252 bytes. -/
def farHeap : Heap
  | 0 => (SegKind.nop 1).makeLoose
  | 1 => { kind := .jneEaxZero 2, pos := 0x401000 }
  | _ => { kind := .retq 1, pos := 0x401100 }

/-- It goes back to the test in front of it instead. -/
theorem far_not_decodes : ¬ ∀ s f, build 32 farHeap threeCalls = .ok s →
    s.finalize 0x7f0000000000 (fun _ => 0) (fun _ => ⟨0, 0⟩) = .ok f → f.Decodes := by
  intro h
  have hrun : ((build 32 farHeap threeCalls).bind fun s =>
      (s.finalize 0x7f0000000000 (fun _ => 0) fun _ => ⟨0, 0⟩).map fun f =>
        (f.shadow.segments, f.shadow.heap 1, f.shadow.getPos 2)) =
      .ok ([0, 1, 2], ⟨.jneEaxZero 2, 0x7f0000401000, [0x85, 0xc0, 0x75, 0xfc]⟩, 0x7f0000401100) := by
    decide
  obtain ⟨s, f, hb, hf, hrun⟩ := exists_of_run hrun
  simp only [Prod.mk.injEq] at hrun
  obtain ⟨hseg, h₁, h₂⟩ := hrun
  have hd := h s f hb hf 1 (by rw [hseg]; decide)
  unfold Shadow.Decodes at hd
  rw [h₁] at hd
  have hjne := hd.2
  change Machine.decode _ _ = some (.jne (f.shadow.getPos 2), 2) at hjne
  rw [h₂] at hjne
  exact absurd hjne (by decide)

end Shadow

end BS.ShadowCode
