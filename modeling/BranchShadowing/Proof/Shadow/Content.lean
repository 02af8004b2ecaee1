import BranchShadowing.Proof.Shadow.Mapping

/-!
# What is in memory

The segments are written in order over the NOPs. The assertion before each compares its
start with the start of the one before, not with its end; but the loose ones are placed
apart, so it is enough that those with a position are (`intact_iff`).
-/

namespace BS.ShadowCode

namespace Shadow

variable {heap heap' : Heap} {base mapped : Ptr} {cells cells' : Cells} {m m' : Mem Byte}
variable {s : Shadow} {f : Finalized} {i j k last : Nat}

/-! ## Writing -/

/-- A segment in memory. -/
def writeSegment (heap : Heap) (m : Mem Byte) (i : Nat) : Mem Byte :=
  m.write (heap i).pos.toNat ((heap i).hex.take (heap i).getSize.toNat)

theorem writeSegments_ok {l : List Nat} {lastEnd : Ptr}
    (h : writeSegments heap l lastEnd m = .ok m') : m' = l.foldl (writeSegment heap) m := by
  induction l generalizing lastEnd m with
  | nil => exact (Except.ok.inj h).symm
  | cons i l ih =>
    obtain ⟨_, -, h⟩ := bind_eq_ok.mp h
    obtain ⟨m₁, hcopy, h⟩ := bind_eq_ok.mp h
    unfold memcpy at hcopy
    split at hcopy
    · obtain rfl := Except.ok.inj hcopy
      exact ih h
    · cases hcopy

/-- An address of no segment keeps what it holds. -/
theorem foldl_writeSegment_of_not {l : List Nat} {a : Nat}
    (h : ∀ i ∈ l, ¬ ((heap i).pos.toNat ≤ a ∧ a < (heap i).pos.toNat + (heap i).getSize.toNat)) :
    l.foldl (writeSegment heap) m a = m a := by
  induction l generalizing m with
  | nil => rfl
  | cons i l ih =>
    rw [List.foldl_cons, ih fun j hj => h j (List.mem_cons_of_mem i hj)]
    have hi := h i (List.mem_cons_self ..)
    refine Mem.write_of_not_mem m ?_
    rw [List.length_take]
    omega

/-- A segment that ends before all later ones start is there at the end. -/
theorem read_foldl_writeSegment {l : List Nat}
    (hapart : l.Pairwise fun i j =>
      (heap i).pos.toNat + (heap i).getSize.toNat ≤ (heap j).pos.toNat)
    (hlen : ∀ i ∈ l, (heap i).getSize.toNat ≤ (heap i).hex.length) (hi : i ∈ l) :
    (l.foldl (writeSegment heap) m).read (heap i).pos.toNat (heap i).getSize.toNat =
      (heap i).hex.take (heap i).getSize.toNat := by
  induction l generalizing m with
  | nil => cases hi
  | cons j l ih =>
    obtain ⟨hj, hl⟩ := List.pairwise_cons.mp hapart
    rcases List.mem_cons.mp hi with rfl | hi
    · have hsame : (l.foldl (writeSegment heap) (writeSegment heap m i)).read (heap i).pos.toNat
          (heap i).getSize.toNat =
            (writeSegment heap m i).read (heap i).pos.toNat (heap i).getSize.toNat := by
        refine Mem.read_congr fun x hx => foldl_writeSegment_of_not fun j hjl => ?_
        have := hj j hjl
        omega
      have hlen := hlen i (List.mem_cons_self ..)
      rw [List.foldl_cons, hsame]
      have hread := m.read_write_self (heap i).pos.toNat ((heap i).hex.take (heap i).getSize.toNat)
      rwa [List.length_take, Nat.min_eq_left hlen] at hread
    · exact ih hl (fun j hj => hlen j (List.mem_cons_of_mem _ hj)) hi

/-! ## The contents -/

theorem finalizeSegments_of_not_mem {l : List Nat}
    (h : finalizeSegments l heap cells = .ok (heap', cells')) (hi : i ∉ l) : heap' i = heap i := by
  induction l generalizing heap cells with
  | nil => rw [(Prod.mk.inj (Except.ok.inj h)).1]
  | cons j l ih =>
    obtain ⟨⟨hex, cells₁⟩, -, h⟩ := bind_eq_ok.mp h
    obtain ⟨hne, hi⟩ := List.ne_and_not_mem_of_not_mem_cons hi
    rw [ih h hi, Function.update_of_ne hne]

/-- A cell stays where it is. -/
@[simp] theorem setTarget_inner (seg : ShadowSegment) (c : Nat) :
    (seg.setTarget heap cells c).inner = (cells c).inner := by
  unfold ShadowSegment.setTarget
  generalize seg.kind = kind
  cases kind with
  | setPosInReg target c' register =>
    cases target with
    | none => rfl
    | some t =>
      by_cases h : c = c'
      · simp [h]
      · simp [h]
  | _ => rfl

/-- The content depends on the positions, and on where the cells are. -/
theorem makeHex_congr {seg seg' : ShadowSegment} (hkind : seg'.kind = seg.kind)
    (hseg : seg'.pos = seg.pos) (hpos : ∀ j, (heap' j).pos = (heap j).pos)
    (hinner : ∀ c, (cells' c).inner = (cells c).inner) :
    seg'.makeHex heap' cells' = seg.makeHex heap cells := by
  have hend : seg'.getEnd = seg.getEnd := by
    rw [ShadowSegment.getEnd, ShadowSegment.getEnd, ShadowSegment.getSize, ShadowSegment.getSize,
      hkind, hseg]
  unfold ShadowSegment.makeHex
  rw [hkind, hend]
  generalize seg.kind = kind
  cases kind <;> simp only [hpos, hinner]

/-- The contents that segments get. -/
theorem finalizeSegments_makeHex {l : List Nat} (hl : l.Nodup)
    (h : finalizeSegments l heap cells = .ok (heap', cells')) (hi : i ∈ l) :
    (heap i).makeHex heap cells = .ok (heap' i).hex := by
  induction l generalizing heap cells with
  | nil => cases hi
  | cons j l ih =>
    obtain ⟨⟨hex, cells₁⟩, hj, h⟩ := bind_eq_ok.mp h
    obtain ⟨hnot, hl⟩ := List.nodup_cons.mp hl
    obtain ⟨hex', hhex, hj⟩ := bind_eq_ok.mp hj
    obtain ⟨rfl, rfl⟩ := Prod.mk.inj (Except.ok.inj hj)
    have hpos : ∀ i, (Function.update heap j { heap j with hex := hex' } i).pos = (heap i).pos := by
      intro i
      by_cases h : i = j
      · simp [h]
      · simp [h]
    rcases List.mem_cons.mp hi with rfl | hi
    · rw [finalizeSegments_of_not_mem h hnot, Function.update_self,
        ← makeHex_congr rfl rfl (fun _ => rfl) (setTarget_inner (heap i)), hhex]
    · have hne : i ≠ j := fun hij => hnot (hij ▸ hi)
      rw [← ih hl h hi, Function.update_of_ne hne]
      exact (makeHex_congr rfl rfl hpos (setTarget_inner (heap j))).symm

theorem fillHex_length {size : BitVec 64} {b : Byte} {hex : List Byte}
    (h : fillHex size b = .ok hex) : hex.length < 2 ^ 31 := by
  unfold fillHex at h
  split at h
  · rw [← Except.ok.inj h, List.length_replicate]
    assumption
  · cases h

theorem makeHex_length {seg : ShadowSegment} {hex : List Byte}
    (h : seg.makeHex heap cells = .ok hex) : hex.length < 2 ^ 31 := by
  unfold ShadowSegment.makeHex at h
  generalize seg.kind = kind at h
  cases kind with
  | nop nopCount => exact fillHex_length h
  | retq nops =>
    obtain ⟨hex', hfill, h⟩ := bind_eq_ok.mp h
    split at h
    · cases h
    · rw [← Except.ok.inj h, List.length_set]
      exact fillHex_length hfill
  | jneEaxZero t =>
    obtain ⟨_, -, h⟩ := bind_eq_ok.mp h
    rw [← Except.ok.inj h]
    simp
  | jump t =>
    obtain ⟨_, -, h⟩ := bind_eq_ok.mp h
    obtain ⟨_, -, h⟩ := bind_eq_ok.mp h
    rw [← Except.ok.inj h]
    simp
  | longJump t =>
    obtain ⟨_, -, h⟩ := bind_eq_ok.mp h
    rw [← Except.ok.inj h]
    simp
  | _ =>
    rw [← Except.ok.inj h]
    simp [SegEaxWrite.hex, SegSetPosInReg.hex]

namespace Finished

theorem makeHex (hf : Finished s last mapped base m cells f) (hi : i ≤ last) :
    (f.shadow.heap i).makeHex f.shadow.heap cells = .ok (f.shadow.heap i).hex := by
  obtain ⟨heap, hpos, hfin⟩ := hf.contents
  have hkind := (finalizeSegments_pos hfin i).1
  rw [makeHex_congr hkind (hpos i).symm (fun j => (hpos j).symm) fun _ => rfl]
  exact finalizeSegments_makeHex List.nodup_range hfin (List.mem_range.mpr (Nat.lt_succ_of_le hi))

theorem getSize_le (hf : Finished s last mapped base m cells f) (hi : i ≤ last) :
    (f.shadow.heap i).getSize.toNat ≤ (f.shadow.heap i).hex.length :=
  ((writeSegments_sorted hf.written).1 i (List.mem_range.mpr (by omega))).2.1

/-- The objects are small, for `finalize` has filled them. -/
theorem small (hf : Finished s last mapped base m cells f) (hp : Placed k heap (last + 1) s) :
    Small heap (last + 1) := by
  intro j hj
  have hle := hf.getSize_le (Nat.le_of_lt_succ hj)
  have hlt := makeHex_length (hf.makeHex (Nat.le_of_lt_succ hj))
  have hsize : (heap j).getSize = (f.shadow.heap j).getSize :=
    congrArg SegKind.size ((hf.kind j).trans (hp.kind j)).symm
  rw [hsize]
  omega

/-- Where segments were placed apart, one ends before the next starts. -/
theorem end_le (hf : Finished s last mapped base m cells f) (hj : i + 1 ≤ last)
    (hc : Clear s.heap i (i + 1)) :
    (f.shadow.getPos i).toNat + (f.shadow.heap i).getSize.toNat ≤ (f.shadow.getPos (i + 1)).toNat := by
  have hle := hf.sorted (Nat.le_add_right i 1) hj
  have hsub : (s.heap (i + 1)).pos - (s.heap i).pos =
      f.shadow.getPos (i + 1) - f.shadow.getPos i := by
    rw [hf.moved (i + 1) hj, hf.moved i (by omega)]
    simp only [getPos]
    grind
  have hc := BitVec.le_def.mp hc
  rw [hsub, BitVec.toNat_sub_of_le hle, ← hf.getSize] at hc
  have := BitVec.le_def.mp hle
  omega

/-- What is placed close to a segment stays so. -/
theorem lt_of_close {bound : Nat} (hf : Finished s last mapped base m cells f)
    (hi : i + 1 ≤ last) (hc : Close bound s.heap i (i + 1)) :
    (f.shadow.getPos (i + 1)).toNat <
      (f.shadow.getPos i).toNat + (f.shadow.heap i).getSize.toNat + bound := by
  have hle := hf.sorted (Nat.le_add_right i 1) hi
  have hsub : (s.heap (i + 1)).pos - (s.heap i).getEnd =
      f.shadow.getPos (i + 1) - f.shadow.getPos i - (f.shadow.heap i).getSize := by
    rw [hf.moved (i + 1) hi, hf.moved i (by omega), hf.getSize]
    simp only [Shadow.getPos, ShadowSegment.getEnd]
    grind
  unfold Close at hc
  rw [hsub] at hc
  have htotal := BitVec.toNat_sub_of_le hle
  have := BitVec.le_def.mp hle
  generalize f.shadow.getPos (i + 1) - f.shadow.getPos i = d at hc htotal
  generalize (f.shadow.heap i).getSize = size at hc ⊢
  bv_omega

theorem apart_of_clear (hf : Finished s last mapped base m cells f)
    (hc : ∀ i, i + 1 ≤ last → Clear s.heap i (i + 1)) (hij : i < j) (hj : j ≤ last) :
    (f.shadow.getPos i).toNat + (f.shadow.heap i).getSize.toNat ≤ (f.shadow.getPos j).toNat :=
  (hf.end_le (by omega) (hc i (by omega))).trans (BitVec.le_def.mp (hf.sorted hij hj))

/-- So nothing that was written is written over. -/
theorem intact (hf : Finished s last mapped base m cells f)
    (hc : ∀ i, i + 1 ≤ last → Clear s.heap i (i + 1)) : f.Intact := by
  have hmem := writeSegments_ok hf.written
  constructor
  · intro i hi
    rw [hmem]
    rw [hf.segments, List.mem_range] at hi
    refine read_foldl_writeSegment ?_ (fun j hj => ?_) (List.mem_range.mpr hi)
    · refine List.pairwise_lt_range.imp_of_mem fun hi hj hij => ?_
      exact hf.apart_of_clear hc hij (Nat.le_of_lt_succ (List.mem_range.mp hj))
    · exact hf.getSize_le (Nat.le_of_lt_succ (List.mem_range.mp hj))
  · intro a hstart hstop hnot
    rw [front_eq hf.segments] at hstart
    rw [back_eq hf.segments] at hstop
    rw [hf.segments] at hnot
    rw [hmem, foldl_writeSegment_of_not hnot]
    obtain ⟨x, rfl⟩ := Nat.exists_eq_add_of_le hstart
    rw [Mem.write_of_mem m (by rw [List.length_replicate]; omega), List.getElem_replicate]
  · intro i hi j hj hne hov
    rw [hf.segments, List.mem_range] at hi hj
    unfold Overlap at hov
    rcases Nat.lt_or_gt_of_ne hne with h | h
    · have := hf.apart_of_clear hc h (by omega)
      omega
    · have := hf.apart_of_clear hc h (by omega)
      omega

/-- Segments at positions given one after the other that do not overlap in the end were
given apart. -/
theorem spaced (hf : Finished s last mapped base m cells f) (hp : Placed k heap (last + 1) s)
    (hap : ∀ i ∈ f.shadow.segments, ∀ j ∈ f.shadow.segments, i ≠ j → ¬ f.shadow.Overlap i j) :
    Spaced heap (last + 1) := by
  intro i hlt h₁ h₂
  have hpos := BitVec.lt_def.mp (hp.order i hlt ⟨h₁, h₂⟩)
  have hap := hap i (by rw [hf.segments, List.mem_range]; omega) (i + 1)
    (by rw [hf.segments, List.mem_range]; exact hlt) (by omega)
  have hp₁ := hp.kept i (by simpa [ShadowSegment.hasPos] using h₁)
  have hp₂ := hp.kept (i + 1) (by simpa [ShadowSegment.hasPos] using h₂)
  have hdist : (f.shadow.getPos (i + 1)).toNat + (heap i).pos.toNat =
      (f.shadow.getPos i).toNat + (heap (i + 1)).pos.toNat := by
    have hle := hf.sorted (Nat.le_add_right i 1) (Nat.le_of_lt_succ hlt)
    have hsub : f.shadow.getPos (i + 1) - f.shadow.getPos i = (heap (i + 1)).pos - (heap i).pos := by
      rw [hf.moved (i + 1) (by omega), hf.moved i (by omega)]
      simp only [getPos, hp₁, hp₂]
      grind
    have hsub := congrArg BitVec.toNat hsub
    rw [BitVec.toNat_sub_of_le hle, BitVec.toNat_sub_of_le (BitVec.le_def.mpr hpos.le)] at hsub
    have := BitVec.le_def.mp hle
    omega
  unfold Overlap at hap
  rw [hf.getSize i, hp₁] at hap
  omega

/-- Then none reaches into the next. -/
theorem clear (hf : Finished s last mapped base m cells f) (hp : Placed k heap (last + 1) s)
    (hs : Spaced heap (last + 1)) (i : Nat) (hi : i + 1 ≤ last) : Clear s.heap i (i + 1) := by
  rcases hp.apart (hf.small hp) i (by omega) with hc | ⟨h₁, h₂⟩
  · exact hc
  · have hspace := hs i (by omega) h₁ h₂
    have hpos := BitVec.le_of_lt (hp.order i (by omega) ⟨h₁, h₂⟩)
    unfold Clear
    rw [hp.kept i (by simpa [ShadowSegment.hasPos] using h₁),
      hp.kept (i + 1) (by simpa [ShadowSegment.hasPos] using h₂), BitVec.le_def,
      BitVec.toNat_sub_of_le hpos]
    omega

end Finished

/-- The memory holds what it should exactly when segments at positions given one after the
other do not overlap. -/
theorem intact_iff {calls : List Call} (hb : build k heap calls = .ok s)
    (h : s.finalize mapped m cells = .ok f) : f.Intact ↔ Spaced heap calls.length := by
  obtain ⟨s', last, base, hplace, hlen, hp, hf⟩ := finalize_finished hb h
  rw [hlen]
  exact ⟨fun hi => hf.spaced hp hi.apart, fun hs => hf.intact (hf.clear hp hs)⟩

/-- The shadow with a jne, with no segment lost. -/
theorem intact_iff_jne : ∃ s f, build 32 (jneHeap 0x401002) threeCalls = .ok s ∧
    s.finalize 0x7f0000000000 (fun _ => 0) (fun _ => ⟨0, 0⟩) = .ok f ∧ f.Intact := by
  have hrun : ((build 32 (jneHeap 0x401002) threeCalls).bind fun s =>
      (s.finalize 0x7f0000000000 (fun _ => 0) fun _ => ⟨0, 0⟩).map fun _ => ()) = .ok () := by
    decide
  obtain ⟨s, f, hb, hf, -⟩ := exists_of_run hrun
  refine ⟨s, f, hb, hf, (intact_iff hb hf).mpr fun i hi => ?_⟩
  have hi : i = 0 ∨ i = 1 := by
    simp only [threeCalls, List.length_cons, List.length_nil] at hi
    omega
  rcases hi with rfl | rfl <;> decide

/-- Two segments, the second two bytes into the first. -/
def overlapHeap : Heap
  | 0 => { kind := .eaxWrite 1, pos := 0x401000 }
  | _ => { kind := .eaxWrite 2, pos := 0x401002 }

theorem overlap_not_intact : ¬ ∀ s f, build 32 overlapHeap [.addEntry, .addSegment] = .ok s →
    s.finalize 0x7f0000000000 (fun _ => 0) (fun _ => ⟨0, 0⟩) = .ok f → f.Intact := by
  intro h
  have hrun : ((build 32 overlapHeap [.addEntry, .addSegment]).bind fun s =>
      (s.finalize 0x7f0000000000 (fun _ => 0) fun _ => ⟨0, 0⟩).map fun f =>
        (f.shadow.segments, decide (f.shadow.Overlap 0 1))) = .ok ([0, 1], true) := by
    decide
  obtain ⟨s, f, hb, hf, hov⟩ := exists_of_run hrun
  obtain ⟨hseg, hov⟩ := Prod.mk.inj hov
  have hap := (h s f hb hf).apart 0 (by rw [hseg]; decide) 1 (by rw [hseg]; decide) (by decide)
  exact hap (of_decide_eq_true hov)

end Shadow

end BS.ShadowCode
