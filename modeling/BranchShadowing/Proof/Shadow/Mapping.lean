import BranchShadowing.Proof.Shadow.Relocation

/-!
# What is written lies in the memory mapped

The first segment is moved to the first alias behind the address of the mapping, or, for
the alias 0, to the one in front of it (`first_toNat`, `first_lt`). Whether the last ones
are still in the mapping depends on how far that is (`writes_mapped_iff`).
-/

namespace BS.ShadowCode

namespace Shadow

variable {heap : Heap} {base mapped target : Ptr} {cells : Cells} {m : Mem Byte}
variable {s : Shadow} {f : Finalized} {i j k last : Nat} {size : BitVec 64}

/-! ## The order of the segments -/

theorem front_eq (h : s.segments = List.range (last + 1)) : s.front = 0 := by
  rw [front, h, List.range_succ_eq_map]
  rfl

theorem back_eq (h : s.segments = List.range (last + 1)) : s.back = last := by
  rw [back, h, List.getLastD_eq_getLast?, List.getLast?_range, if_neg (Nat.succ_ne_zero last)]
  rfl

namespace Finished

theorem sorted (hf : Finished s last mapped base m cells f) (hij : i ≤ j) (hj : j ≤ last) :
    f.shadow.getPos i ≤ f.shadow.getPos j := by
  rcases Nat.eq_or_lt_of_le hij with rfl | hlt
  · exact BitVec.le_refl _
  · have h := List.pairwise_iff_getElem.mp (writeSegments_sorted hf.written).2 i j
      (by simp; omega) (by simp; omega) hlt
    simp only [List.getElem_range] at h
    exact h

theorem room (hf : Finished s last mapped base m cells f) (hi : i ≤ last) :
    (f.shadow.getPos i).toNat + (f.shadow.heap i).getSize.toNat ≤ 2 ^ 64 :=
  ((writeSegments_sorted hf.written).1 i (List.mem_range.mpr (by omega))).2.2

theorem getSize (hf : Finished s last mapped base m cells f) (i : Nat) :
    (f.shadow.heap i).getSize = (s.heap i).getSize := congrArg SegKind.size (hf.kind i)

/-- A segment lies as far from the first as it was placed. -/
theorem toNat_getPos (hf : Finished s last mapped base m cells f) (hi : i ≤ last) :
    (f.shadow.getPos i).toNat =
      (f.shadow.getPos 0).toNat + (s.getPos i - s.getPos 0).toNat := by
  have hle := hf.sorted (Nat.zero_le i) hi
  have hsub : s.getPos i - s.getPos 0 = f.shadow.getPos i - f.shadow.getPos 0 := by
    rw [hf.moved i hi, hf.moved 0 (Nat.zero_le _)]
    grind
  rw [hsub, BitVec.toNat_sub_of_le hle]
  have := BitVec.le_def.mp hle
  omega

theorem add_reach (hf : Finished s last mapped base m cells f) (hi : i ≤ last) :
    (f.shadow.getPos i).toNat + (f.shadow.heap i).getSize.toNat =
      (f.shadow.getPos 0).toNat + s.reach i := by
  rw [hf.toNat_getPos hi, hf.getSize, reach, front_eq hf.placed, Nat.add_assoc]

/-- The end of the last segment is that of the memory that is filled. -/
theorem toNat_getEnd (hf : Finished s last mapped base m cells f) :
    (f.shadow.getEnd last).toNat = (f.shadow.getPos 0).toNat + s.reach last := by
  have hroom := hf.room (Nat.le_refl last)
  have hle := BitVec.le_def.mp hf.le_end
  have hne : (f.shadow.getPos 0).toNat ≠ 0 := fun h =>
    hf.ne_null (BitVec.eq_of_toNat_eq h)
  rw [← hf.add_reach (Nat.le_refl last)]
  rw [Shadow.getEnd, ShadowSegment.getEnd, BitVec.toNat_add] at hle ⊢
  simp only [Shadow.getPos] at *
  rcases Nat.eq_or_lt_of_le hroom with h | h
  · rw [h, Nat.mod_self] at hle
    omega
  · exact Nat.mod_eq_of_lt h

end Finished

/-! ## The first segment -/

/-- How far the first alias behind an address is. -/
theorem aliasDistance (hk : k < 64) (x y : Ptr) :
    y.toNat % 2 ^ k ≤ x.toNat % 2 ^ k ∧
        (x - y).toNat % 2 ^ k = x.toNat % 2 ^ k - y.toNat % 2 ^ k ∨
      x.toNat % 2 ^ k < y.toNat % 2 ^ k ∧
        (x - y).toNat % 2 ^ k = 2 ^ k + x.toNat % 2 ^ k - y.toNat % 2 ^ k := by
  have h := toNat_add_mod hk.le (x - y) y
  rw [BitVec.sub_add_cancel] at h
  have hd := Nat.mod_lt (x - y).toNat (Nat.two_pow_pos k)
  have hy := Nat.mod_lt y.toNat (Nat.two_pow_pos k)
  generalize (x - y).toNat % 2 ^ k = d at h hd ⊢
  generalize y.toNat % 2 ^ k = b at h hy ⊢
  generalize x.toNat % 2 ^ k = a at h ⊢
  rcases Nat.lt_or_ge (d + b) (2 ^ k) with hlt | hge
  · rw [Nat.mod_eq_of_lt hlt] at h
    omega
  · rw [Nat.mod_eq_sub_mod hge, Nat.mod_eq_of_lt (by omega)] at h
    omega

/-- The window of an address is the last one, or another follows. -/
theorem window_le (hk : k < 64) (x : Ptr) :
    x.toNat - x.toNat % 2 ^ k + 2 ^ k = 2 ^ 64 ∨
      x.toNat - x.toNat % 2 ^ k + 2 ^ k + 2 ^ k ≤ 2 ^ 64 := by
  obtain ⟨q, hq⟩ : 2 ^ k ∣ x.toNat - x.toNat % 2 ^ k := Nat.dvd_sub_mod x.toNat
  obtain ⟨r, hr⟩ : 2 ^ k ∣ 2 ^ 64 := Nat.pow_dvd_pow 2 hk.le
  have hlt := x.isLt
  have hqr : 2 ^ k * q < 2 ^ k * r := by
    rw [← hq, ← hr]
    omega
  rw [hq, hr, ← Nat.mul_succ, ← Nat.mul_succ]
  rcases Nat.eq_or_lt_of_le (Nat.lt_of_mul_lt_mul_left hqr) with h | h
  · exact .inl (congrArg (2 ^ k * ·) h)
  · exact .inr (Nat.mul_le_mul_left _ h)

/-- The address that the first segment is moved to. -/
def firstPos (target mapped : Ptr) (k : Nat) : Ptr :=
  target &&& lowMask 64 k |||
    (if AlignedMem.window mapped target k < mapped then AlignedMem.window mapped target k + lowMask 64 k
      else AlignedMem.window mapped target k) &&& ~~~lowMask 64 k

/-- One below an alias, of which the high bits are taken. -/
theorem window_pred_mod (hk : k < 64) (h : 0 < target.toNat % 2 ^ k) :
    (AlignedMem.window mapped target k + lowMask 64 k).toNat % 2 ^ k =
      target.toNat % 2 ^ k - 1 := by
  have ht := Nat.mod_lt target.toNat (Nat.two_pow_pos k)
  have hal : (AlignedMem.window mapped target k).toNat % 2 ^ k = target.toNat % 2 ^ k :=
    AlignedMem.window_aliases hk
  rw [toNat_add_mod hk.le, hal, toNat_lowMask hk]
  generalize target.toNat % 2 ^ k = t at h ht ⊢
  rw [Nat.mod_eq_of_lt (show 2 ^ k - 1 < 2 ^ k by omega), Nat.mod_eq_sub_mod (by omega),
    Nat.mod_eq_of_lt (by omega)]
  omega

theorem firstPos_toNat (hk : k < 64)
    (h : target.toNat % 2 ^ k ≠ 0 ∨ mapped.toNat % 2 ^ k = 0) :
    (firstPos target mapped k).toNat =
      (mapped.toNat + (target - mapped).toNat % 2 ^ k) % 2 ^ 64 := by
  have hwin := AlignedMem.toNat_window hk mapped target
  have hal : (AlignedMem.window mapped target k).toNat % 2 ^ k = target.toNat % 2 ^ k :=
    AlignedMem.window_aliases hk
  have hle := window_le hk mapped
  have hml := Nat.mod_le mapped.toNat (2 ^ k)
  have ht := Nat.mod_lt target.toNat (Nat.two_pow_pos k)
  have hm := Nat.mod_lt mapped.toNat (Nat.two_pow_pos k)
  rw [firstPos, toNat_splice hk]
  rcases aliasDistance hk target mapped with ⟨hge, hd⟩ | ⟨hlt, hd⟩
  · rw [if_neg (fun h => Nat.not_lt.mpr hge ((AlignedMem.window_lt_iff hk).mp h)), hal, hwin, hd]
    generalize mapped.toNat % 2 ^ k = b at *
    generalize target.toNat % 2 ^ k = t at *
    rw [Nat.mod_eq_of_lt (by omega)]
    omega
  · rw [if_pos ((AlignedMem.window_lt_iff hk).mpr hlt), window_pred_mod hk (by omega),
      BitVec.toNat_add, toNat_lowMask hk, hwin, hd]
    generalize mapped.toNat % 2 ^ k = b at *
    generalize target.toNat % 2 ^ k = t at *
    rcases hle with htop | htop
    · rw [Nat.mod_eq_sub_mod (by omega), Nat.mod_eq_of_lt (by omega),
        Nat.mod_eq_sub_mod (by omega), Nat.mod_eq_of_lt (by omega)]
      omega
    · rw [Nat.mod_eq_of_lt (by omega), Nat.mod_eq_of_lt (by omega)]
      omega

/-- The alias 0 is one below the alias 0 of the next window, and so in the same. -/
theorem firstPos_lt (hk : k < 64) (ht : target.toNat % 2 ^ k = 0) (hm : mapped.toNat % 2 ^ k ≠ 0) :
    (firstPos target mapped k).toNat < mapped.toNat := by
  have hwin := AlignedMem.toNat_window hk mapped target
  have hle := window_le hk mapped
  have hml := Nat.mod_le mapped.toNat (2 ^ k)
  have hpos := Nat.two_pow_pos k
  have hal : (AlignedMem.window mapped target k).toNat % 2 ^ k = 0 :=
    (AlignedMem.window_aliases hk).trans ht
  have hmod := toNat_add_mod hk.le (AlignedMem.window mapped target k) (lowMask 64 k)
  rw [hal, Nat.zero_add, Nat.mod_mod, toNat_lowMask hk,
    Nat.mod_eq_of_lt (show 2 ^ k - 1 < 2 ^ k by omega)] at hmod
  rw [firstPos, toNat_splice hk, ht,
    if_pos ((AlignedMem.window_lt_iff hk).mpr (by omega)), hmod, BitVec.toNat_add,
    toNat_lowMask hk, hwin, ht]
  generalize mapped.toNat % 2 ^ k = b at *
  rw [Nat.mod_eq_of_lt (by omega)]
  omega

theorem Finished.getPos_zero {n : Nat} (hp : Placed k heap n s) (hne : mapped ≠ nullptr)
    (hf : Finished s last mapped base m cells f) :
    f.shadow.getPos 0 = firstPos (s.getPos 0) mapped k := by
  obtain ⟨mem, halloc, hbase⟩ := hf.allocated
  rw [alignedMem, hp.alignBits, AlignedMem.allocate_eq _ _ _ hne] at halloc
  obtain rfl := (Prod.mk.inj (Except.ok.inj halloc)).2
  rw [AlignedMem.asPtr, ensure_true hne] at hbase
  obtain rfl := Except.ok.inj hbase
  rw [hf.first, hp.mask_eq]
  rfl

/-! ## What is written -/

theorem Finished.writes_iff (hf : Finished s last mapped base m cells f) (a : Nat) :
    f.shadow.Writes a ↔
      (f.shadow.getPos 0).toNat ≤ a ∧ a < (f.shadow.getPos 0).toNat + s.reach last ∨
        ∃ i ≤ last, (f.shadow.getPos i).toNat ≤ a ∧ a < (f.shadow.getPos 0).toNat + s.reach i := by
  unfold Writes
  rw [front_eq hf.segments, back_eq hf.segments, hf.toNat_getEnd, hf.segments]
  simp only [List.mem_range, Nat.lt_succ_iff]
  refine or_congr Iff.rfl (exists_congr fun i => and_congr_right fun hi => ?_)
  rw [Covers, hf.add_reach hi]

/-- It writes from the first segment on, as far as they reach. -/
theorem Finished.of_writes (hf : Finished s last mapped base m cells f) {a : Nat}
    (h : f.shadow.Writes a) :
    (f.shadow.getPos 0).toNat ≤ a ∧ ∃ i ≤ last, a < (f.shadow.getPos 0).toNat + s.reach i := by
  rcases (hf.writes_iff a).mp h with ⟨h₁, h₂⟩ | ⟨i, hi, h₁, h₂⟩
  · exact ⟨h₁, last, Nat.le_refl _, h₂⟩
  · have hle := BitVec.le_def.mp (hf.sorted (Nat.zero_le i) hi)
    exact ⟨hle.trans h₁, i, hi, h₂⟩

/-- It writes where the first starts, and at the end of every other. -/
theorem Finished.writes_ends (hf : Finished s last mapped base m cells f) (hi : i ≤ last)
    (hpos : 0 < s.reach i) :
    f.shadow.Writes (f.shadow.getPos 0).toNat ∧
      f.shadow.Writes ((f.shadow.getPos 0).toNat + s.reach i - 1) := by
  have hpi := hf.toNat_getPos hi
  have hpl := hf.toNat_getPos (Nat.le_refl last)
  have hle := BitVec.le_def.mp (hf.sorted hi (Nat.le_refl last))
  have hr : ∀ j, s.reach j = (s.getPos j - s.getPos 0).toNat + (s.heap j).getSize.toNat := fun j => by
    rw [reach, front_eq hf.placed]
  have hri := hr i
  have hrl := hr last
  rw [hf.writes_iff, hf.writes_iff]
  constructor
  · rcases Nat.eq_zero_or_pos (s.reach last) with h | h
    · exact .inr ⟨i, hi, by omega, by omega⟩
    · exact .inl ⟨Nat.le_refl _, by omega⟩
  · rcases Nat.eq_zero_or_pos (s.heap i).getSize.toNat with h | h
    · exact .inl ⟨by omega, by omega⟩
    · exact .inr ⟨i, hi, by omega, by omega⟩

/-- All that is written lies in the memory mapped exactly when the segments fit there. -/
theorem writes_mapped_iff {calls : List Call} {s' : Shadow} (hk : k < 64)
    (hb : build k heap calls = .ok s) (hplace : s.placeAll = .ok s')
    (h : s.finalize mapped m cells = .ok f) (hblock : Block mapped s'.requested) :
    (∀ a, f.shadow.Writes a → mapped.toNat ≤ a ∧ a < mapped.toNat + s'.requested.toNat) ↔
      s'.Fits mapped := by
  obtain ⟨s₁, last, base, hplace₁, hlen, hp, hf⟩ := finalize_finished hb h
  obtain rfl : s' = s₁ := Except.ok.inj (hplace.symm.trans hplace₁)
  have hzero := hf.getPos_zero hp hblock.ne_null
  have hfits := hblock.fits
  have hdist := Nat.mod_lt (s'.getPos 0 - mapped).toNat (Nat.two_pow_pos k)
  have hpow : 2 ^ k < 2 ^ 64 := Nat.pow_lt_pow_right (by decide) hk
  unfold Fits
  rw [front_eq hf.placed, hp.alignBits, hf.placed]
  simp only [List.mem_range, Nat.lt_succ_iff]
  constructor
  · intro hw i hi hpos
    obtain ⟨h₁, h₂⟩ := hf.writes_ends hi hpos
    have h₁ := hw _ h₁
    have h₂ := hw _ h₂
    by_cases hal : (s'.getPos 0).toNat % 2 ^ k ≠ 0 ∨ mapped.toNat % 2 ^ k = 0
    · refine ⟨hal, ?_⟩
      have hfirst := firstPos_toNat hk hal
      rw [← hzero] at hfirst
      rcases Nat.lt_or_ge (mapped.toNat + (s'.getPos 0 - mapped).toNat % 2 ^ k) (2 ^ 64) with hlt | hge
      · rw [Nat.mod_eq_of_lt hlt] at hfirst
        omega
      · have hm := mapped.isLt
        rw [Nat.mod_eq_sub_mod hge, Nat.mod_eq_of_lt (by omega)] at hfirst
        omega
    · have hlt := firstPos_lt hk (show (s'.getPos 0).toNat % 2 ^ k = 0 by omega)
        (show mapped.toNat % 2 ^ k ≠ 0 by omega)
      rw [← hzero] at hlt
      omega
  · intro hfit a ha
    obtain ⟨hle, i, hi, hlt⟩ := hf.of_writes ha
    obtain ⟨hal, hroom⟩ := hfit i hi (by omega)
    have hfirst := firstPos_toNat hk hal
    rw [← hzero, Nat.mod_eq_of_lt (by omega)] at hfirst
    omega

/-- The shadow with a jne lies in the memory at the start of a window. -/
theorem writes_mapped_iff_jne : ∃ s s' f, build 32 (jneHeap 0x401002) threeCalls = .ok s ∧
    s.placeAll = .ok s' ∧
    s.finalize 0x7f0000000000 (fun _ => 0) (fun _ => ⟨0, 0⟩) = .ok f ∧
    ∀ a, f.shadow.Writes a → 0x7f0000000000 ≤ a ∧ a < 0x7f0000000000 + s'.requested.toNat := by
  have hrun : ((build 32 (jneHeap 0x401002) threeCalls).bind fun s =>
      (s.finalize 0x7f0000000000 (fun _ => 0) fun _ => ⟨0, 0⟩).map fun _ => ()) = .ok () := by
    decide
  obtain ⟨s, f, hb, hf, -⟩ := exists_of_run hrun
  obtain ⟨-, s', hplace, -⟩ := finalize_ok hf
  have hlayout : ((build 32 (jneHeap 0x401002) threeCalls).bind fun s => s.placeAll.map fun s' =>
      (decide (s'.Fits 0x7f0000000000), s'.requested)) = .ok (true, 0x100000012) := by
    decide
  obtain ⟨s₁, hb₁, hlayout⟩ := bind_eq_ok.mp hlayout
  obtain rfl : s = s₁ := Except.ok.inj (hb.symm.trans hb₁)
  rw [hplace] at hlayout
  obtain ⟨hfits, hsize⟩ := Prod.mk.inj (Except.ok.inj hlayout)
  have hblock : Block 0x7f0000000000 s'.requested := by
    rw [hsize]
    exact ⟨by decide, by decide, by decide⟩
  exact ⟨s, s', f, hb, hplace, hf,
    (writes_mapped_iff (by decide) hb hplace hf hblock).mpr (of_decide_eq_true hfits)⟩

/-- Two segments around the end of a window. -/
def windowEndHeap : Heap
  | 0 => { kind := .eaxWrite 1, pos := 0x5555fffffffe }
  | _ => { kind := .retq 1, pos := 0x555600000010 }

/-- The last one is past the end of the memory mapped. -/
theorem windowEnd_not_mapped : ¬ ∀ s s' f, build 32 windowEndHeap [.addEntry, .addSegment] = .ok s →
    s.placeAll = .ok s' → s.finalize 0x7f0000000000 (fun _ => 0) (fun _ => ⟨0, 0⟩) = .ok f →
    ∀ a, f.shadow.Writes a → 0x7f0000000000 ≤ a ∧ a < 0x7f0000000000 + s'.requested.toNat := by
  intro h
  have hrun : ((build 32 windowEndHeap [.addEntry, .addSegment]).bind fun s =>
      (s.finalize 0x7f0000000000 (fun _ => 0) fun _ => ⟨0, 0⟩).map fun f =>
        (f.shadow.front, f.shadow.getPos f.shadow.front, f.shadow.getEnd f.shadow.back)) =
      .ok (0, 0x7f00fffffffe, 0x7f0100000012) := by
    decide
  obtain ⟨s, f, hb, hf, hpos⟩ := exists_of_run hrun
  obtain ⟨-, s', hplace, -⟩ := finalize_ok hf
  have hlayout : ((build 32 windowEndHeap [.addEntry, .addSegment]).bind fun s =>
      s.placeAll.map fun s' => s'.requested) = .ok 0x10000000d := by
    decide
  obtain ⟨s₁, hb₁, hlayout⟩ := bind_eq_ok.mp hlayout
  obtain rfl : s = s₁ := Except.ok.inj (hb.symm.trans hb₁)
  rw [hplace] at hlayout
  have hsize : s'.requested = 0x10000000d := Except.ok.inj hlayout
  obtain ⟨-, hstart, hstop⟩ : _ ∧ _ ∧ _ := by simpa using hpos
  have ha := (h s s' f hb hplace hf 0x7f0100000011 (.inl ⟨by rw [hstart]; decide, by rw [hstop]; decide⟩)).2
  rw [hsize] at ha
  exact absurd ha (by decide)

end Shadow

end BS.ShadowCode
