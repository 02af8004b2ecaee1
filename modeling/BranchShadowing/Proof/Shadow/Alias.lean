import BranchShadowing.Proof.Shadow.Content

/-!
# Aliases in the shadow

`get_aligned_ptr` looks in the window of the entry, and in the next if that is in front of
the shadow; never in the one before, and it takes the end of the shadow for a part of it
(`findsAlias_iff`).
-/

namespace BS.ShadowCode

namespace Shadow

variable {heap : Heap} {mapped p : Ptr} {cells : Cells} {m : Mem Byte}
variable {s : Shadow} {f : Finalized} {k W a b x y : Nat}

/-! ## Windows -/

/-- Numbers less than a window apart with the same low bits are the same. -/
theorem eq_of_mod (h : a % W = b % W) (h₁ : a < b + W) (h₂ : b < a + W) : a = b := by
  rcases Nat.le_total a b with hle | hle
  · have hd := Nat.sub_mod_eq_zero_of_mod_eq h.symm
    rw [Nat.mod_eq_of_lt (by omega)] at hd
    omega
  · have hd := Nat.sub_mod_eq_zero_of_mod_eq h
    rw [Nat.mod_eq_of_lt (by omega)] at hd
    omega

/-- The window of the larger of two numbers is that of the smaller, or a later one. -/
theorem window_le_window (h : x ≤ y) :
    x / W = y / W ∨ x / W * W + W ≤ y / W * W := by
  rcases Nat.eq_or_lt_of_le (Nat.div_le_div_right (c := W) h) with h | h
  · exact .inl h
  · exact .inr (by rw [← Nat.succ_mul]; exact Nat.mul_le_mul_right W h)

/-! ## `get_aligned_ptr` -/

/-- The alias in the window of the entry. -/
def entryAlias (s : Shadow) (entry : Nat) (p : Ptr) : Ptr :=
  p &&& s.mask ||| s.getPos entry &&& ~~~s.mask

theorem getAlignedPtr_eq {entry : Nat} (hf : s.finalized = true) (hne : s.segments ≠ [])
    (hentry : s.entrySegment = some entry) (hp : p ≠ nullptr) (he : s.getPos entry ≠ nullptr) :
    s.getAlignedPtr p = do
      let a ← if s.entryAlias entry p < s.getPos s.front then
          Pointers.addOffset (s.entryAlias entry p) (s.mask + 1)
        else .ok (s.entryAlias entry p)
      return if a < s.getPos s.front ∨ s.getEnd s.back < a then nullptr else a := by
  obtain ⟨i, l, hseg⟩ := List.exists_cons_of_ne_nil hne
  obtain ⟨j, hj⟩ : ∃ j, s.segments.getLast? = some j := ⟨_, List.getLast?_eq_some_getLast hne⟩
  have hfront : s.segments.head? = some s.front := by
    rw [front, hseg]
    rfl
  have hback : s.segments.getLast? = some s.back := by
    rw [back, List.getLastD_eq_getLast?, hj]
    rfl
  have hmasked : Pointers.setMaskedBase p (s.getPos entry) s.mask = .ok (s.entryAlias entry p) := by
    unfold Pointers.setMaskedBase Pointers.applyMask Pointers.applyRmask
    rw [ensure_true hp, ensure_true he]
    rfl
  unfold getAlignedPtr
  rw [ensure_true hf, hfront, hback, hentry]
  show (Pointers.setMaskedBase p (s.getPos entry) s.mask >>= _) = _
  rw [hmasked]
  rfl

/-- A shadow with an entry inside it, that spans less than a window. -/
structure Spanning (s : Shadow) (entry : Nat) : Prop where
  bits : s.alignBits < 64
  finalized : s.finalized = true
  segments : s.segments ≠ []
  hasEntry : s.entrySegment = some entry
  first : s.getPos s.front ≠ nullptr
  start_le : (s.getPos s.front).toNat ≤ (s.getPos entry).toNat
  le_stop : (s.getPos entry).toNat ≤ (s.getEnd s.back).toNat
  span : (s.getEnd s.back).toNat < (s.getPos s.front).toNat + 2 ^ s.alignBits

namespace Spanning

variable {entry : Nat}

theorem start_pos (h : Spanning s entry) : 0 < (s.getPos s.front).toNat :=
  Nat.pos_of_ne_zero fun h0 => h.first (BitVec.eq_of_toNat_eq h0)

theorem toNat_entryAlias (h : Spanning s entry) (p : Ptr) :
    (s.entryAlias entry p).toNat = p.toNat % 2 ^ s.alignBits +
      ((s.getPos entry).toNat - (s.getPos entry).toNat % 2 ^ s.alignBits) := by
  rw [entryAlias, Shadow.mask, getMask_eq, toNat_splice h.bits]

theorem entryAlias_mod (h : Spanning s entry) (p : Ptr) :
    (s.entryAlias entry p).toNat % 2 ^ s.alignBits = p.toNat % 2 ^ s.alignBits := by
  rw [h.toNat_entryAlias, Nat.add_mod,
    Nat.mod_eq_zero_of_dvd (Nat.dvd_sub_mod (s.getPos entry).toNat), Nat.add_zero, Nat.mod_mod,
    Nat.mod_mod]

/-- The alias in the window behind that of the entry. -/
theorem toNat_next (h : Spanning s entry) (p : Ptr) :
    (s.entryAlias entry p + (s.mask + 1)).toNat =
      ((s.entryAlias entry p).toNat + 2 ^ s.alignBits) % 2 ^ 64 := by
  have hmask : (s.mask + 1).toNat = 2 ^ s.alignBits := by
    have hlow := toNat_lowMask h.bits
    have hpos := Nat.two_pow_pos s.alignBits
    have hlt : 2 ^ s.alignBits < 2 ^ 64 := Nat.pow_lt_pow_right (by decide) h.bits
    rw [Shadow.mask, getMask_eq, BitVec.toNat_add, hlow]
    show (2 ^ s.alignBits - 1 + 1) % 2 ^ 64 = _
    rw [Nat.sub_add_cancel hpos, Nat.mod_eq_of_lt hlt]
  rw [BitVec.toNat_add, hmask]

theorem eq_do (h : Spanning s entry) (hp : p ≠ nullptr) :
    s.getAlignedPtr p = do
      let a ← if s.entryAlias entry p < s.getPos s.front then
          Pointers.addOffset (s.entryAlias entry p) (s.mask + 1)
        else .ok (s.entryAlias entry p)
      return if a < s.getPos s.front ∨ s.getEnd s.back < a then nullptr else a := by
  refine getAlignedPtr_eq h.finalized h.segments h.hasEntry hp fun he => ?_
  have h₁ := h.start_pos
  have h₂ := h.start_le
  rw [he] at h₂
  exact absurd h₂ (Nat.not_le.mpr h₁)

/-- The alias in the window of the entry is not in front of the shadow. -/
theorem eq_window (h : Spanning s entry) (hp : p ≠ nullptr)
    (hge : ¬ s.entryAlias entry p < s.getPos s.front) :
    s.getAlignedPtr p =
      .ok (if s.getEnd s.back < s.entryAlias entry p then nullptr else s.entryAlias entry p) := by
  rw [h.eq_do hp, if_neg hge]
  show Except.ok (ite _ _ _) = _
  simp only [hge, false_or]

theorem eq_next (h : Spanning s entry) (hp : p ≠ nullptr)
    (hlt : s.entryAlias entry p < s.getPos s.front) (hne : s.entryAlias entry p ≠ nullptr) :
    s.getAlignedPtr p =
      .ok (if s.entryAlias entry p + (s.mask + 1) < s.getPos s.front ∨
          s.getEnd s.back < s.entryAlias entry p + (s.mask + 1) then nullptr
        else s.entryAlias entry p + (s.mask + 1)) := by
  rw [h.eq_do hp, if_pos hlt, Pointers.addOffset, ensure_true hne]
  rfl

theorem ne_ok (h : Spanning s entry) (hp : p ≠ nullptr)
    (hlt : s.entryAlias entry p < s.getPos s.front) (hnull : s.entryAlias entry p = nullptr)
    (q : Ptr) : s.getAlignedPtr p ≠ .ok q := by
  rw [h.eq_do hp, if_pos hlt, hnull]
  intro h
  cases h

/-- A window starts at a multiple. -/
theorem base_eq (e W : Nat) : e - e % W = e / W * W := by
  have := Nat.div_add_mod e W
  rw [Nat.mul_comm] at this
  omega

/-- When `get_aligned_ptr` meets its assertion, or returns what it should not. -/
theorem reachable (h : Spanning s entry) (hp : p ≠ nullptr) (hf : s.FindsAlias p) :
    s.Reachable entry p := by
  obtain ⟨q, hq, hfound, hnone⟩ := hf
  have ha := h.toNat_entryAlias p
  have hmod := h.entryAlias_mod p
  have hpos := h.start_pos
  have h₁ := h.start_le
  have h₂ := h.le_stop
  have h₃ := h.span
  have hW := Nat.two_pow_pos s.alignBits
  have hr := Nat.mod_lt p.toNat hW
  have he := Nat.mod_lt (s.getPos entry).toNat hW
  have hstop := (s.getEnd s.back).isLt
  constructor
  · intro hend
    have hnull : q = nullptr := hnone fun a ⟨hs, hlt, hal⟩ => by
      have hs := BitVec.le_def.mp hs
      have hlt := BitVec.lt_def.mp hlt
      have := eq_of_mod (hal.trans hend.symm) (by omega) (by omega)
      omega
    have hzero : (nullptr : Ptr).toNat = 0 := rfl
    by_cases hlt : s.entryAlias entry p < s.getPos s.front
    · by_cases h0 : s.entryAlias entry p = nullptr
      · exact h.ne_ok hp hlt h0 q hq
      · rw [h.eq_next hp hlt h0] at hq
        have hnext := h.toNat_next p
        have hlt' := BitVec.lt_def.mp hlt
        rcases Nat.lt_or_ge ((s.entryAlias entry p).toNat + 2 ^ s.alignBits) (2 ^ 64) with ho | ho
        · rw [Nat.mod_eq_of_lt ho] at hnext
          have heq := eq_of_mod (a := (s.entryAlias entry p).toNat + 2 ^ s.alignBits)
            (b := (s.getEnd s.back).toNat) (W := 2 ^ s.alignBits)
            (by rw [Nat.add_mod_right, hmod]; exact hend.symm) (by omega) (by omega)
          rw [if_neg (by rw [BitVec.lt_def, BitVec.lt_def]; omega)] at hq
          rw [Except.ok.inj hq, hnull, hzero] at hnext
          omega
        · have heq := eq_of_mod (hmod.trans hend.symm) (by omega) (by omega)
          omega
    · rw [h.eq_window hp hlt] at hq
      rw [BitVec.lt_def] at hlt
      have heq := eq_of_mod (hmod.trans hend.symm) (by omega) (by omega)
      rw [if_neg (by rw [BitVec.lt_def]; omega)] at hq
      rw [Except.ok.inj hq, hnull, hzero] at heq
      omega
  · by_contra hw
    obtain ⟨hne, hge⟩ := not_or.mp hw
    have hwin := (window_le_window h₁).resolve_left hne
    have hs := Nat.div_add_mod (s.getPos s.front).toNat (2 ^ s.alignBits)
    rw [Nat.mul_comm] at hs
    rw [base_eq] at ha
    have hbase := base_eq (s.getPos entry).toNat (2 ^ s.alignBits)
    have hb : (BitVec.ofNat 64 ((s.getPos s.front).toNat / 2 ^ s.alignBits * 2 ^ s.alignBits +
        p.toNat % 2 ^ s.alignBits)).toNat =
          (s.getPos s.front).toNat / 2 ^ s.alignBits * 2 ^ s.alignBits + p.toNat % 2 ^ s.alignBits := by
      rw [BitVec.toNat_ofNat, Nat.mod_eq_of_lt (by omega)]
    generalize hbe : BitVec.ofNat 64 ((s.getPos s.front).toNat / 2 ^ s.alignBits * 2 ^ s.alignBits +
        p.toNat % 2 ^ s.alignBits) = b at hb
    have hal : s.AliasIn p b := by
      refine ⟨BitVec.le_def.mpr (by omega), BitVec.lt_def.mpr (by omega), ?_⟩
      unfold Aliases
      rw [hb, Nat.mul_add_mod_self_right, Nat.mod_mod]
    have hqb := hfound b hal
    have hlt : ¬ s.entryAlias entry p < s.getPos s.front := by
      rw [BitVec.lt_def]
      omega
    rw [h.eq_window hp hlt] at hq
    have hzero : (nullptr : Ptr).toNat = 0 := rfl
    split at hq
    · have := congrArg BitVec.toNat ((Except.ok.inj hq).trans hqb)
      omega
    · have := congrArg BitVec.toNat ((Except.ok.inj hq).trans hqb)
      omega
  · rintro ⟨hlt, h0⟩
    rw [Nat.mod_eq_of_lt hlt, h0] at ha
    have hnull : s.entryAlias entry p = nullptr := BitVec.eq_of_toNat_eq (by rw [ha]; simp [nullptr])
    refine h.ne_ok hp ?_ hnull q hq
    rw [BitVec.lt_def]
    omega

/-- Otherwise there is no alias but the one it looks at. -/
theorem findsAlias (h : Spanning s entry) (hp : p ≠ nullptr) (hr : s.Reachable entry p) :
    s.FindsAlias p := by
  have ha := h.toNat_entryAlias p
  have hmod := h.entryAlias_mod p
  have hpos := h.start_pos
  have h₁ := h.start_le
  have h₂ := h.le_stop
  have h₃ := h.span
  have hW := Nat.two_pow_pos s.alignBits
  have hrlt := Nat.mod_lt p.toNat hW
  have he := Nat.mod_lt (s.getPos entry).toNat hW
  have hpow : 2 ^ s.alignBits < 2 ^ 64 := Nat.pow_lt_pow_right (by decide) h.bits
  have hnotEnd : ∀ a : Ptr, a.toNat % 2 ^ s.alignBits = p.toNat % 2 ^ s.alignBits →
      a.toNat ≠ (s.getEnd s.back).toNat := fun a h he => hr.notEnd (by unfold Aliases; rw [← he, h])
  by_cases hlt : s.entryAlias entry p < s.getPos s.front
  · have hlt' := BitVec.lt_def.mp hlt
    have h0 : s.entryAlias entry p ≠ nullptr := by
      intro h0
      have hz : (s.entryAlias entry p).toNat = 0 := by rw [h0]; rfl
      exact hr.notNull ⟨by omega, by omega⟩
    have hnext := h.toNat_next p
    have hnmod : (s.entryAlias entry p + (s.mask + 1)).toNat % 2 ^ s.alignBits =
        p.toNat % 2 ^ s.alignBits := by
      rw [hnext, Nat.mod_mod_of_dvd _ (Nat.pow_dvd_pow 2 h.bits.le), Nat.add_mod_right, hmod]
    refine ⟨_, h.eq_next hp hlt h0, fun a hal => ?_, fun hno => ?_⟩
    · obtain ⟨hs, hl, hal⟩ := hal
      have hs := BitVec.le_def.mp hs
      have hl := BitVec.lt_def.mp hl
      rcases Nat.lt_or_ge ((s.entryAlias entry p).toNat + 2 ^ s.alignBits) (2 ^ 64) with ho | ho
      · rw [Nat.mod_eq_of_lt ho] at hnext
        have heq : s.entryAlias entry p + (s.mask + 1) = a :=
          BitVec.eq_of_toNat_eq (eq_of_mod (hnmod.trans hal.symm) (by omega) (by omega))
        rw [heq, if_neg (by rw [BitVec.lt_def, BitVec.lt_def]; omega)]
      · have := a.isLt
        have := eq_of_mod (hmod.trans hal.symm) (by omega) (by omega)
        omega
    · rw [ite_eq_left_iff]
      intro hc
      obtain ⟨hc₁, hc₂⟩ := not_or.mp hc
      rw [BitVec.lt_def] at hc₁ hc₂
      have hne := hnotEnd _ hnmod
      exact absurd ⟨BitVec.le_def.mpr (by omega), BitVec.lt_def.mpr (by omega), hnmod⟩ (hno _)
  · have hge := hlt
    rw [BitVec.lt_def] at hge
    refine ⟨_, h.eq_window hp hlt, fun a hal => ?_, fun hno => ?_⟩
    · obtain ⟨hs, hl, hal⟩ := hal
      have hs := BitVec.le_def.mp hs
      have hl := BitVec.lt_def.mp hl
      have hbase := Nat.div_add_mod' (s.getPos entry).toNat (2 ^ s.alignBits)
      have hstart := Nat.div_add_mod' (s.getPos s.front).toNat (2 ^ s.alignBits)
      have hnear : (s.entryAlias entry p).toNat < a.toNat + 2 ^ s.alignBits := by
        rcases hr.window with hw | hw
        · have hwin : (s.getPos s.front).toNat / 2 ^ s.alignBits * 2 ^ s.alignBits =
              (s.getPos entry).toNat / 2 ^ s.alignBits * 2 ^ s.alignBits := by rw [hw]
          omega
        · have hdiv := Nat.div_le_div_right (c := 2 ^ s.alignBits)
            (show (s.getPos entry).toNat ≤ (s.getPos s.front).toNat + 2 ^ s.alignBits by omega)
          rw [Nat.add_div_right _ hW] at hdiv
          have := Nat.mul_le_mul_right (2 ^ s.alignBits) hdiv
          rw [Nat.succ_mul] at this
          omega
      have heq : s.entryAlias entry p = a :=
        BitVec.eq_of_toNat_eq (eq_of_mod (hmod.trans hal.symm) hnear (by omega))
      rw [heq, if_neg (by rw [BitVec.lt_def]; omega)]
    · rw [ite_eq_left_iff]
      intro hc
      rw [BitVec.lt_def] at hc
      have hne := hnotEnd _ hmod
      exact absurd ⟨BitVec.le_def.mpr (by omega), BitVec.lt_def.mpr (by omega), hmod⟩ (hno _)

end Spanning

theorem Finished.spanning {last : Nat} {base : Ptr} {s₀ : Shadow} {entry : Nat} (hk : k < 64)
    (hf : Finished s₀ last mapped base m cells f) (halign : s₀.alignBits = k)
    (hentry : f.shadow.entrySegment = some entry) (hle : entry ≤ last)
    (hspan : (f.shadow.getEnd f.shadow.back).toNat < (f.shadow.getPos f.shadow.front).toNat + 2 ^ k) :
    Spanning f.shadow entry := by
  have hbits := hf.alignBits.trans halign
  have hfront := front_eq hf.segments
  have hback := back_eq hf.segments
  rw [hfront, hback] at hspan
  constructor
  · rwa [hbits]
  · exact hf.finalized
  · rw [hf.segments]
    simp
  · exact hentry
  · rw [hfront]
    exact hf.ne_null
  · rw [hfront]
    exact BitVec.le_def.mp (hf.sorted (Nat.zero_le entry) hle)
  · have hlast := BitVec.le_def.mp (hf.sorted hle (Nat.le_refl last))
    have hstop := hf.toNat_getEnd
    rw [← hf.add_reach (Nat.le_refl last)] at hstop
    rw [hback]
    omega
  · rwa [hfront, hback, hbits]

/-- `get_aligned_ptr` finds the alias in a shadow that spans less than a window exactly for
these. -/
theorem findsAlias_iff {calls : List Call} {entry : Nat} (hk : k < 64)
    (hb : build k heap calls = .ok s) (h : s.finalize mapped m cells = .ok f)
    (hentry : f.shadow.entrySegment = some entry)
    (hspan : (f.shadow.getEnd f.shadow.back).toNat < (f.shadow.getPos f.shadow.front).toNat + 2 ^ k)
    (hp : p ≠ nullptr) : f.shadow.FindsAlias p ↔ f.shadow.Reachable entry p := by
  obtain ⟨s', last, base, hplace, hlen, hplaced, hf⟩ := finalize_finished hb h
  have hlt : entry < calls.length := by
    refine (build_built hb).2 entry ?_
    rw [← placeAll_entry hplace, ← hf.entry]
    exact hentry
  have hs := hf.spanning hk hplaced.alignBits hentry (by omega) hspan
  exact ⟨hs.reachable hp, hs.findsAlias hp⟩

/-- The alias of the jne, in the shadow with one. -/
theorem findsAlias_iff_jne : ∃ s f, build 32 (jneHeap 0x401002) threeCalls = .ok s ∧
    s.finalize 0x7f0000000000 (fun _ => 0) (fun _ => ⟨0, 0⟩) = .ok f ∧
    f.shadow.FindsAlias 0x401002 := by
  have hrun : ((build 32 (jneHeap 0x401002) threeCalls).bind fun s =>
      (s.finalize 0x7f0000000000 (fun _ => 0) fun _ => ⟨0, 0⟩).map fun f =>
        (f.shadow.entrySegment, f.shadow.alignBits, f.shadow.getPos f.shadow.front,
          f.shadow.getEnd f.shadow.back, f.shadow.getPos 0)) =
      .ok (some 0, 32, 0x7f0000400ffd, 0x7f0000401012, 0x7f0000400ffd) := by
    decide
  obtain ⟨s, f, hb, hf, hmark⟩ := exists_of_run hrun
  simp only [Prod.mk.injEq] at hmark
  obtain ⟨hentry, hbits, hstart, hstop, hpos⟩ := hmark
  refine ⟨s, f, hb, hf, (findsAlias_iff (by decide) hb hf hentry ?_ (by decide)).mpr ?_⟩
  · rw [hstart, hstop]
    decide
  · constructor
    · rw [hbits, hstop]
      decide
    · rw [hbits, hstart, hpos]
      decide
    · rw [hbits, hpos]
      decide

/-- The end of the shadow is found as an alias, but nothing of the shadow is there. -/
theorem end_not_findsAlias : ¬ ∀ s f, build 32 (jneHeap 0x401002) threeCalls = .ok s →
    s.finalize 0x7f0000000000 (fun _ => 0) (fun _ => ⟨0, 0⟩) = .ok f →
    (f.shadow.getEnd f.shadow.back).toNat < (f.shadow.getPos f.shadow.front).toNat + 2 ^ 32 →
    ∀ p ≠ nullptr, f.shadow.FindsAlias p := by
  intro h
  have hrun : ((build 32 (jneHeap 0x401002) threeCalls).bind fun s =>
      (s.finalize 0x7f0000000000 (fun _ => 0) fun _ => ⟨0, 0⟩).map fun f =>
        (f.shadow.getAlignedPtr 0x401012, f.shadow.alignBits, f.shadow.getPos f.shadow.front,
          f.shadow.getEnd f.shadow.back)) =
      .ok (.ok 0x7f0000401012, 32, 0x7f0000400ffd, 0x7f0000401012) := by
    decide
  obtain ⟨s, f, hb, hf, hptr⟩ := exists_of_run hrun
  simp only [Prod.mk.injEq] at hptr
  obtain ⟨hptr, hbits, hstart, hstop⟩ := hptr
  obtain ⟨q, hq, -, hnone⟩ := h s f hb hf (by rw [hstart, hstop]; decide) 0x401012 (by decide)
  obtain rfl : (0x7f0000401012 : Ptr) = q := Except.ok.inj (hptr.symm.trans hq)
  refine absurd (hnone fun a ⟨hs, hlt, ha⟩ => ?_) (by decide)
  rw [hstart] at hs
  rw [hstop] at hlt
  rw [hbits] at ha
  have hs := BitVec.le_def.mp hs
  have hlt := BitVec.lt_def.mp hlt
  unfold Aliases at ha
  change 0x7f0000400ffd ≤ a.toNat at hs
  change a.toNat < 0x7f0000401012 at hlt
  change a.toNat % 2 ^ 32 = 0x401012 at ha
  omega

end Shadow

end BS.ShadowCode
