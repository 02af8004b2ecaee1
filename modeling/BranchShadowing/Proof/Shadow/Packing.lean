import BranchShadowing.Proof.Shadow.Placement

/-!
# Packing loose segments

If the loose segments fit into the room in front of a segment, numbers of 64 bits are as
good as natural numbers, and they are packed as they should be (`placeLoose_chain`). But
that they fit is asserted of signed numbers, and holds of segments that do not.
-/

namespace BS.ShadowCode.Shadow

variable {heap heap' : Heap} {spacing : Ptr} {s s' : Shadow} {back i j prev segment : Nat}
  {l : List Nat}

/-! ## Chains of segments -/

theorem sizes_cons (heap : Heap) (i : Nat) (l : List Nat) :
    sizes heap (i :: l) = (heap i).getSize.toNat + sizes heap l := by
  rw [sizes, List.map_cons, List.sum_cons]
  rfl

theorem sizes_reverse (heap : Heap) (l : List Nat) : sizes heap l.reverse = sizes heap l := by
  unfold sizes
  rw [List.map_reverse, List.sum_reverse]

theorem sizes_congr (h : ∀ i ∈ l, (heap' i).getSize = (heap i).getSize) :
    sizes heap' l = sizes heap l :=
  congrArg List.sum (List.map_congr_left fun i hi => by rw [h i hi])

/-- From the first of a chain to the last there are their sizes and the gaps. -/
theorem pos_of_chain {gap : Nat} (h : (i :: l ++ [j]).IsChain (Behind gap heap)) :
    (heap i).pos.toNat + sizes heap (i :: l) + (l.length + 1) * gap = (heap j).pos.toNat := by
  induction l generalizing i with
  | nil =>
    have hb := (List.isChain_cons_cons.mp h).1
    unfold Behind past at hb
    rw [sizes_cons, ← hb, sizes, List.map_nil, List.sum_nil, List.length_nil]
    omega
  | cons k l ih =>
    obtain ⟨hb, hl⟩ := List.isChain_cons_cons.mp h
    unfold Behind past at hb
    rw [← ih hl, ← hb, sizes_cons, List.length_cons]
    ring

/-! ## In front of a segment -/

/-- The segment ends the spacing in front of a position that leaves room for it. -/
theorem setEnd_pos {seg : ShadowSegment} {ptr : Ptr}
    (h : seg.getSize.toNat + spacing.toNat ≤ ptr.toNat) :
    (seg.setEnd ptr (-spacing)).pos.toNat + seg.getSize.toNat + spacing.toNat = ptr.toNat := by
  simp only [ShadowSegment.setEnd]
  bv_omega

/-- The loop places each segment the spacing in front of the one before, if there is room. -/
theorem placeLoose_chain (hnodup : (prev :: l).Nodup)
    (hfit : sizes heap l + l.length * spacing.toNat ≤ (heap prev).pos.toNat) :
    (prev :: l).IsChain fun j i => Behind spacing.toNat (placeLoose spacing l prev heap) i j := by
  induction l generalizing prev heap with
  | nil => exact List.isChain_singleton _
  | cons i rest ih =>
    obtain ⟨hprev, hnodup⟩ := List.nodup_cons.mp hnodup
    obtain ⟨hi, hrest⟩ := List.nodup_cons.mp hnodup
    obtain ⟨hne, hprev⟩ := List.ne_and_not_mem_of_not_mem_cons hprev
    rw [sizes_cons, List.length_cons, Nat.succ_mul] at hfit
    have hpos := @setEnd_pos spacing (heap i) (heap prev).pos (by omega)
    rw [placeLoose]
    generalize hh : Function.update heap i ((heap i).setEnd (heap prev).pos (-spacing)) = heap₁
    have hheap₁ : heap₁ i = (heap i).setEnd (heap prev).pos (-spacing) := by
      rw [← hh, Function.update_self]
    refine List.isChain_cons_cons.mpr ⟨?_, ih hnodup ?_⟩
    · unfold Behind past
      rw [placeLoose_of_not_mem hi, placeLoose_of_not_mem hprev, hheap₁, ← hh,
        Function.update_of_ne hne]
      exact hpos
    · have hsizes : sizes heap₁ rest = sizes heap rest := by
        refine sizes_congr fun j hj => ?_
        rw [← hh, Function.update_of_ne (by rintro rfl; exact hi hj)]
      rw [hsizes, hheap₁]
      omega

/-- The numbers that `place_segment` computes, if the loose segments fit. -/
theorem spacing_toNat (hback : s.segments.getLast? = some back)
    (hroom : s.looseSegments.length ≤ maxSize)
    (hfit : past s.heap back + sizes s.heap s.looseSegments ≤ (s.getPos segment).toNat)
    (h : s.spacing segment = .ok spacing) :
    spacing.toNat = s.freeSpace back segment / s.looseSegments.length := by
  have hpos := (s.getPos segment).isLt
  have htotal : ((s.looseSegments.map fun i => (s.heap i).getSize).sum).toNat =
      sizes s.heap s.looseSegments := by
    have hlt : sizes s.heap s.looseSegments < 2 ^ 64 := by omega
    unfold sizes at hlt ⊢
    generalize s.looseSegments = l at hlt
    induction l with
    | nil => rfl
    | cons i l ih =>
      simp only [List.map_cons, List.sum_cons] at hlt ⊢
      have ih := ih (by omega)
      bv_omega
  unfold Shadow.spacing at h
  rw [hback] at h
  obtain ⟨_, -, h⟩ := bind_eq_ok.mp h
  obtain rfl := Except.ok.inj h
  have hlen : (BitVec.ofNat 64 s.looseSegments.length).toNat = s.looseSegments.length := by
    rw [BitVec.toNat_ofNat, Nat.mod_eq_of_lt (by simp only [maxSize] at hroom; omega)]
  have hend : (s.getEnd back).toNat = past s.heap back := by
    unfold past at hfit ⊢
    simp only [Shadow.getEnd, ShadowSegment.getEnd]
    bv_omega
  rw [BitVec.toNat_udiv, hlen]
  congr 1
  unfold freeSpace
  generalize (s.looseSegments.map fun i => (s.heap i).getSize).sum = total at htotal
  bv_omega

/-- What is left over comes before the first. -/
theorem first_of_chain {gap free : Nat} (hsizes : sizes heap' l = sizes heap l)
    (hback : heap' back = heap back)
    (hfree : past heap back + sizes heap l + free = (heap' segment).pos.toNat)
    (hgap : gap = free / l.length) (hchain : (l ++ [segment]).IsChain (Behind gap heap')) :
    ∀ i ∈ l.head?, Behind (free % l.length) heap' back i := by
  intro i hi
  obtain ⟨rest, rfl⟩ := List.head?_eq_some_iff.mp hi
  have hsum := pos_of_chain hchain
  have hdiv := Nat.div_add_mod free (i :: rest).length
  rw [← hgap, List.length_cons] at hdiv
  rw [hsizes] at hsum
  unfold Behind past at *
  rw [hback, List.length_cons]
  omega

theorem apart_of_chain {gap rest : Nat} (hl : l ≠ []) (hfirst : ∀ i ∈ l.head?, Behind rest heap back i)
    (hchain : (l ++ [segment]).IsChain (Behind gap heap)) :
    (back :: l ++ [segment]).IsChain fun i j => past heap i ≤ (heap j).pos.toNat := by
  have hle : ∀ {gap i j}, Behind gap heap i j → past heap i ≤ (heap j).pos.toNat := by
    intro gap i j h
    unfold Behind at h
    omega
  obtain ⟨i, l, rfl⟩ := List.exists_cons_of_ne_nil hl
  exact List.isChain_cons_cons.mpr ⟨hle (hfirst i rfl), hchain.imp fun _ _ => hle⟩

/-- Segments that fit are packed. -/
theorem placeSegment_packed (hback : s.segments.getLast? = some back)
    (hloose : s.looseSegments ≠ []) (hnodup : (back :: s.looseSegments ++ [segment]).Nodup)
    (hroom : s.looseSegments.length ≤ maxSize)
    (hfit : past s.heap back + sizes s.heap s.looseSegments ≤ (s.getPos segment).toNat)
    (h : s.placeSegment segment = .ok s') : Packed s back segment s' := by
  obtain ⟨hl, -⟩ | ⟨-, spacing, hs, -, rfl⟩ := placeSegment_ok h
  · exact absurd hl hloose
  have hgap := spacing_toNat hback hroom hfit hs
  have hkept : ∀ j ∉ s.looseSegments,
      placeLoose spacing s.looseSegments.reverse segment s.heap j = s.heap j := fun j hj =>
    placeLoose_of_not_mem fun h => hj (List.mem_reverse.mp h)
  obtain ⟨hnotback, hnodup⟩ := List.nodup_cons.mp hnodup
  have hnotsegment : segment ∉ s.looseSegments := fun hmem =>
    (List.nodup_append.mp hnodup).2.2 segment hmem segment (List.mem_singleton_self _) rfl
  have hchain : (s.looseSegments ++ [segment]).IsChain (Behind spacing.toNat
      (placeLoose spacing s.looseSegments.reverse segment s.heap)) := by
    have hrev : (segment :: s.looseSegments.reverse).Nodup :=
      List.nodup_cons.mpr ⟨fun h => hnotsegment (List.mem_reverse.mp h),
        (List.reverse_perm _).nodup_iff.mpr (List.nodup_append.mp hnodup).1⟩
    have hmul := Nat.mul_div_le (s.freeSpace back segment) s.looseSegments.length
    rw [← hgap, freeSpace, getPos] at hmul
    rw [getPos] at hfit
    have hroom : sizes s.heap s.looseSegments.reverse +
        s.looseSegments.reverse.length * spacing.toNat ≤ (s.heap segment).pos.toNat := by
      rw [sizes_reverse, List.length_reverse]
      omega
    have hchain := placeLoose_chain hrev hroom
    rwa [← List.isChain_reverse, List.reverse_cons, List.reverse_reverse] at hchain
  have hsizes : ∀ l, sizes (placeLoose spacing s.looseSegments.reverse segment s.heap) l =
      sizes s.heap l := fun l => sizes_congr fun j _ => congrArg SegKind.size (placeLoose_kind _ _ _ j)
  have hfree : past s.heap back + sizes s.heap s.looseSegments + s.freeSpace back segment =
      (placeLoose spacing s.looseSegments.reverse segment s.heap segment).pos.toNat := by
    rw [hkept segment hnotsegment, freeSpace]
    exact Nat.add_sub_cancel' hfit
  have hfirst := first_of_chain (hsizes _)
    (hkept back fun h => hnotback (List.mem_append_left _ h)) hfree hgap hchain
  exact ⟨rfl, rfl, hkept, apart_of_chain hloose hfirst hchain, hgap ▸ hchain, hfirst⟩

/-- Segments that are packed fit. -/
theorem Packed.fits (hloose : s.looseSegments ≠ [])
    (hnodup : (back :: s.looseSegments ++ [segment]).Nodup)
    (hsize : ∀ j, (s'.heap j).getSize = (s.heap j).getSize) (h : Packed s back segment s') :
    past s.heap back + sizes s.heap s.looseSegments ≤ (s.getPos segment).toNat := by
  obtain ⟨hnotback, hnodup⟩ := List.nodup_cons.mp hnodup
  have hnotsegment : segment ∉ s.looseSegments := fun hmem =>
    (List.nodup_append.mp hnodup).2.2 segment hmem segment (List.mem_singleton_self _) rfl
  have hback := h.kept back fun h => hnotback (List.mem_append_left _ h)
  have hsizes : sizes s'.heap s.looseSegments = sizes s.heap s.looseSegments :=
    sizes_congr fun j _ => hsize j
  have hfirst := h.first
  have hspaced := h.spaced
  rw [getPos, ← h.kept segment hnotsegment, ← hsizes]
  generalize s.looseSegments = loose at *
  obtain ⟨i, l, rfl⟩ := List.exists_cons_of_ne_nil hloose
  have hsum := pos_of_chain hspaced
  have hfirst := hfirst i rfl
  unfold Behind past at *
  rw [hback] at hfirst
  omega

theorem placeSegment_size (h : s.placeSegment segment = .ok s') (j : Nat) :
    (s'.heap j).getSize = (s.heap j).getSize := by
  obtain ⟨-, rfl⟩ | ⟨-, spacing, -, -, rfl⟩ := placeSegment_ok h
  · rfl
  · exact congrArg SegKind.size (placeLoose_kind _ _ _ j)

/-! ## Behind the last one -/

theorem placeRest_of_not_mem (h : placeRest l prev s = .ok s') (hj : j ∉ l) :
    s'.heap j = s.heap j := by
  induction l generalizing prev s with
  | nil => rw [← Except.ok.inj h]
  | cons i l ih =>
    obtain ⟨hne, hl⟩ := List.ne_and_not_mem_of_not_mem_cons hj
    obtain ⟨seg, -, h⟩ := bind_eq_ok.mp h
    rw [ih h hl]
    exact Function.update_of_ne hne _ _

theorem placeRest_segments (h : placeRest l prev s = .ok s') :
    s'.segments = s.segments ++ l := by
  induction l generalizing prev s with
  | nil => rw [← Except.ok.inj h, List.append_nil]
  | cons i l ih =>
    obtain ⟨seg, -, h⟩ := bind_eq_ok.mp h
    rw [ih h, List.append_assoc, List.singleton_append]

theorem setPos_ok {seg seg' : ShadowSegment} {ptr offset : Ptr} (h : seg.setPos ptr offset = .ok seg') :
    seg'.pos = ptr + offset ∧ seg'.getSize = seg.getSize := by
  obtain ⟨_, -, h⟩ := bind_eq_ok.mp h
  obtain rfl := Except.ok.inj h
  exact ⟨rfl, rfl⟩

/-- The segments follow each other unless the address space ends. -/
theorem placeRest_chain (hnodup : (prev :: l).Nodup) (hl : l ≠ [])
    (h : placeRest l prev s = .ok s') :
    (prev :: l).IsChain (Behind segmentSpacing.toNat s'.heap) ↔
      past s.heap prev + sizes s.heap l.dropLast + l.length * segmentSpacing.toNat < 2 ^ 64 := by
  have h2 : segmentSpacing.toNat = 2 := rfl
  induction l generalizing prev s with
  | nil => exact absurd rfl hl
  | cons i rest ih =>
    obtain ⟨hprev, hnodup⟩ := List.nodup_cons.mp hnodup
    obtain ⟨hi, -⟩ := List.nodup_cons.mp hnodup
    obtain ⟨seg, hset, h⟩ := bind_eq_ok.mp h
    obtain ⟨hpos, hsize⟩ := setPos_ok hset
    have hheapprev := (placeRest_of_not_mem h fun hmem => hprev (List.mem_cons_of_mem _ hmem)).trans
      (Function.update_of_ne (List.ne_of_not_mem_cons hprev) _ _)
    have hheapi := (placeRest_of_not_mem h hi).trans (Function.update_self ..)
    have hpos : seg.pos.toNat = (past s.heap prev + segmentSpacing.toNat) % 2 ^ 64 := by
      rw [hpos]
      unfold past
      simp only [getEnd, ShadowSegment.getEnd, BitVec.toNat_add]
      omega
    have hbehind : Behind segmentSpacing.toNat s'.heap prev i ↔
        past s.heap prev + segmentSpacing.toNat < 2 ^ 64 := by
      rw [Behind, past, hheapprev, hheapi, hpos]
      unfold past
      omega
    rw [List.isChain_cons_cons, hbehind]
    by_cases hrest : rest = []
    · subst hrest
      rw [and_iff_left (List.isChain_singleton _)]
      simp [sizes]
    · refine (and_congr_right' (ih hnodup hrest h)).trans ?_
      have hpast : past (Function.update s.heap i seg) i =
          (past s.heap prev + segmentSpacing.toNat) % 2 ^ 64 + (s.heap i).getSize.toNat := by
        unfold past at hpos ⊢
        rw [Function.update_self, hpos, hsize]
      have hsizes : sizes (Function.update s.heap i seg) rest.dropLast =
          sizes s.heap rest.dropLast := by
        refine sizes_congr fun j hj => ?_
        rw [Function.update_of_ne (by rintro rfl; exact hi (List.dropLast_subset _ hj))]
      dsimp only
      rw [hpast, hsizes, List.dropLast_cons_of_ne_nil hrest, sizes_cons, List.length_cons, h2]
      omega

/-- The end of the address space is what can come in between. -/
theorem placeAll_trailing_iff (hback : s.segments.getLast? = some back)
    (hloose : s.looseSegments ≠ []) (hnodup : (back :: s.looseSegments).Nodup)
    (h : s.placeAll = .ok s') : Trailing s back s' ↔ s.trailingStart back < 2 ^ 64 := by
  unfold Shadow.placeAll at h
  rw [if_neg hloose, hback] at h
  have hchain := placeRest_chain hnodup hloose h
  exact ⟨fun ⟨_, _, hspaced⟩ => hchain.mp hspaced, fun hlt =>
    ⟨placeRest_segments h, fun _ hj => placeRest_of_not_mem h hj, hchain.mpr hlt⟩⟩

/-- Loose segments are packed just if they fit into the room that there is. -/
theorem looseSegments_packed_iff (hback : s.segments.getLast? = some back)
    (hloose : s.looseSegments ≠ []) (hroom : s.looseSegments.length ≤ maxSize) :
    (∀ segment s', (back :: s.looseSegments ++ [segment]).Nodup →
        s.placeSegment segment = .ok s' →
        (Packed s back segment s' ↔
          past s.heap back + sizes s.heap s.looseSegments ≤ (s.getPos segment).toNat)) ∧
      ∀ s', (back :: s.looseSegments).Nodup → s.placeAll = .ok s' →
        (Trailing s back s' ↔ s.trailingStart back < 2 ^ 64) :=
  ⟨fun _ _ hnodup h =>
      ⟨fun hp => hp.fits hloose hnodup (placeSegment_size h),
        fun hfit => placeSegment_packed hback hloose hnodup hroom hfit h⟩,
    fun _ hnodup h => placeAll_trailing_iff hback hloose hnodup h⟩

/-- What the segments of a run have of this: they are all different. -/
theorem Built.nodup {k n : Nat} (hb : Built k heap n s) (hback : s.segments.getLast? = some back) :
    (back :: s.looseSegments ++ [n]).Nodup := by
  obtain ⟨m, hm, hseg, hloose⟩ := hb.split
  have hnodup : (s.segments ++ s.looseSegments ++ [n]).Nodup := by
    rw [hb.all, ← List.range_succ]
    exact List.nodup_range
  obtain ⟨before, hbefore⟩ := List.getLast?_eq_some_iff.mp hback
  rw [hbefore, List.append_assoc, List.append_assoc] at hnodup
  exact (List.nodup_append.mp hnodup).2.1

/-! ## Segments in between -/

/-- What a shadow evaluates to that is built, and one more segment or none placed in it. -/
theorem exists_of_places {α : Type} {k : Nat} {calls : List Call} {g : Shadow → α} {r : α}
    (h : ((build k heap calls).bind fun s =>
      (s.placeSegment segment).bind fun _ => s.placeAll.map fun _ => g s) = .ok r) :
    ∃ s, build k heap calls = .ok s ∧ (∃ s', s.placeSegment segment = .ok s') ∧
      (∃ s', s.placeAll = .ok s') ∧ g s = r := by
  obtain ⟨s, hb, h⟩ := bind_eq_ok.mp h
  obtain ⟨s', hs', h⟩ := bind_eq_ok.mp h
  cases hall : s.placeAll with
  | error e =>
    rw [hall] at h
    cases h
  | ok s'' =>
    rw [hall] at h
    exact ⟨s, hb, ⟨s', hs'⟩, ⟨s'', hall⟩, Except.ok.inj h⟩

/-- An entry at 0x1000, three segments of 16, 4 and 5 bytes without a position, and a return
at 0x2000. -/
def looseHeap : Heap
  | 0 => ⟨.eaxWrite 1, 0x1000, []⟩
  | 1 => ⟨.nop 16, nullptr, []⟩
  | 2 => ⟨.jneEaxZero 4, nullptr, []⟩
  | 3 => ⟨.longJump 4, nullptr, []⟩
  | _ => ⟨.retq 0, 0x2000, []⟩

/-- What is left of the room in front of the return is shared among three. -/
theorem looseSegments_packed_three :
    ∃ s, build 20 looseHeap [.addEntry, .addSegment, .addSegment, .addSegment] = .ok s ∧
      (∃ s', s.placeSegment 4 = .ok s' ∧ Packed s 0 4 s') ∧
      ∃ s', s.placeAll = .ok s' ∧ Trailing s 0 s' := by
  have hrun : ((build 20 looseHeap [.addEntry, .addSegment, .addSegment, .addSegment]).bind fun s =>
      (s.placeSegment 4).bind fun _ => s.placeAll.map fun _ =>
        (s.segments.getLast?, s.looseSegments, past s.heap 0 + sizes s.heap s.looseSegments,
          (s.getPos 4).toNat, s.trailingStart 0)) =
      .ok (some 0, [1, 2, 3], 0x101e, 0x2000, 0x101f) := by
    decide
  obtain ⟨s, hs, ⟨s', hs'⟩, ⟨s'', hs''⟩, h⟩ := exists_of_places hrun
  simp only [Prod.mk.injEq] at h
  obtain ⟨hback, hloose, hroom, hpos, hstart⟩ := h
  have hpacked := looseSegments_packed_iff hback (by rw [hloose]; decide) (by rw [hloose]; decide)
  refine ⟨s, hs, ⟨s', hs', (hpacked.1 4 s' (by rw [hloose]; decide) hs').mpr ?_⟩,
    s'', hs'', (hpacked.2 s'' (by rw [hloose]; decide) hs'').mpr ?_⟩
  · rw [hroom, hpos]
    decide
  · rw [hstart]
    decide

/-- An entry at 0x1000, NOPs without a position, and a segment at 0x2000. -/
def nopHeap (nopCount : BitVec 64) : Heap
  | 0 => ⟨.eaxWrite 1, 0x1000, []⟩
  | 1 => ⟨.nop nopCount, nullptr, []⟩
  | _ => ⟨.retq 0, 0x2000, []⟩

/-- The size of the NOPs is negative as a signed number. -/
theorem nops_not_packed :
    ∃ s s', build 20 (nopHeap (-4096)) [.addEntry, .addSegment] = .ok s ∧
      s.placeSegment 2 = .ok s' ∧ ¬ Packed s 0 2 s' := by
  have hrun : ((build 20 (nopHeap (-4096)) [.addEntry, .addSegment]).bind fun s =>
      (s.placeSegment 2).bind fun _ => s.placeAll.map fun _ =>
        (s.looseSegments, past s.heap 0 + sizes s.heap s.looseSegments, (s.getPos 2).toNat)) =
      .ok ([1], 0x10000000000000005, 0x2000) := by
    decide
  obtain ⟨s, hs, ⟨s', hs'⟩, -, h⟩ := exists_of_places hrun
  simp only [Prod.mk.injEq] at h
  obtain ⟨hloose, hroom, hpos⟩ := h
  refine ⟨s, s', hs, hs', fun hp => ?_⟩
  have hfits := hp.fits (by rw [hloose]; decide) (by rw [hloose]; decide) (placeSegment_size hs')
  rw [hroom, hpos] at hfits
  exact absurd hfits (by decide)

end BS.ShadowCode.Shadow
