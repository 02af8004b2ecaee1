import BranchShadowing.Proof.Shadow.Placement

/-!
# How segments are moved

The first segment is moved to the alias of its position in the window of the entry,
and all others by the same offset, a multiple of the window (`Finished`).
-/

namespace BS.ShadowCode

namespace Shadow

variable {heap heap' : Heap} {base offset mask mapped : Ptr} {cells cells' : Cells} {m : Mem Byte}
variable {s s' : Shadow} {f : Finalized} {j k n last : Nat}

/-! ## Offsets -/

theorem foldl_applyOffset {l : List Nat} (hl : l.Nodup) (j : Nat) :
    l.foldl (fun heap i => Function.update heap i ((heap i).applyOffset offset)) heap j =
      if j ∈ l then (heap j).applyOffset offset else heap j := by
  induction l generalizing heap with
  | nil => rfl
  | cons i l ih =>
    obtain ⟨hi, hl⟩ := List.nodup_cons.mp hl
    rw [List.foldl_cons, ih hl]
    rcases eq_or_ne j i with rfl | hne
    · simp [hi]
    · simp [hne]

/-- The offset of all the segments. -/
def shift (heap : Heap) (base mask : Ptr) (front : Nat) : Ptr :=
  ((heap front).applyBase base mask).1

theorem relocate_apply {front : Nat} {rest : List Nat} (h : (front :: rest).Nodup)
    (hj : j ∈ front :: rest) :
    relocate base mask front rest heap j = (heap j).applyOffset (shift heap base mask front) := by
  obtain ⟨hf, hr⟩ := List.nodup_cons.mp h
  refine (foldl_applyOffset hr j).trans ?_
  rcases eq_or_ne j front with rfl | hne
  · rw [if_neg hf, Function.update_self]
    simp only [shift, ShadowSegment.applyBase, ShadowSegment.applyOffset]
    congr 1
    generalize (heap j).pos &&& mask ||| base &&& ~~~mask = p
    bv_omega
  · rw [if_pos (List.mem_of_ne_of_mem hne hj), Function.update_of_ne hne]
    rfl

/-- The offset is a multiple of the window. -/
theorem shift_mod (hk : k < 64) (front : Nat) :
    (shift heap base (lowMask 64 k) front).toNat % 2 ^ k = 0 := by
  refine toNat_sub_mod hk.le ?_
  rw [toNat_splice hk, Nat.add_mod, Nat.mod_eq_zero_of_dvd (Nat.dvd_sub_mod base.toNat),
    Nat.add_zero, Nat.mod_mod, Nat.mod_mod]

theorem relocate_kind {front : Nat} {rest : List Nat} (h : (front :: rest).Nodup) (j : Nat) :
    (relocate base mask front rest heap j).kind = (heap j).kind := by
  refine (congrArg ShadowSegment.kind (foldl_applyOffset (List.nodup_cons.mp h).2 j)).trans ?_
  rcases eq_or_ne j front with rfl | hne
  · rw [if_neg (List.nodup_cons.mp h).1, Function.update_self]
  · rw [Function.update_of_ne hne]
    split <;> rfl

theorem relocate_first (front : Nat) {rest : List Nat} (h : (front :: rest).Nodup) :
    (relocate base mask front rest heap front).pos =
      (heap front).pos &&& mask ||| base &&& ~~~mask := by
  rw [relocate_apply h (List.mem_cons_self ..)]
  simp only [shift, ShadowSegment.applyBase, ShadowSegment.applyOffset]
  generalize (heap front).pos &&& mask ||| base &&& ~~~mask = p
  bv_omega

/-! ## The other loops -/

theorem finalizeSegments_pos {l : List Nat} (h : finalizeSegments l heap cells = .ok (heap', cells'))
    (j : Nat) : (heap' j).kind = (heap j).kind ∧ (heap' j).pos = (heap j).pos := by
  induction l generalizing heap cells with
  | nil =>
    obtain ⟨rfl, -⟩ := Prod.mk.inj (Except.ok.inj h)
    exact ⟨rfl, rfl⟩
  | cons i l ih =>
    obtain ⟨⟨hex, cells₁⟩, -, h⟩ := bind_eq_ok.mp h
    obtain ⟨hkind, hpos⟩ := ih h
    rw [hkind, hpos]
    by_cases hj : j = i
    · rw [hj, Function.update_self]
      exact ⟨rfl, rfl⟩
    · rw [Function.update_of_ne hj]
      exact ⟨rfl, rfl⟩

/-- The segments are written in the order of their addresses. -/
theorem writeSegments_sorted {l : List Nat} {lastEnd : Ptr} {m' : Mem Byte}
    (h : writeSegments heap l lastEnd m = .ok m') :
    (∀ i ∈ l, lastEnd ≤ (heap i).pos ∧ (heap i).getSize.toNat ≤ (heap i).hex.length ∧
        (heap i).pos.toNat + (heap i).getSize.toNat ≤ 2 ^ 64) ∧
      l.Pairwise fun i j => (heap i).pos ≤ (heap j).pos := by
  induction l generalizing lastEnd m with
  | nil => exact ⟨fun i hi => absurd hi (List.not_mem_nil), List.Pairwise.nil⟩
  | cons i l ih =>
    obtain ⟨_, hle, h⟩ := bind_eq_ok.mp h
    obtain ⟨m₁, hcopy, h⟩ := bind_eq_ok.mp h
    have hle := ensure_ok.mp hle
    obtain ⟨hall, hsorted⟩ := ih h
    refine ⟨?_, List.pairwise_cons.mpr ⟨fun j hj => (hall j hj).1, hsorted⟩⟩
    intro j hj
    rcases List.mem_cons.mp hj with rfl | hj
    · refine ⟨hle, ?_⟩
      unfold memcpy at hcopy
      split at hcopy
      · assumption
      · cases hcopy
    · exact ⟨BitVec.le_trans hle (hall j hj).1, (hall j hj).2⟩

/-! ## `finalize` -/

/-- A shadow finished, from the one with all segments placed: from the first to `last`. -/
structure Finished (s : Shadow) (last : Nat) (mapped base : Ptr) (m : Mem Byte) (cells : Cells)
    (f : Finalized) : Prop where
  placed : s.segments = List.range (last + 1)
  segments : f.shadow.segments = List.range (last + 1)
  entry : f.shadow.entrySegment = s.entrySegment
  alignBits : f.shadow.alignBits = s.alignBits
  finalized : f.shadow.finalized = true
  kind : ∀ j, (f.shadow.heap j).kind = (s.heap j).kind
  allocated : ∃ mem, (s.alignedMem 0 last).allocate mapped = .ok (true, mem) ∧ mem.asPtr = .ok base
  first : f.shadow.getPos 0 = s.getPos 0 &&& s.mask ||| base &&& ~~~s.mask
  moved : ∀ j ≤ last, f.shadow.getPos j = s.getPos j + shift s.heap base s.mask 0
  ne_null : f.shadow.getPos 0 ≠ nullptr
  le_end : f.shadow.getPos 0 ≤ f.shadow.getEnd last
  contents : ∃ heap, (∀ j, (heap j).pos = f.shadow.getPos j) ∧
    finalizeSegments (List.range (last + 1)) heap cells = .ok (f.shadow.heap, f.cells)
  written : writeSegments f.shadow.heap (List.range (last + 1)) nullptr
    (m.write (f.shadow.getPos 0).toNat (List.replicate
      ((f.shadow.getEnd last).toNat - (f.shadow.getPos 0).toNat) 0x90)) = .ok f.mem

theorem fillWithNops_ok {start stop : Ptr} {m' : Mem Byte} (h : fillWithNops start stop m = .ok m') :
    start ≠ nullptr ∧ start ≤ stop ∧
      m' = m.write start.toNat (List.replicate (stop.toNat - start.toNat) 0x90) := by
  unfold fillWithNops at h
  split at h
  · rename_i hs
    exact ⟨hs.1, hs.2, (Except.ok.inj h).symm⟩
  · cases h

theorem finish_finished (hseg : s.segments = List.range n) (h : s.finish mapped m cells = .ok f) :
    ∃ last base, n = last + 1 ∧ Finished s last mapped base m cells f := by
  cases n with
  | zero =>
    rw [Shadow.finish, hseg] at h
    cases h
  | succ last =>
    have hcons : List.range (last + 1) = 0 :: List.range' 1 last := by
      rw [List.range_eq_range', List.range'_succ]
    have hnd : (0 :: List.range' 1 last).Nodup := hcons ▸ List.nodup_range
    have hlast : (0 :: List.range' 1 last).getLast (List.cons_ne_nil _ _) = last := by
      simp only [← hcons, List.getLast_range, Nat.add_sub_cancel]
    rw [hcons] at hseg
    rw [Shadow.finish, hseg] at h
    simp only [hlast] at h
    obtain ⟨⟨ok, mem⟩, halloc, h⟩ := bind_eq_ok.mp h
    split at h
    · cases h
    · rename_i hok
      obtain rfl : ok = true := by simpa using hok
      obtain ⟨base, hbase, h⟩ := bind_eq_ok.mp h
      obtain ⟨m₁, hfill, h⟩ := bind_eq_ok.mp h
      obtain ⟨⟨heap', cells'⟩, hfin, h⟩ := bind_eq_ok.mp h
      obtain ⟨m₂, hwrite, h⟩ := bind_eq_ok.mp h
      obtain rfl := Except.ok.inj h
      obtain ⟨hne, hle, rfl⟩ := fillWithNops_ok hfill
      have hpos := finalizeSegments_pos hfin
      have hend : ∀ j, (heap' j).getEnd =
          (relocate base s.mask 0 (List.range' 1 last) s.heap j).getEnd := by
        intro j
        simp only [ShadowSegment.getEnd, ShadowSegment.getSize, hpos]
      rw [← hcons] at hfin hwrite
      refine ⟨last, base, rfl, ?_⟩
      refine
        { placed := hseg.trans hcons.symm
          segments := hcons.symm
          entry := rfl
          alignBits := rfl
          finalized := rfl
          kind := fun j => (hpos j).1.trans (relocate_kind hnd j)
          allocated := ⟨mem, halloc, hbase⟩
          first := (hpos 0).2.trans (relocate_first 0 hnd)
          moved := fun j hj => ?_
          ne_null := fun h0 => hne ((hpos 0).2.symm.trans h0)
          le_end := ?_
          contents := ⟨_, fun j => (hpos j).2.symm, hfin⟩
          written := ?_ }
      · have hmem : j ∈ 0 :: List.range' 1 last := by
          rw [← hcons, List.mem_range]
          omega
        show (heap' j).pos = _
        rw [(hpos j).2, relocate_apply hnd hmem]
        rfl
      · show (heap' 0).pos ≤ (heap' last).getEnd
        rwa [(hpos 0).2, hend]
      · show writeSegments heap' _ nullptr (m.write (heap' 0).pos.toNat (List.replicate
          ((heap' last).getEnd.toNat - (heap' 0).pos.toNat) 0x90)) = _
        rwa [(hpos 0).2, hend]

theorem finalize_ok (h : s.finalize mapped m cells = .ok f) :
    s.entrySegment ≠ none ∧ ∃ s', s.placeAll = .ok s' ∧ s'.finish mapped m cells = .ok f := by
  obtain ⟨_, -, h⟩ := bind_eq_ok.mp h
  obtain ⟨_, hentry, h⟩ := bind_eq_ok.mp h
  obtain ⟨s', hplace, h⟩ := bind_eq_ok.mp h
  exact ⟨ensure_ok.mp hentry, s', hplace, h⟩

/-- A shadow that was built and finished. -/
theorem finalize_finished {calls : List Call} (hb : build k heap calls = .ok s)
    (h : s.finalize mapped m cells = .ok f) :
    ∃ s' last base, s.placeAll = .ok s' ∧ calls.length = last + 1 ∧
      Placed k heap (last + 1) s' ∧ Finished s' last mapped base m cells f := by
  obtain ⟨-, s', hplace, hfin⟩ := finalize_ok h
  have hp := (build_built hb).1.placeAll hplace
  obtain ⟨last, base, hlen, hf⟩ := finish_finished hp.segments hfin
  exact ⟨s', last, base, hplace, hlen, hlen ▸ hp, hf⟩

theorem Placed.mask_eq (hp : Placed k heap n s) : s.mask = lowMask 64 k := by
  rw [Shadow.mask, hp.alignBits, getMask_eq]

theorem mark_of_createdAt {seg : ShadowSegment} {p : Ptr} (h : CreatedAt seg p) : seg.mark = p := by
  obtain ⟨kind, pos, hex⟩ := seg
  obtain ⟨-, h⟩ := h
  cases kind
  case jneEaxZero t =>
    obtain ⟨q, hq, h⟩ := bind_eq_ok.mp h
    obtain ⟨_, -, hq⟩ := bind_eq_ok.mp hq
    obtain rfl := Except.ok.inj hq
    obtain ⟨-, rfl, -⟩ := ShadowSegment.mk.inj (Except.ok.inj h)
    show p + -SegJneEaxZero.jneOffset + SegJneEaxZero.jneOffset = p
    grind
  all_goals exact (congrArg ShadowSegment.pos (Except.ok.inj h)).symm

/-- The mark moves with the segment. -/
theorem mark_add {seg seg' : ShadowSegment} (hkind : seg'.kind = seg.kind)
    (hpos : seg'.pos = seg.pos + offset) : seg'.mark = seg.mark + offset := by
  unfold ShadowSegment.mark
  rw [hkind, hpos]
  split
  · grind
  · rfl

theorem aliases_add (hk : k < 64) {p offset : Ptr} (h : offset.toNat % 2 ^ k = 0) :
    Aliases k (p + offset) p := by
  unfold Aliases
  rw [toNat_add_mod hk.le, h, Nat.add_zero, Nat.mod_mod]

theorem Placed.shift_mod (hk : k < 64) (hp : Placed k heap n s) (base : Ptr) :
    (shift s.heap base s.mask 0).toNat % 2 ^ k = 0 := by
  rw [hp.mask_eq]
  exact Shadow.shift_mod hk 0

/-- A segment that was made at a position still aliases it. -/
theorem Finished.mark_aliases (hf : Finished s last mapped base m cells f) (hk : k < 64)
    (hp : Placed k heap n s) (hj : j ≤ last) {p : Ptr} (hcreated : CreatedAt (heap j) p)
    (hpos : (heap j).hasPos) : Aliases k (f.shadow.heap j).mark p := by
  have hkept := hp.kept j (by simpa [ShadowSegment.hasPos] using hpos)
  rw [mark_add (hf.kind j) (hf.moved j hj), hkept, mark_of_createdAt hcreated]
  exact aliases_add hk (hp.shift_mod hk base)

/-- All segments are moved by a multiple of the window, and so those that were made at a
position still alias it. -/
theorem finalize_aliases {calls : List Call} (hk : k < 64) (hb : build k heap calls = .ok s)
    (h : s.finalize mapped m cells = .ok f) :
    MovedAlike k s f ∧ ∀ i < calls.length, ∀ p, CreatedAt (heap i) p → (heap i).hasPos →
      Aliases k (f.shadow.heap i).mark p := by
  obtain ⟨s', last, base, hplace, hlen, hp, hf⟩ := finalize_finished hb h
  have hshift := hp.shift_mod hk base
  have hmoved : ∀ i ∈ s'.segments, f.shadow.getPos i = s'.getPos i + shift s'.heap base s'.mask 0 := by
    intro i hi
    rw [hp.segments, List.mem_range] at hi
    exact hf.moved i (by omega)
  refine ⟨⟨s', hplace, hf.segments.trans hp.segments.symm, ⟨_, hshift, hmoved⟩, fun i hi j hj => ?_⟩,
    fun i hi p hcreated hpos => hf.mark_aliases hk hp (by omega) hcreated hpos⟩
  rw [hmoved i hi, hmoved j hj]
  grind

/-- What a shadow that is built and finished evaluates to. -/
theorem exists_of_run {α : Type} {calls : List Call} {g : Finalized → α} {r : α}
    (h : ((build k heap calls).bind fun s => (s.finalize mapped m cells).map g) = .ok r) :
    ∃ s f, build k heap calls = .ok s ∧ s.finalize mapped m cells = .ok f ∧ g f = r := by
  obtain ⟨s, hb, h⟩ := bind_eq_ok.mp h
  cases hf : s.finalize mapped m cells with
  | error e =>
    rw [hf] at h
    cases h
  | ok f =>
    rw [hf] at h
    exact ⟨s, f, hb, hf, Except.ok.inj h⟩

/-- An entry, a jne at a position and a return. -/
def jneHeap (p : Ptr) : Heap
  | 0 => (SegKind.nop 1).makeLoose
  | 1 => { kind := .jneEaxZero 2, pos := p - SegJneEaxZero.jneOffset }
  | _ => { kind := .retq 1, pos := 0x401010 }

def threeCalls : List Call := [.addEntry, .addSegment, .addSegment]

/-- The jne of such a shadow lies at an alias of its position. -/
theorem finalize_aliases_jne : ∃ s f, build 32 (jneHeap 0x401002) threeCalls = .ok s ∧
    s.finalize 0x7f0000000000 (fun _ => 0) (fun _ => ⟨0, 0⟩) = .ok f ∧
    Aliases 32 (f.shadow.heap 1).mark 0x401002 := by
  have hrun : ((build 32 (jneHeap 0x401002) threeCalls).bind fun s =>
      (s.finalize 0x7f0000000000 (fun _ => 0) fun _ => ⟨0, 0⟩).map fun _ => ()) = .ok () := by
    decide
  obtain ⟨s, f, hb, hf, -⟩ := exists_of_run hrun
  exact ⟨s, f, hb, hf, (finalize_aliases (by decide) hb hf).2 1 (by decide) 0x401002
    ⟨by decide, by decide⟩ (by decide)⟩

/-- A jne at 2 would start at the null pointer: it is loose, and placed elsewhere. -/
theorem jneAtTwo_not_aliases : ¬ ∀ s f, build 32 (jneHeap 2) threeCalls = .ok s →
    s.finalize 0x7f0000000000 (fun _ => 0) (fun _ => ⟨0, 0⟩) = .ok f →
    ∀ i < threeCalls.length, ∀ p, CreatedAt (jneHeap 2 i) p →
      Aliases 32 (f.shadow.heap i).mark p := by
  intro h
  have hrun : ((build 32 (jneHeap 2) threeCalls).bind fun s =>
      (s.finalize 0x7f0000000000 (fun _ => 0) fun _ => ⟨0, 0⟩).map fun f =>
        (f.shadow.heap 1).mark) = .ok 0x7f000040100c := by
    decide
  obtain ⟨s, f, hb, hf, hmark⟩ := exists_of_run hrun
  have ha := h s f hb hf 1 (by decide) 2 ⟨by decide, by decide⟩
  rw [hmark] at ha
  exact absurd ha (by decide)

end Shadow

end BS.ShadowCode
