import BranchShadowing.Proof.Shadow.AlignedMem
import Mathlib.Data.List.Range

/-!
# Where segments are placed

The segments of a shadow and the loose ones are those added so far, in their order
(`Built`). Loose segments are packed so that none reaches into the next, nor is far from
it (`Close`); two with a position that are added one after the other are only compared by
where they start.
-/

namespace BS.ShadowCode

theorem bind_eq_ok {ε α β : Type} {x : Except ε α} {f : α → Except ε β} {b : β} :
    (x >>= f) = .ok b ↔ ∃ a, x = .ok a ∧ f a = .ok b := by
  cases x <;> simp [bind, Except.bind]

namespace Shadow

variable {heap heap' : Heap} {spacing : Ptr} {s s' : Shadow} {i j k n : Nat}

/-! ## `place_segment` -/

theorem placeLoose_of_not_mem {l : List Nat} {prev : Nat} (h : j ∉ l) :
    placeLoose spacing l prev heap j = heap j := by
  induction l generalizing prev heap with
  | nil => rfl
  | cons i rest ih =>
    obtain ⟨hne, hrest⟩ := List.ne_and_not_mem_of_not_mem_cons h
    rw [placeLoose, ih hrest, Function.update_of_ne hne]

theorem placeLoose_kind (l : List Nat) (prev : Nat) (heap : Heap) (j : Nat) :
    (placeLoose spacing l prev heap j).kind = (heap j).kind := by
  induction l generalizing prev heap with
  | nil => rfl
  | cons i rest ih =>
    rw [placeLoose, ih]
    by_cases h : j = i
    · rw [h, Function.update_self]
      rfl
    · rw [Function.update_of_ne h]

/-- Each loose segment ends the spacing before the next. -/
theorem placeLoose_spaced (a n : Nat) (heap : Heap) {j : Nat} (ha : a ≤ j) (hj : j < a + n) :
    (placeLoose spacing (List.range' a n).reverse (a + n) heap (j + 1)).pos =
      (placeLoose spacing (List.range' a n).reverse (a + n) heap j).getEnd + spacing := by
  induction n generalizing heap with
  | zero => omega
  | succ n ih =>
    rw [List.range'_concat, List.reverse_append, List.reverse_singleton, List.singleton_append,
      placeLoose, Nat.one_mul]
    generalize hh : Function.update heap (a + n) _ = heap₁
    by_cases hlt : j < a + n
    · exact ih heap₁ hlt
    · obtain rfl : j = a + n := by omega
      rw [placeLoose_of_not_mem (by simp), placeLoose_of_not_mem (by simp), ← hh,
        Function.update_of_ne (by omega), Function.update_self]
      simp only [ShadowSegment.setEnd, ShadowSegment.getEnd, ShadowSegment.getSize, Nat.add_assoc]
      generalize (heap (a + (n + 1))).pos = p, (heap (a + n)).kind.size = size
      bv_omega

/-- So the whole distance is their sizes and as many spacings. -/
theorem pos_of_spaced {a n : Nat}
    (h : ∀ j, a ≤ j → j < a + n → (heap (j + 1)).pos = (heap j).getEnd + spacing) :
    (heap (a + n)).pos = (heap a).pos + ((List.range' a n).map fun i => (heap i).getSize).sum +
      BitVec.ofNat 64 n * spacing := by
  induction n with
  | zero => simp
  | succ n ih =>
    have hn := h (a + n) (by omega) (by omega)
    rw [ShadowSegment.getEnd, ih fun j ha hj => h j ha (by omega)] at hn
    rw [← Nat.add_assoc, hn, List.range'_concat, List.map_append, List.sum_append, Nat.one_mul,
      BitVec.ofNat_add]
    simp only [List.map_singleton, List.sum_singleton]
    grind

/-- One segment ends before the next starts. -/
def Clear (heap : Heap) (i j : Nat) : Prop := (heap i).getSize ≤ (heap j).pos - (heap i).pos

theorem clear_of_gap (gap : Ptr) (h : (heap j).pos = (heap i).getEnd + gap)
    (hlt : (heap i).getSize.toNat + gap.toNat < 2 ^ 64) : Clear heap i j := by
  unfold Clear
  rw [h]
  simp only [ShadowSegment.getEnd]
  bv_omega

/-- A segment starts fewer than `bound` bytes behind another. -/
def Close (bound : Nat) (heap : Heap) (i j : Nat) : Prop :=
  ((heap j).pos - (heap i).getEnd).toNat < bound

theorem close_of_gap {bound : Nat} (gap : Ptr) (h : (heap j).pos = (heap i).getEnd + gap)
    (hlt : gap.toNat < bound) : Close bound heap i j := by
  have hsub : (heap i).getEnd + gap - (heap i).getEnd = gap := by grind
  unfold Close
  rwa [h, hsub]

theorem Close.mono {bound bound' : Nat} (h : Close bound heap i j) (hle : bound ≤ bound') :
    Close bound' heap i j := Nat.lt_of_lt_of_le h hle

theorem Close.clear {bound : Nat} (h : Close bound heap i j)
    (hlt : (heap i).getSize.toNat + bound ≤ 2 ^ 64) : Clear heap i j := by
  unfold Close at h
  exact clear_of_gap ((heap j).pos - (heap i).getEnd) (by grind) (by omega)

/-- How far loose segments are apart, among `n` segments: the spacing, and for the first
what the division leaves over. -/
def gapBound (n : Nat) : Nat := max 10000 (min n maxSize)

theorem gapBound_mono {n' : Nat} (h : n ≤ n') : gapBound n ≤ gapBound n' := by
  unfold gapBound
  omega

theorem gapBound_le (n : Nat) : gapBound n ≤ 2 ^ 58 := by
  unfold gapBound maxSize
  omega

/-- A segment is placed at once, or the loose ones are placed in front of it. -/
theorem placeSegment_ok {s' : Shadow} (h : s.placeSegment i = .ok s') :
    s.looseSegments = [] ∧ s' = { s with segments := s.segments ++ [i] } ∨
      s.looseSegments ≠ [] ∧ ∃ spacing, s.spacing i = .ok spacing ∧ spacing.slt 10000 ∧
        s' = { s with
          heap := placeLoose spacing s.looseSegments.reverse i s.heap
          segments := s.segments ++ s.looseSegments ++ [i]
          looseSegments := [] } := by
  unfold placeSegment at h
  obtain ⟨_, -, h⟩ := bind_eq_ok.mp h
  split at h
  · rename_i hl
    exact .inl ⟨hl, (Except.ok.inj h).symm⟩
  · rename_i hl
    obtain ⟨spacing, hs, h⟩ := bind_eq_ok.mp h
    obtain ⟨_, hlt, h⟩ := bind_eq_ok.mp h
    exact .inr ⟨hl, spacing, hs, ensure_ok.mp hlt, (Except.ok.inj h).symm⟩

theorem addSegment_ok {s' : Shadow} (h : s.addSegment i = .ok s') :
    (∀ back ∈ s.segments.getLast?, s.getPos i = nullptr ∨ s.getPos back < s.getPos i) ∧
      ((s.heap i).pos ≠ nullptr ∧ s.placeSegment i = .ok s' ∨
        (s.heap i).pos = nullptr ∧ s.looseSegments.length < maxSize ∧
          s' = { s with looseSegments := s.looseSegments ++ [i] }) := by
  unfold addSegment at h
  obtain ⟨_, -, h⟩ := bind_eq_ok.mp h
  obtain ⟨_, hord, h⟩ := bind_eq_ok.mp h
  refine ⟨ensure_ok.mp hord, ?_⟩
  split at h
  · rename_i hp
    exact .inl ⟨by simpa [ShadowSegment.hasPos] using hp, h⟩
  · rename_i hp
    split at h
    · rename_i hl
      exact .inr ⟨by simpa [ShadowSegment.hasPos] using hp, hl, (Except.ok.inj h).symm⟩
    · cases h

/-! ## The segments added so far -/

/-- The sizes that objects have. -/
def Small (heap : Heap) (n : Nat) : Prop := ∀ j < n, (heap j).getSize.toNat < 2 ^ 63

/-- A segment with a position, and one added right after it. -/
def Adjoining (heap : Heap) (i : Nat) : Prop := (heap i).hasPos ∧ (heap (i + 1)).hasPos

/-- The state after `n` segments were added. -/
structure Built (k : Nat) (heap : Heap) (n : Nat) (s : Shadow) : Prop where
  all : s.segments ++ s.looseSegments = List.range n
  alignBits : s.alignBits = k
  finalized : s.finalized = false
  kind : ∀ j, (s.heap j).kind = (heap j).kind
  kept : ∀ j, (heap j).pos ≠ nullptr ∨ s.segments.length ≤ j → s.heap j = heap j
  loose : ∀ j ∈ s.looseSegments, (heap j).pos = nullptr
  room : s.looseSegments.length ≤ maxSize
  back : ∀ j ∈ s.segments.getLast?, (heap j).pos ≠ nullptr
  order : ∀ j, j + 1 < s.segments.length → Adjoining heap j → (heap j).pos < (heap (j + 1)).pos
  close : Small heap n → ∀ j, j + 1 < s.segments.length →
    Close (gapBound n) s.heap j (j + 1) ∨ Adjoining heap j

theorem Built.split {heap : Heap} (hb : Built k heap n s) :
    ∃ m ≤ n, s.segments = List.range m ∧ s.looseSegments = List.range' m (n - m) := by
  have h := hb.all
  rw [List.range_eq_range', eq_comm, List.range'_eq_append_iff] at h
  obtain ⟨m, hm, h₁, h₂⟩ := h
  exact ⟨m, hm, by rw [h₁, List.range_eq_range'], by rw [h₂, Nat.zero_add, Nat.mul_one]⟩

/-- What the division of the room left by the number `c` of loose segments leaves over. -/
theorem spacing_division {space total : Ptr} {c : Nat} (hc : 0 < c) (hmax : c ≤ maxSize)
    (hle : total.sle space) (h1 : c = 1 → total.toNat < 2 ^ 63)
    (hslt : ((space - total) / BitVec.ofNat 64 c).slt 10000) :
    ((space - total) / BitVec.ofNat 64 c).toNat < 10000 ∧ ∃ gap : Ptr, gap.toNat < c ∧
      space = gap + total + BitVec.ofNat 64 c * ((space - total) / BitVec.ofNat 64 c) := by
  have hcn : (BitVec.ofNat 64 c).toNat = c := by
    rw [BitVec.toNat_ofNat, Nat.mod_eq_of_lt (by simp only [maxSize] at hmax; omega)]
  have hlt : ((space - total) / BitVec.ofNat 64 c).toNat < 2 ^ 63 := by
    rw [BitVec.toNat_udiv, hcn]
    rcases Nat.lt_or_ge c 2 with h | h
    · obtain rfl : c = 1 := by omega
      have h1 := h1 rfl
      rw [Nat.div_one]
      rw [BitVec.sle_iff_toInt_le, BitVec.toInt_eq_toNat_of_lt (by omega)] at hle
      have hs := BitVec.toInt_eq_toNat_cond space
      split at hs
      · bv_omega
      · omega
    · exact Nat.div_lt_of_lt_mul (by omega)
  refine ⟨?_, (space - total) % BitVec.ofNat 64 c, ?_, ?_⟩
  · rw [BitVec.slt_iff_toInt_lt, BitVec.toInt_eq_toNat_of_lt (by omega)] at hslt
    have h10 : BitVec.toInt (10000 : Ptr) = 10000 := by decide
    omega
  · rw [BitVec.toNat_umod, hcn]
    exact Nat.mod_lt _ hc
  · have hdiv : BitVec.ofNat 64 c * ((space - total) / BitVec.ofNat 64 c) +
        (space - total) % BitVec.ofNat 64 c = space - total := by
      apply BitVec.eq_of_toNat_eq
      rw [BitVec.toNat_add, BitVec.toNat_mul, BitVec.toNat_udiv, BitVec.toNat_umod, hcn,
        Nat.mod_add_mod, Nat.div_add_mod, Nat.mod_eq_of_lt (BitVec.isLt _)]
    grind

/-- The spacing in front of a segment, and what it leaves behind the last one placed. -/
theorem spacing_ok {m : Nat} (hseg : s.segments = List.range m)
    (hl : s.looseSegments = List.range' m (n - m)) (hmn : m < n) (hmax : n - m ≤ maxSize)
    (hsmall : (s.heap m).getSize.toNat < 2 ^ 63)
    (h : s.spacing i = .ok spacing) (hslt : spacing.slt 10000) :
    spacing.toNat < 10000 ∧ ∀ back, m = back + 1 → ∃ gap : Ptr, gap.toNat < n - m ∧
      s.getPos i = s.getEnd back + gap +
        ((List.range' m (n - m)).map fun i => (s.heap i).getSize).sum +
        BitVec.ofNat 64 (n - m) * spacing := by
  have hlen : s.looseSegments.length = n - m := by rw [hl, List.length_range']
  unfold Shadow.spacing at h
  cases m with
  | zero =>
    rw [hseg] at h
    obtain rfl := Except.ok.inj h
    exact ⟨by decide, fun back hb => by omega⟩
  | succ back =>
    rw [hseg, List.getLast?_range] at h
    obtain ⟨_, hle, h⟩ := bind_eq_ok.mp h
    obtain rfl := Except.ok.inj h
    rw [hlen, hl] at hslt ⊢
    have h1 : n - (back + 1) = 1 →
        ((List.range' (back + 1) (n - (back + 1))).map fun i => (s.heap i).getSize).sum.toNat <
          2 ^ 63 := by
      intro h1
      rw [h1]
      simpa using hsmall
    obtain ⟨hlt, gap, hgap, heq⟩ :=
      spacing_division (by omega) hmax (hl ▸ ensure_ok.mp hle) h1 hslt
    refine ⟨hlt, fun b hb => ⟨gap, hgap, ?_⟩⟩
    obtain rfl : back = b := by omega
    grind

theorem Small.mono {heap : Heap} {m : Nat} (h : Small heap n) (hm : m ≤ n) : Small heap m :=
  fun j hj => h j (Nat.lt_of_lt_of_le hj hm)

variable {heap : Heap}

namespace Built

theorem getSize (hb : Built k heap n s) (j : Nat) : (s.heap j).getSize = (heap j).getSize := by
  rw [ShadowSegment.getSize, hb.kind, ShadowSegment.getSize]

theorem init (k : Nat) (heap : Heap) : Built k heap 0 { heap := heap, alignBits := k } where
  all := rfl
  alignBits := rfl
  finalized := rfl
  kind _ := rfl
  kept _ _ := rfl
  loose _ h := by cases h
  room := Nat.zero_le _
  back _ h := by cases h
  order _ h := by cases h
  close _ _ h := by cases h

/-- Placed right after another with a position. -/
theorem place (hb : Built k heap n s) (hl : s.looseSegments = [])
    (hord : ∀ back ∈ s.segments.getLast?, s.getPos n = nullptr ∨ s.getPos back < s.getPos n)
    (hpos : (heap n).pos ≠ nullptr) :
    Built k heap (n + 1) { s with segments := s.segments ++ [n] } := by
  have hseg : s.segments = List.range n := by
    rw [← hb.all, hl, List.append_nil]
  have hlen : s.segments.length = n := by rw [hseg, List.length_range]
  refine { hb with all := ?_, kept := ?_, back := ?_, order := ?_, close := ?_ }
  · rw [hseg, hl, List.append_nil, List.range_succ]
  · intro j hj
    simp only [List.length_append, List.length_singleton] at hj
    exact hb.kept j (hj.imp_right fun h => by omega)
  · intro j hj
    rw [List.getLast?_concat, Option.mem_some_iff] at hj
    exact hj ▸ hpos
  · intro j hj hadj
    simp only [List.length_append, List.length_singleton, hlen] at hj
    rcases Nat.lt_or_ge (j + 1) n with hlt | hge
    · exact hb.order j (by omega) hadj
    · obtain rfl : n = j + 1 := by omega
      have hj : j ∈ s.segments.getLast? := by
        rw [hseg, List.getLast?_range]
        rfl
      have hn := hb.kept (j + 1) (.inl hpos)
      have h := (hord j hj).resolve_left (by rw [getPos, hn]; exact hpos)
      rwa [getPos, getPos, hn, hb.kept j (.inl (hb.back j hj))] at h
  · intro hsmall j hj
    simp only [List.length_append, List.length_singleton, hlen] at hj
    rcases Nat.lt_or_ge (j + 1) n with hlt | hge
    · exact (hb.close (hsmall.mono (Nat.le_succ n)) j (by omega)).imp_left
        fun h => h.mono (gapBound_mono (Nat.le_succ n))
    · obtain rfl : n = j + 1 := by omega
      have hback := hb.back j (by rw [hseg, List.getLast?_range]; rfl)
      exact .inr ⟨by simpa [ShadowSegment.hasPos] using hback,
        by simpa [ShadowSegment.hasPos] using hpos⟩

theorem room_le (hb : Built k heap n s) {m : Nat} (hl : s.looseSegments = List.range' m (n - m)) :
    n - m ≤ maxSize := by
  have := hb.room
  rwa [hl, List.length_range'] at this

/-- Loose segments are packed behind the last one placed. -/
theorem packed (hb : Built k heap n s) {m : Nat} (hseg : s.segments = List.range m)
    (hl : s.looseSegments = List.range' m (n - m)) (hmn : m < n) (hs : s.spacing n = .ok spacing)
    (hslt : spacing.slt 10000) (hsmall : Small heap (n + 1)) (hm : m ≤ j + 1) (hj : j < n) :
    Close (gapBound n) (placeLoose spacing s.looseSegments.reverse n s.heap) j (j + 1) := by
  have hsize : ∀ i < n + 1, (s.heap i).getSize.toNat < 2 ^ 63 := fun i hi => by
    rw [hb.getSize]
    exact hsmall i hi
  obtain ⟨hlt, hgap⟩ := spacing_ok hseg hl hmn (hb.room_le hl) (hsize m (by omega)) hs hslt
  have hspaced : ∀ {j}, m ≤ j → j < m + (n - m) →
      (placeLoose spacing (List.range' m (n - m)).reverse (m + (n - m)) s.heap (j + 1)).pos =
        (placeLoose spacing (List.range' m (n - m)).reverse (m + (n - m)) s.heap j).getEnd + spacing :=
    placeLoose_spaced m (n - m) s.heap
  rw [Nat.add_sub_cancel' hmn.le, ← hl] at hspaced
  have hsize' : ∀ i, (placeLoose spacing s.looseSegments.reverse n s.heap i).getSize =
      (s.heap i).getSize := fun i => congrArg SegKind.size (placeLoose_kind _ _ _ _)
  have hother : ∀ i, i < m ∨ n ≤ i →
      placeLoose spacing s.looseSegments.reverse n s.heap i = s.heap i := by
    intro i hi
    refine placeLoose_of_not_mem ?_
    rw [List.mem_reverse, hl, List.mem_range'_1]
    omega
  generalize placeLoose spacing s.looseSegments.reverse n s.heap = heap' at *
  have hroom := hb.room_le hl
  unfold gapBound
  rcases Nat.eq_or_lt_of_le hm with h | h
  · obtain ⟨gap, hgap, heq⟩ := hgap j h
    refine close_of_gap gap ?_ (by omega)
    · have hsum := pos_of_spaced (a := m) (n := n - m)
        fun i h₁ h₂ => hspaced h₁ (show i < n by omega)
      rw [Nat.add_sub_cancel' hmn.le, hother n (.inr (Nat.le_refl n))] at hsum
      simp only [hsize', getPos, getEnd] at hsum heq
      rw [← h, hother j (by omega)]
      grind
  · exact close_of_gap spacing (hspaced (by omega) hj) (by omega)

/-- Placed with loose segments in front of it. -/
theorem placeBehind (hb : Built k heap n s) (hl : s.looseSegments ≠ [])
    (hs : s.spacing n = .ok spacing) (hslt : spacing.slt 10000) (hpos : (heap n).pos ≠ nullptr) :
    Built k heap (n + 1) { s with
      heap := placeLoose spacing s.looseSegments.reverse n s.heap
      segments := s.segments ++ s.looseSegments ++ [n]
      looseSegments := [] } := by
  obtain ⟨m, hm, hseg, hloose⟩ := hb.split
  have hmn : m < n := by
    refine Nat.lt_of_le_of_ne hm fun h => hl ?_
    rw [hloose, h, Nat.sub_self]
    rfl
  have hother : ∀ j, j ∉ s.looseSegments →
      placeLoose spacing s.looseSegments.reverse n s.heap j = s.heap j := fun j hj =>
    placeLoose_of_not_mem fun h => hj (List.mem_reverse.mp h)
  refine { hb with
    all := ?_, kind := ?_, kept := ?_, loose := ?_, room := Nat.zero_le _
    back := ?_, order := ?_, close := ?_ }
  · rw [hb.all, List.append_nil, List.range_succ]
  · exact fun j => (placeLoose_kind _ _ _ _).trans (hb.kind j)
  · intro j hj
    simp only [hb.all, List.length_append, List.length_range, List.length_singleton] at hj
    refine (hother j fun hmem => ?_).trans
      (hb.kept j (hj.imp_right fun h => by rw [hseg, List.length_range]; omega))
    rcases hj with hj | hj
    · exact hj (hb.loose j hmem)
    · rw [hloose, List.mem_range'_1] at hmem
      omega
  · exact fun j hj => by cases hj
  · intro j hj
    rw [List.getLast?_concat, Option.mem_some_iff] at hj
    exact hj ▸ hpos
  · intro j hj hadj
    simp only [hb.all, List.length_append, List.length_range, List.length_singleton] at hj
    have hnot : ∀ i, (heap i).hasPos → i ∉ s.looseSegments := fun i hi hmem => by
      simp [ShadowSegment.hasPos, hb.loose i hmem] at hi
    have h₁ := hnot j hadj.1
    have h₂ := hnot (j + 1) hadj.2
    rw [hloose, List.mem_range'_1] at h₁ h₂
    exact hb.order j (by rw [hseg, List.length_range]; omega) hadj
  · intro hsmall j hj
    simp only [hb.all, List.length_append, List.length_range, List.length_singleton] at hj
    rcases Nat.lt_or_ge (j + 1) m with h | h
    · have hold := hb.close (hsmall.mono (Nat.le_succ n)) j
        (by rw [hseg, List.length_range]; exact h)
      refine hold.imp_left fun hc => Close.mono ?_ (gapBound_mono (Nat.le_succ n))
      show ((placeLoose _ _ _ _ (j + 1)).pos - (placeLoose _ _ _ _ j).getEnd).toNat < _
      rw [hother j, hother (j + 1)]
      · exact hc
      all_goals
        rw [hloose, List.mem_range'_1]
        omega
    · exact .inl ((hb.packed hseg hloose hmn hs hslt hsmall h (by omega)).mono
        (gapBound_mono (Nat.le_succ n)))

theorem addSegment (hb : Built k heap n s) (h : s.addSegment n = .ok s') :
    Built k heap (n + 1) s' := by
  obtain ⟨m, hm, hseg, hloose⟩ := hb.split
  have hn : s.heap n = heap n := hb.kept n (.inr (by rw [hseg, List.length_range]; exact hm))
  obtain ⟨hord, ⟨hpos, h⟩ | ⟨hpos, hroom, rfl⟩⟩ := addSegment_ok h
  · rw [hn] at hpos
    obtain ⟨hl, rfl⟩ | ⟨hl, spacing, hs, hslt, rfl⟩ := placeSegment_ok h
    · exact hb.place hl hord hpos
    · exact hb.placeBehind hl hs hslt hpos
  · rw [hn] at hpos
    refine { hb with all := ?_, loose := ?_, room := ?_, close := ?_ }
    · rw [← List.append_assoc, hb.all, List.range_succ]
    · intro j hj
      rcases List.mem_append.mp hj with hj | hj
      · exact hb.loose j hj
      · rw [List.mem_singleton.mp hj]
        exact hpos
    · rw [List.length_append, List.length_singleton]
      omega
    · exact fun hsmall j hj => (hb.close (hsmall.mono (Nat.le_succ n)) j hj).imp_left
        fun h => h.mono (gapBound_mono (Nat.le_succ n))

end Built

theorem addSegment_entry (h : s.addSegment i = .ok s') : s'.entrySegment = s.entrySegment := by
  obtain ⟨-, ⟨-, h⟩ | ⟨-, -, rfl⟩⟩ := addSegment_ok h
  · obtain ⟨-, rfl⟩ | ⟨-, spacing, -, -, rfl⟩ := placeSegment_ok h <;> rfl
  · rfl

/-- The entry is a segment that `add_entry` was called with. -/
theorem addAll_entry {calls : List Call} {e : Nat} (h : addAll calls i s = .ok s')
    (he : s'.entrySegment = some e) :
    s.entrySegment = some e ∨ ∃ j, e = i + j ∧ calls[j]? = some .addEntry := by
  induction calls generalizing i s with
  | nil =>
    obtain rfl := Except.ok.inj h
    exact .inl he
  | cons call calls ih =>
    cases call with
    | addEntry =>
      obtain ⟨s₁, h₁, h⟩ := bind_eq_ok.mp h
      obtain ⟨_, -, h₁⟩ := bind_eq_ok.mp h₁
      rcases ih h with h | ⟨j, rfl, hj⟩
      · rw [addSegment_entry h₁] at h
        exact .inr ⟨0, (Option.some.inj h).symm, rfl⟩
      · exact .inr ⟨j + 1, by omega, hj⟩
    | addSegment =>
      obtain ⟨s₁, h₁, h⟩ := bind_eq_ok.mp h
      rcases ih h with h | ⟨j, rfl, hj⟩
      · rw [addSegment_entry h₁] at h
        exact .inl h
      · exact .inr ⟨j + 1, by omega, hj⟩

/-- What `finalize` relies on: the segments in their order, and an entry among them. -/
theorem addAll_built {calls : List Call} (hb : Built k heap n s) (he : ∀ e ∈ s.entrySegment, e < n)
    (h : addAll calls n s = .ok s') :
    Built k heap (n + calls.length) s' ∧ ∀ e ∈ s'.entrySegment, e < n + calls.length := by
  induction calls generalizing n s with
  | nil =>
    obtain rfl := Except.ok.inj h
    exact ⟨hb, he⟩
  | cons call calls ih =>
    rw [List.length_cons, Nat.add_comm _ 1, ← Nat.add_assoc]
    cases call with
    | addEntry =>
      obtain ⟨s₁, h₁, h⟩ := bind_eq_ok.mp h
      obtain ⟨_, -, h₁⟩ := bind_eq_ok.mp h₁
      have hb' : Built k heap n { s with entrySegment := some n } := { hb with }
      refine ih (hb'.addSegment h₁) (fun e he => ?_) h
      rw [addSegment_entry h₁, Option.mem_some_iff] at he
      omega
    | addSegment =>
      obtain ⟨s₁, h₁, h⟩ := bind_eq_ok.mp h
      refine ih (hb.addSegment h₁) (fun e he' => ?_) h
      rw [addSegment_entry h₁] at he'
      exact Nat.lt_succ_of_lt (he e he')

theorem build_built {calls : List Call} (h : build k heap calls = .ok s) :
    Built k heap calls.length s ∧ ∀ e ∈ s.entrySegment, e < calls.length := by
  simpa using addAll_built (.init k heap) (by simp) h

/-! ## `finalize` -/

/-- A shadow whose segments all have a position. -/
structure Placed (k : Nat) (heap : Heap) (n : Nat) (s : Shadow) : Prop where
  segments : s.segments = List.range n
  alignBits : s.alignBits = k
  finalized : s.finalized = false
  kind : ∀ j, (s.heap j).kind = (heap j).kind
  kept : ∀ j, (heap j).pos ≠ nullptr → s.heap j = heap j
  order : ∀ j, j + 1 < n → Adjoining heap j → (heap j).pos < (heap (j + 1)).pos
  close : Small heap n → ∀ j, j + 1 < n →
    Close (gapBound n) s.heap j (j + 1) ∨ Adjoining heap j
  trailing : ∀ j, j + 1 < n → (∀ i, j < i → i < n → (heap i).pos = nullptr) →
    (s.heap (j + 1)).pos = (s.heap j).getEnd + segmentSpacing

theorem Placed.getSize (hp : Placed k heap n s) (j : Nat) : (s.heap j).getSize = (heap j).getSize := by
  rw [ShadowSegment.getSize, hp.kind, ShadowSegment.getSize]

/-- None reaches into the next, but for those given one after the other. -/
theorem Placed.apart (hp : Placed k heap n s) (hsmall : Small heap n) (j : Nat) (hj : j + 1 < n) :
    Clear s.heap j (j + 1) ∨ Adjoining heap j := by
  refine (hp.close hsmall j hj).imp_left fun h => h.clear ?_
  have hsize := hsmall j (by omega)
  have hbound := gapBound_le n
  rw [hp.getSize]
  omega

/-- The rest of the segments follow two bytes after each other. -/
theorem placeRest_placed {m c : Nat} (hseg : s.segments = List.range (m + 1))
    (hloose : ∀ j, m < j → j < m + 1 + c → (heap j).pos = nullptr)
    (halign : s.alignBits = k) (hfin : s.finalized = false)
    (hkind : ∀ j, (s.heap j).kind = (heap j).kind)
    (hkept : ∀ j, (heap j).pos ≠ nullptr → s.heap j = heap j)
    (horder : ∀ j, j < m → Adjoining heap j → (heap j).pos < (heap (j + 1)).pos)
    (hclose : Small heap (m + 1 + c) → ∀ j, j < m →
      Close (gapBound (m + 1 + c)) s.heap j (j + 1) ∨ Adjoining heap j)
    (htrailing : ∀ j, j < m → (∀ i, j < i → i < m + 1 + c → (heap i).pos = nullptr) →
      (s.heap (j + 1)).pos = (s.heap j).getEnd + segmentSpacing)
    (h : placeRest (List.range' (m + 1) c) m s = .ok s') : Placed k heap (m + 1 + c) s' := by
  induction c generalizing m s with
  | zero =>
    obtain rfl := Except.ok.inj h
    exact ⟨hseg, halign, hfin, hkind, hkept, fun j hj => horder j (by omega),
      fun hs j hj => hclose hs j (by omega), fun j hj => htrailing j (by omega)⟩
  | succ c ih =>
    rw [List.range'_succ] at h
    obtain ⟨seg, hset, h⟩ := bind_eq_ok.mp h
    obtain ⟨_, -, hset⟩ := bind_eq_ok.mp hset
    obtain rfl := Except.ok.inj hset
    have hnull := hloose (m + 1) (by omega) (by omega)
    have hne : ∀ j, (heap j).pos ≠ nullptr → j ≠ m + 1 := fun j hj h => hj (h ▸ hnull)
    have hgap : (Function.update s.heap (m + 1)
        { s.heap (m + 1) with pos := s.getEnd m + segmentSpacing } (m + 1)).pos =
          (Function.update s.heap (m + 1)
            { s.heap (m + 1) with pos := s.getEnd m + segmentSpacing } m).getEnd + segmentSpacing := by
      simp [getEnd]
    rw [show m + 1 + (c + 1) = m + 1 + 1 + c by omega] at hloose hclose htrailing ⊢
    refine ih ?_ (fun j h₁ h₂ => hloose j (by omega) h₂) ?_ ?_ ?_ ?_ ?_ ?_ ?_ h
    · rw [hseg, List.range_succ (n := m + 1)]
    · exact halign
    · exact hfin
    · intro j
      by_cases hj : j = m + 1
      · subst hj
        simp only [Function.update_self]
        exact hkind (m + 1)
      · simp only [Function.update_of_ne hj]
        exact hkind j
    · intro j hj
      simp only [Function.update_of_ne (hne j hj)]
      exact hkept j hj
    · intro j hj hadj
      refine horder j (Nat.lt_of_le_of_ne (Nat.le_of_lt_succ hj) ?_) hadj
      rintro rfl
      simp [Adjoining, ShadowSegment.hasPos, hnull] at hadj
    · intro hs j hj
      rcases Nat.eq_or_lt_of_le (Nat.le_of_lt_succ hj) with rfl | hj
      · refine .inl (close_of_gap segmentSpacing hgap ?_)
        have h2 : segmentSpacing.toNat = 2 := rfl
        unfold gapBound
        omega
      · have hold := hclose hs j hj
        unfold Close at hold ⊢
        simp only [Function.update_of_ne (show j ≠ m + 1 by omega),
          Function.update_of_ne (show j + 1 ≠ m + 1 by omega)]
        exact hold
    · intro j hj htail
      rcases Nat.eq_or_lt_of_le (Nat.le_of_lt_succ hj) with rfl | hj
      · exact hgap
      · have hold := htrailing j hj htail
        simp only [Function.update_of_ne (show j ≠ m + 1 by omega),
          Function.update_of_ne (show j + 1 ≠ m + 1 by omega)]
        exact hold

theorem placeRest_entry {l : List Nat} {prev : Nat} (h : placeRest l prev s = .ok s') :
    s'.entrySegment = s.entrySegment := by
  induction l generalizing prev s with
  | nil => rw [← Except.ok.inj h]
  | cons i l ih =>
    obtain ⟨seg, -, h⟩ := bind_eq_ok.mp h
    exact (ih h).trans rfl

theorem placeAll_entry (h : s.placeAll = .ok s') : s'.entrySegment = s.entrySegment := by
  unfold Shadow.placeAll at h
  split at h
  · rw [← Except.ok.inj h]
  · split at h
    · cases h
    · exact placeRest_entry h

theorem Built.placeAll (hb : Built k heap n s) (h : s.placeAll = .ok s') : Placed k heap n s' := by
  obtain ⟨m, hm, hseg, hloose⟩ := hb.split
  unfold Shadow.placeAll at h
  split at h
  · rename_i hl
    obtain rfl := Except.ok.inj h
    have hall := hb.all
    rw [hl, List.append_nil] at hall
    refine ⟨hall, hb.alignBits, hb.finalized, hb.kind, fun j hj => hb.kept j (.inl hj),
      fun j hj => hb.order j (by rwa [hall, List.length_range]),
      fun hs j hj => hb.close hs j (by rwa [hall, List.length_range]), fun j hj htail => ?_⟩
    have hlast : n - 1 ∈ s.segments.getLast? := by
      rw [hall, List.getLast?_range, if_neg (by omega)]
      rfl
    exact absurd (htail (n - 1) (by omega) (by omega)) (hb.back _ hlast)
  · rename_i hl
    split at h
    · cases h
    · rename_i prev hprev
      cases m with
      | zero =>
        rw [hseg] at hprev
        cases hprev
      | succ m =>
        rw [hseg, List.getLast?_range] at hprev
        obtain rfl : m = prev := by simpa using hprev
        obtain ⟨c, rfl⟩ := Nat.exists_eq_add_of_le hm
        rw [Nat.add_sub_cancel_left] at hloose
        rw [hloose] at h
        refine placeRest_placed hseg (fun j h₁ h₂ => hb.loose j ?_) hb.alignBits hb.finalized
          hb.kind (fun j hj => hb.kept j (.inl hj)) (fun j hj => hb.order j ?_)
          (fun hs j hj => hb.close hs j ?_) (fun j hj htail => ?_) h
        · rw [hloose, List.mem_range'_1]
          omega
        · rw [hseg, List.length_range]
          omega
        · rw [hseg, List.length_range]
          omega
        · refine absurd (htail m hj (by omega)) (hb.back m ?_)
          rw [hseg, List.getLast?_range, if_neg (Nat.succ_ne_zero m)]
          rfl

end Shadow

end BS.ShadowCode
