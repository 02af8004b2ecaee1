import BranchShadowing.Proof.Shadow.Execution
import BranchShadowing.Spec.Shadow.BranchShadow

/-!
# Shadows made from a layout

What `construct` leaves of the segments of a layout (`Made`): their kinds, where they lie,
and how far from each other.
-/

namespace BS.ShadowCode.BranchShadow

open Shadow

variable {layout : List Added} {segments : List ShadowSegment} {mapped base : Ptr} {m mem : Mem Byte}
variable {cells : Cells} {f : Finalized} {i j k last t c : Nat} {a a' : Added}

theorem make_getElem? (h : make layout = .ok segments) (ha : layout[i]? = some a) :
    ∃ segment, segments[i]? = some segment ∧ a.kind.make a.pos = .ok segment := by
  induction layout generalizing segments i with
  | nil => cases ha
  | cons b rest ih =>
    obtain ⟨segment, hseg, h⟩ := bind_eq_ok.mp h
    obtain ⟨segments', hrest, h⟩ := bind_eq_ok.mp h
    obtain rfl := Except.ok.inj h
    cases i with
    | zero =>
      obtain rfl : b = a := Option.some.inj ha
      exact ⟨segment, rfl, hseg⟩
    | succ i =>
      obtain ⟨segment', hget, hmake⟩ := ih hrest ha
      exact ⟨segment', hget, hmake⟩

theorem kind_of_make {kind : SegKind} {p : Ptr} {segment : ShadowSegment}
    (h : kind.make p = .ok segment) : segment.kind = kind := by
  cases kind
  case jneEaxZero t =>
    obtain ⟨q, -, h⟩ := bind_eq_ok.mp h
    rw [← Except.ok.inj h]
  all_goals rw [← Except.ok.inj h]

/-- A segment made at the null pointer has no position. -/
theorem pos_of_make {kind : SegKind} {segment : ShadowSegment}
    (h : kind.make nullptr = .ok segment) : segment.pos = nullptr := by
  cases kind
  case jneEaxZero t =>
    obtain ⟨q, hq, h⟩ := bind_eq_ok.mp h
    obtain ⟨_, hne, -⟩ := bind_eq_ok.mp hq
    exact absurd rfl (ensure_ok.mp hne)
  all_goals rw [← Except.ok.inj h]

theorem hasPos_of_make {kind : SegKind} {p : Ptr} {segment : ShadowSegment}
    (h : kind.make p = .ok segment) (hp : p ≠ nullptr)
    (hjne : p ≠ SegJneEaxZero.jneOffset ∨ ∀ t, kind ≠ .jneEaxZero t) : segment.hasPos := by
  suffices hpos : segment.pos ≠ nullptr by simpa [ShadowSegment.hasPos] using hpos
  cases kind
  case jneEaxZero t =>
    obtain ⟨q, hq, h⟩ := bind_eq_ok.mp h
    obtain ⟨_, -, hq⟩ := bind_eq_ok.mp hq
    have hne := hjne.resolve_right fun hno => hno t rfl
    rw [← Except.ok.inj h, ← Except.ok.inj hq]
    show p + -SegJneEaxZero.jneOffset ≠ 0
    grind
  all_goals
    rw [← Except.ok.inj h]
    exact hp

/-- The segments of a layout, once they are finalized. -/
structure Made (layout : List Added) (f : Finalized) (last : Nat) : Prop where
  length : layout.length = last + 1
  segments : f.shadow.segments = List.range (last + 1)
  kind : ∀ i a, layout[i]? = some a → (f.shadow.heap i).kind = a.kind
  aliases : ∀ i a, layout[i]? = some a → a.pos ≠ nullptr →
    (a.pos ≠ SegJneEaxZero.jneOffset ∨ ∀ t, a.kind ≠ .jneEaxZero t) →
      Aliases BpuUtils.lbrEntryBits (f.shadow.heap i).mark a.pos
  close : ∀ i a a', layout[i]? = some a → layout[i + 1]? = some a' →
    (a.pos = nullptr ∨ a'.pos = nullptr) →
      (f.shadow.getPos (i + 1)).toNat <
        (f.shadow.getPos i).toNat + a.kind.size.toNat + gapBound (last + 1)
  trailing : ∀ i < last, (∀ j a, i < j → layout[j]? = some a → a.pos = nullptr) →
    f.shadow.getPos (i + 1) = f.shadow.getEnd i + segmentSpacing
  entry : ∀ e, f.shadow.entrySegment = some e → (layout.map Added.call)[e]? = some .addEntry

theorem construct_made (h : construct layout mapped m cells = .ok f) :
    ∃ s last base, Finished s last mapped base m cells f ∧ Made layout f last ∧
      ((∀ i ∈ f.shadow.segments, ∀ j ∈ f.shadow.segments, i ≠ j → ¬ f.shadow.Overlap i j) →
        ∀ i, i + 1 ≤ last → Clear s.heap i (i + 1)) := by
  obtain ⟨segments, hmake, h⟩ := bind_eq_ok.mp h
  obtain ⟨s₀, hbuild, h⟩ := bind_eq_ok.mp h
  obtain ⟨s, last, base, hplace, hlen, hp, hf⟩ := finalize_finished hbuild h
  rw [List.length_map] at hlen
  have hseg : ∀ (i : Nat) (a : Added), layout[i]? = some a →
      a.kind.make a.pos = .ok (segments.getD i (SegKind.nop 0).makeLoose) := fun i a ha => by
    obtain ⟨segment, hget, hmake⟩ := make_getElem? hmake ha
    rw [List.getD_eq_getElem?_getD, hget]
    exact hmake
  have hlt : ∀ (i : Nat) (a : Added), layout[i]? = some a → i ≤ last := fun i a ha => by
    have := (List.getElem?_eq_some_iff.mp ha).1
    omega
  have hloose : ∀ (i : Nat) (a : Added), layout[i]? = some a → a.pos = nullptr →
      (segments.getD i (SegKind.nop 0).makeLoose).pos = nullptr := fun i a ha hpos =>
    pos_of_make (hpos ▸ hseg i a ha)
  have hkind : ∀ (i : Nat) (a : Added), layout[i]? = some a → (f.shadow.heap i).kind = a.kind :=
    fun i a ha => by
      rw [hf.kind, hp.kind]
      exact kind_of_make (hseg i a ha)
  refine ⟨s, last, base, hf, ?_, fun hap => hf.clear hp (hf.spaced hp hap)⟩
  refine
    { length := hlen
      segments := hf.segments
      kind := hkind
      aliases := fun i a ha hpos hjne => ?_
      close := fun i a a' ha ha' hnull => ?_
      trailing := fun i hi htail => ?_
      entry := fun e he => ?_ }
  · refine hf.mark_aliases (by decide) hp (hlt i a ha) ⟨hpos, ?_⟩ ?_
    · have hk := hseg i a ha
      rwa [← kind_of_make hk] at hk
    · exact hasPos_of_make (hseg i a ha) hpos hjne
  · have hi := hlt (i + 1) a' ha'
    have hclose := hp.close (hf.small hp) i (by omega)
    rw [← hkind i a ha]
    refine hf.lt_of_close hi (hclose.resolve_right fun hadj => ?_)
    obtain ⟨h₁, h₂⟩ := hadj
    simp only [ShadowSegment.hasPos, ne_eq, decide_not, Bool.not_eq_true', decide_eq_false_iff_not]
      at h₁ h₂
    rcases hnull with h | h
    · exact h₁ (hloose i a ha h)
    · exact h₂ (hloose (i + 1) a' ha' h)
  · have hs := hp.trailing i (by omega) fun j hj hjn => by
      have hjl : j < layout.length := by omega
      have hget := List.getElem?_eq_getElem hjl
      exact hloose j _ hget (htail j _ hj hget)
    have h₁ := hf.moved (i + 1) hi
    have h₂ := hf.moved i (by omega)
    have hsize := hf.getSize i
    simp only [Shadow.getPos, Shadow.getEnd, ShadowSegment.getEnd] at h₁ h₂ hs ⊢
    rw [hsize]
    grind
  · have hentry := hf.entry.symm.trans he
    rw [placeAll_entry hplace] at hentry
    rcases addAll_entry hbuild hentry with h | ⟨j, rfl, hj⟩
    · cases h
    · rwa [Nat.zero_add]

end BS.ShadowCode.BranchShadow
