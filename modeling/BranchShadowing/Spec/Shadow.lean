import BranchShadowing.Impl.Shadow.Shadow

/-!
# What a shadow is for

A branch of the shadow is to lie at an alias of the victim's: the LBR and the branch
predictor see no more of an address than its low bits (`Aliases`). The memory that is
mapped leaves room for that (`Usable`).
-/

namespace BS.ShadowCode

/-- The addresses agree in the `k` low bits. -/
def Aliases (k : Nat) (p q : Ptr) : Prop := p.toNat % 2 ^ k = q.toNat % 2 ^ k
  deriving Decidable

/-- What `mmap` returns for a size: pages from an address on. -/
structure Block (mapped : Ptr) (size : BitVec 64) : Prop where
  ne_null : mapped ≠ nullptr
  paged : mapped.toNat % 4096 = 0
  fits : mapped.toNat + size.toNat ≤ 2 ^ 64

/-- Memory with an alias of the target in it, and room for the size behind that. -/
structure Usable (target : Ptr) (size : BitVec 64) (k : Nat) (a : AlignedMem) (p : Ptr) : Prop where
  aliases : Aliases k p target
  above : a.mem.toNat ≤ p.toNat
  room : p.toNat + size.toNat ≤ a.mem.toNat + a.size.toNat

/-! ## Relocation -/

/-- A segment made at a position: for `SegJneEaxZero`, that of its jne. -/
def CreatedAt (seg : ShadowSegment) (p : Ptr) : Prop := p ≠ nullptr ∧ seg.kind.make p = .ok seg

/-- The address that the position a segment is made at stands for. -/
def ShadowSegment.mark (seg : ShadowSegment) : Ptr :=
  match seg.kind with
  | .jneEaxZero _ => seg.pos + SegJneEaxZero.jneOffset
  | _ => seg.pos

/-- The segments are all moved alike, by a multiple of `2 ^ k`. -/
def MovedAlike (k : Nat) (s : Shadow) (f : Shadow.Finalized) : Prop :=
  ∃ s', s.placeAll = .ok s' ∧ f.shadow.segments = s'.segments ∧
    (∃ offset : Ptr, offset.toNat % 2 ^ k = 0 ∧
      ∀ i ∈ s'.segments, f.shadow.getPos i = s'.getPos i + offset) ∧
    ∀ i ∈ s'.segments, ∀ j ∈ s'.segments,
      f.shadow.getPos j - f.shadow.getPos i = s'.getPos j - s'.getPos i

/-! ## Memory -/

namespace Shadow

/-- The first segment, and the last. -/
def front (s : Shadow) : Nat := s.segments.headD 0

def back (s : Shadow) : Nat := s.segments.getLastD 0

/-- The address belongs to a segment. -/
def Covers (s : Shadow) (i a : Nat) : Prop :=
  (s.getPos i).toNat ≤ a ∧ a < (s.getPos i).toNat + (s.heap i).getSize.toNat

/-- `finalize` writes at the address: a NOP, or the content of a segment. -/
def Writes (s : Shadow) (a : Nat) : Prop :=
  (s.getPos s.front).toNat ≤ a ∧ a < (s.getEnd s.back).toNat ∨ ∃ i ∈ s.segments, s.Covers i a

/-- The size that is requested of `mmap`. -/
def requested (s : Shadow) : BitVec 64 := (s.alignedMem s.front s.back).size

/-- How far a segment reaches from the start of the first. -/
def reach (s : Shadow) (i : Nat) : Nat :=
  (s.getPos i - s.getPos s.front).toNat + (s.heap i).getSize.toNat

/-- From the first alias behind `mapped` on there is room for all segments; but the alias 0
is found only if it is `mapped`. -/
def Fits (s : Shadow) (mapped : Ptr) : Prop :=
  ∀ i ∈ s.segments, 0 < s.reach i →
    ((s.getPos s.front).toNat % 2 ^ s.alignBits ≠ 0 ∨ mapped.toNat % 2 ^ s.alignBits = 0) ∧
      (s.getPos s.front - mapped).toNat % 2 ^ s.alignBits + s.reach i ≤ s.requested.toNat
  deriving Decidable

/-- The segments overlap. -/
def Overlap (s : Shadow) (i j : Nat) : Prop :=
  (s.getPos i).toNat < (s.getPos j).toNat + (s.heap j).getSize.toNat ∧
    (s.getPos j).toNat < (s.getPos i).toNat + (s.heap i).getSize.toNat
  deriving Decidable

/-- No segment is lost or damaged. -/
structure Finalized.Intact (f : Finalized) : Prop where
  content : ∀ i ∈ f.shadow.segments, f.mem.read (f.shadow.getPos i).toNat
    (f.shadow.heap i).getSize.toNat = (f.shadow.heap i).hex.take (f.shadow.heap i).getSize.toNat
  nops : ∀ a, (f.shadow.getPos f.shadow.front).toNat ≤ a → a < (f.shadow.getEnd f.shadow.back).toNat →
    (∀ i ∈ f.shadow.segments, ¬ f.shadow.Covers i a) → f.mem a = 0x90
  apart : ∀ i ∈ f.shadow.segments, ∀ j ∈ f.shadow.segments, i ≠ j → ¬ f.shadow.Overlap i j

/-- The shadow lies in memory, where it was written. -/
def Finalized.Loaded (f : Finalized) (mem : Mem Byte) : Prop :=
  ∀ a, (f.shadow.getPos f.shadow.front).toNat ≤ a → a < (f.shadow.getEnd f.shadow.back).toNat →
    mem a = f.mem a

/-- Of segments added one after the other, those with a position do not overlap. -/
def Spaced (heap : Heap) (n : Nat) : Prop :=
  ∀ i, i + 1 < n → (heap i).hasPos → (heap (i + 1)).hasPos →
    (heap i).pos.toNat + (heap i).getSize.toNat ≤ (heap (i + 1)).pos.toNat

/-! ## Placing -/

/-- The address behind a segment, in an address space without an end. -/
def past (heap : Heap) (i : Nat) : Nat := (heap i).pos.toNat + (heap i).getSize.toNat

/-- A segment starts `gap` bytes behind another. -/
def Behind (gap : Nat) (heap : Heap) (i j : Nat) : Prop := past heap i + gap = (heap j).pos.toNat

def sizes (heap : Heap) (l : List Nat) : Nat := (l.map fun i => (heap i).getSize.toNat).sum

/-- What the loose segments leave of the room in front of a segment. -/
def freeSpace (s : Shadow) (back segment : Nat) : Nat :=
  (s.getPos segment).toNat - (past s.heap back + sizes s.heap s.looseSegments)

/-- The loose segments are packed between the last one placed and the one that is placed now,
and what is left over when they are spread evenly comes first. -/
structure Packed (s : Shadow) (back segment : Nat) (s' : Shadow) : Prop where
  segments : s'.segments = s.segments ++ s.looseSegments ++ [segment]
  looseSegments : s'.looseSegments = []
  kept : ∀ j ∉ s.looseSegments, s'.heap j = s.heap j
  apart : (back :: s.looseSegments ++ [segment]).IsChain fun i j =>
    past s'.heap i ≤ (s'.heap j).pos.toNat
  spaced : (s.looseSegments ++ [segment]).IsChain
    (Behind (s.freeSpace back segment / s.looseSegments.length) s'.heap)
  first : ∀ i ∈ s.looseSegments.head?,
    Behind (s.freeSpace back segment % s.looseSegments.length) s'.heap back i

/-- The loose segments follow the last one placed, one after the other. -/
structure Trailing (s : Shadow) (back : Nat) (s' : Shadow) : Prop where
  segments : s'.segments = s.segments ++ s.looseSegments
  kept : ∀ j ∉ s.looseSegments, s'.heap j = s.heap j
  spaced : (back :: s.looseSegments).IsChain (Behind segmentSpacing.toNat s'.heap)

/-- Where the last loose segment starts if they all follow the last one placed. -/
def trailingStart (s : Shadow) (back : Nat) : Nat :=
  past s.heap back + sizes s.heap s.looseSegments.dropLast +
    s.looseSegments.length * segmentSpacing.toNat

/-! ## Aliases of pointers -/

/-- An address of the shadow that aliases `p`. -/
def AliasIn (s : Shadow) (p a : Ptr) : Prop :=
  s.getPos s.front ≤ a ∧ a < s.getEnd s.back ∧ Aliases s.alignBits a p

/-- `get_aligned_ptr` returns the alias of `p` in the shadow, or the null pointer if there
is none. -/
def FindsAlias (s : Shadow) (p : Ptr) : Prop :=
  ∃ q, s.getAlignedPtr p = .ok q ∧
    (∀ a, s.AliasIn p a → q = a) ∧ ((∀ a, ¬ s.AliasIn p a) → q = nullptr)

/-- The end of the shadow is no alias of `p`; the entry is in the first window, or the alias
is in a later one; and it is not 0 in the window of the entry. -/
structure Reachable (s : Shadow) (entry : Nat) (p : Ptr) : Prop where
  notEnd : ¬ Aliases s.alignBits (s.getEnd s.back) p
  window : (s.getPos s.front).toNat / 2 ^ s.alignBits = (s.getPos entry).toNat / 2 ^ s.alignBits ∨
    p.toNat % 2 ^ s.alignBits < (s.getPos s.front).toNat % 2 ^ s.alignBits
  notNull : ¬ ((s.getPos entry).toNat < 2 ^ s.alignBits ∧ p.toNat % 2 ^ s.alignBits = 0)

end Shadow

end BS.ShadowCode
