import BranchShadowing.Spec.Lbr

/-!
# The LBR device

A dump writes the whole buffer (`read_dumpLBR`), a read takes a stretch of it that does
not go over its end (`deviceRead_eq`). So every byte that is handed out was dumped
exactly when no read comes before a dump, which `device_read` does not see to
(`copied_fromDump_iff`).
-/

namespace BS.Lbr

/-! ## Dumps -/

theorem LbrData.bytes_length (d : LbrData) : d.bytes.length = sizeofLbrData := by
  simp [bytes, sizeofLbrData]

/-- A dump's `i` and `o` after some steps. -/
theorem readNext_iterate (rdmsr : Msrs) (data : Mem Cell) (i : Int) (o k : Nat) (ho : o < lbrCount) :
    ((readNext rdmsr)^[k] (data, i, o)).2 =
      ((fun i : Int => (i + 1).tmod lbrCount)^[k] i, (o + k) % lbrCount) := by
  induction k with
  | zero => simp [Nat.mod_eq_of_lt ho]
  | succ k ih =>
    rw [Function.iterate_succ_apply', Function.iterate_succ_apply']
    generalize (readNext rdmsr)^[k] (data, i, o) = t at ih ⊢
    obtain ⟨d, i', o'⟩ := t
    obtain ⟨rfl, rfl⟩ := Prod.mk.inj ih
    simp [readNext, Nat.add_assoc]

/-- The record that the `k`-th step of a dump writes. -/
def stepRecord (rdmsr : Msrs) (k : Nat) : LbrData :=
  let i := (fun i : Int => (i + 1).tmod lbrCount)^[k] (readLbrTos rdmsr)
  readLbrEntry rdmsr (msrLbrNhmFrom + i) (msrLbrNhmTo + i) i

/-- What a record is in the buffer. -/
def cells (d : LbrData) : List Cell := d.bytes.map (⟨·, true⟩)

theorem cells_length (d : LbrData) : (cells d).length = sizeofLbrData := by
  rw [cells, List.length_map, d.bytes_length]

/-- The slots of the first `k` steps are written, and no later step writes them again. -/
theorem read_readNext (rdmsr : Msrs) (data : Mem Cell) {j k : Nat} (hk : k ≤ lbrCount) (hj : j < k) :
    ((readNext rdmsr)^[k] (data, readLbrTos rdmsr, lbrCount - 1)).1.read
        (sizeofLbrData * ((lbrCount - 1 + j) % lbrCount)) sizeofLbrData =
      cells (stepRecord rdmsr j) := by
  induction k with
  | zero => omega
  | succ k ih =>
    have hs := readNext_iterate rdmsr data (readLbrTos rdmsr) (lbrCount - 1) k (by decide)
    rw [Function.iterate_succ_apply']
    generalize (readNext rdmsr)^[k] (data, readLbrTos rdmsr, lbrCount - 1) = t at ih hs ⊢
    obtain ⟨d, i, o⟩ := t
    obtain ⟨rfl, rfl⟩ := Prod.mk.inj hs
    show (d.write (sizeofLbrData * ((lbrCount - 1 + k) % lbrCount))
      (cells (stepRecord rdmsr k))).read _ _ = _
    rcases Nat.lt_or_ge j k with hlt | hge
    · rw [Mem.read_write_of_disjoint, ih (by omega) hlt]
      rw [cells_length]
      simp only [sizeofLbrData, lbrCount] at hk ⊢
      omega
    · obtain rfl : j = k := by omega
      have := d.read_write_self (sizeofLbrData * ((lbrCount - 1 + j) % lbrCount))
        (cells (stepRecord rdmsr j))
      rwa [cells_length] at this

theorem read_flatMap {α : Type*} (m : Mem α) (n k : Nat) :
    m.read 0 (n * k) = (List.range k).flatMap fun o => m.read (n * o) n := by
  induction k with
  | zero => rfl
  | succ k ih =>
    rw [Nat.mul_succ, Mem.read_add, ih, List.range_succ, List.flatMap_append, Nat.zero_add]
    simp

/-- A dump writes the whole buffer. -/
theorem read_dumpLBR (rdmsr : Msrs) (data : Mem Cell) :
    (dumpLBR rdmsr data).read 0 lbrDataSize = (snapshot rdmsr).flatMap cells := by
  rw [lbrDataSize, read_flatMap, snapshot, List.flatMap_map]
  refine List.flatMap_congr fun o ho => ?_
  have ho : o < lbrCount := List.mem_range.mp ho
  have h := read_readNext rdmsr data (Nat.le_refl lbrCount) (j := (o + 1) % lbrCount)
    (Nat.mod_lt _ (by decide))
  have hslot : (lbrCount - 1 + (o + 1) % lbrCount) % lbrCount = o := by
    simp only [lbrCount] at ho ⊢
    omega
  rw [hslot] at h
  exact h

theorem dumpLBR_apply (rdmsr : Msrs) (data : Mem Cell) {x : Nat} (hx : x < lbrDataSize) :
    (dumpLBR rdmsr data x).dumped = true := by
  have h : dumpLBR rdmsr data x ∈ (dumpLBR rdmsr data).read 0 lbrDataSize := by
    refine List.mem_of_getElem? (i := x) ?_
    rw [Mem.read_getElem? _ hx, Nat.zero_add]
  rw [read_dumpLBR] at h
  obtain ⟨d, -, hd⟩ := List.mem_flatMap.mp h
  obtain ⟨b, -, hb⟩ := List.mem_map.mp hd
  rw [← hb]

/-! ## Reads -/

theorem copyLoop_eq (lbrData : Option (Mem Cell)) (length : Nat) {index : Nat}
    (h : index ≤ lbrDataSize) :
    copyLoop lbrData length index =
      ((List.range' index (min length (lbrDataSize - index))).map (load lbrData),
        index + min length (lbrDataSize - index)) := by
  induction length generalizing index with
  | zero => simp [copyLoop]
  | succ length ih =>
    rw [copyLoop]
    split
    · rename_i hlt
      have hmin : min (length + 1) (lbrDataSize - index) =
          min length (lbrDataSize - (index + 1)) + 1 := by omega
      simp only [ih hlt, hmin, List.range'_succ, List.map_cons, Prod.mk.injEq, true_and]
      omega
    · have hmin : min (length + 1) (lbrDataSize - index) = 0 := by omega
      simp [hmin]

/-- Where the next read starts. -/
def Module.position (st : Module) : Nat := st.lbrDataIndex % lbrDataSize

theorem Module.position_lt (st : Module) : st.position < lbrDataSize := Nat.mod_lt _ (by decide)

/-- A read takes what is left of the buffer behind the index, which starts again at the
end; never more than it is asked for. -/
theorem deviceRead_eq (length : Nat) {st : Module} (h : st.lbrDataIndex ≤ lbrDataSize) :
    deviceRead length st =
      ((List.range' st.position (min length (lbrDataSize - st.position))).map (load st.lbrData),
        ⟨st.lbrData, st.position + min length (lbrDataSize - st.position)⟩) := by
  have hp : (if st.lbrDataIndex = lbrDataSize then 0 else st.lbrDataIndex) = st.position := by
    unfold Module.position
    split
    · rename_i he
      rw [he, Nat.mod_self]
    · rw [Nat.mod_eq_of_lt (by omega)]
  have hlt := st.position_lt
  simp only [deviceRead, hp, copyLoop_eq st.lbrData length (Nat.le_of_lt hlt)]

theorem mem_deviceRead {length : Nat} {st : Module} (h : st.lbrDataIndex ≤ lbrDataSize) {l : Load}
    (hl : l ∈ (deviceRead length st).1) :
    0 < length ∧ ∃ index < lbrDataSize, l = load st.lbrData index := by
  rw [deviceRead_eq length h] at hl
  obtain ⟨index, hi, rfl⟩ := List.mem_map.mp hl
  have hi := List.mem_range'_1.mp hi
  exact ⟨by omega, index, by omega, rfl⟩

/-- A read of something copies at least one byte. -/
theorem load_mem_deviceRead {length : Nat} {st : Module} (h : st.lbrDataIndex ≤ lbrDataSize)
    (hpos : 0 < length) : load st.lbrData st.position ∈ (deviceRead length st).1 := by
  have hlt := st.position_lt
  rw [deviceRead_eq length h]
  exact List.mem_map_of_mem (List.mem_range'_1.mpr (by omega))

/-! ## Runs -/

/-- The buffer of a run that started with memory `kmalloc`: `dumped` says whether there
was an ioctl. -/
structure Holds (kmalloc : Option (Mem Byte)) (dumped : Prop) (st : Module) : Prop where
  index : st.lbrDataIndex ≤ lbrDataSize
  null : kmalloc = none → st.lbrData = none
  cells : ∀ m, kmalloc = some m → ∃ data, st.lbrData = some data ∧
    ∀ x < lbrDataSize, (data x).dumped = true ↔ dumped

variable {kmalloc : Option (Mem Byte)} {dumped : Prop} {st : Module} {majorNum : Int}

theorem Holds.start (h : (startFunction majorNum kmalloc).1 = 0) :
    Holds kmalloc False (startFunction majorNum kmalloc).2 := by
  unfold startFunction at h ⊢
  split at h
  · rename_i hneg
    have : majorNum = 0 := h
    omega
  · rename_i hneg
    rw [if_neg hneg]
    refine ⟨Nat.zero_le _, ?_, ?_⟩
    · rintro rfl
      rfl
    · rintro m rfl
      exact ⟨_, rfl, fun x _ => by simp⟩

theorem Holds.run (h : Holds kmalloc dumped st) (call : Call) :
    Holds kmalloc (dumped ∨ ∃ rdmsr, call = .ioctl rdmsr) (call.run st).2 := by
  have other (hne : ∀ rdmsr, call ≠ .ioctl rdmsr) {index : Nat} (hi : index ≤ lbrDataSize) :
      Holds kmalloc (dumped ∨ ∃ rdmsr, call = .ioctl rdmsr) ⟨st.lbrData, index⟩ := by
    refine ⟨hi, h.null, fun m hm => ?_⟩
    obtain ⟨data, hd, hc⟩ := h.cells m hm
    refine ⟨data, hd, fun x hx => (hc x hx).trans ⟨.inl, fun h => h.resolve_right ?_⟩⟩
    rintro ⟨rdmsr, rfl⟩
    exact hne rdmsr rfl
  cases call with
  | «open» => exact other (by simp) h.index
  | release => exact other (by simp) h.index
  | write length => exact other (by simp) h.index
  | read length =>
    have hlt := st.position_lt
    have hrun : ((Call.read length).run st).2 =
        ⟨st.lbrData, st.position + min length (lbrDataSize - st.position)⟩ := by
      rw [Call.run, deviceRead_eq length h.index]
    rw [hrun]
    exact other (by simp) (by omega)
  | ioctl rdmsr =>
    refine ⟨Nat.zero_le _, fun hm => ?_, fun m hm => ?_⟩
    · simp [Call.run, deviceIoctl, h.null hm]
    · obtain ⟨data, hd, -⟩ := h.cells m hm
      refine ⟨dumpLBR rdmsr data, by simp [Call.run, deviceIoctl, hd], fun x hx => ?_⟩
      simp [dumpLBR_apply rdmsr data hx]

/-- A byte of the buffer in this state. -/
theorem Holds.load_iff (h : Holds kmalloc dumped st) {index : Nat} (hi : index < lbrDataSize) :
    (load st.lbrData index).FromDump ↔ kmalloc.isSome ∧ dumped := by
  cases kmalloc with
  | none =>
    rw [h.null rfl]
    simp [load, Load.FromDump]
  | some m =>
    obtain ⟨data, hd, hc⟩ := h.cells m rfl
    rw [hd]
    simp [load, Load.FromDump, hi, hc index hi]

theorem Holds.deviceRead_iff (h : Holds kmalloc dumped st) (length : Nat) :
    (∀ l ∈ (deviceRead length st).1, l.FromDump) ↔
      (0 < length → kmalloc.isSome ∧ dumped) := by
  refine ⟨fun hall hpos => ?_, fun hd l hl => ?_⟩
  · exact (h.load_iff st.position_lt).mp (hall _ (load_mem_deviceRead h.index hpos))
  · obtain ⟨hpos, index, hi, rfl⟩ := mem_deviceRead h.index hl
    exact (h.load_iff hi).mpr (hd hpos)

/-- In a run that goes on where the buffer is in this state, all bytes copied were dumped
exactly when every read comes after a dump. -/
theorem Holds.copied_iff (h : Holds kmalloc dumped st) (calls : List Call) :
    (∀ l ∈ copied calls st, l.FromDump) ↔
      ∀ before length after, calls = before ++ .read length :: after → 0 < length →
        kmalloc.isSome ∧ (dumped ∨ ∃ rdmsr, .ioctl rdmsr ∈ before) := by
  induction calls generalizing dumped st with
  | nil => simp [copied]
  | cons call calls ih =>
    have key : (∀ l ∈ (call.run st).1, l.FromDump) ↔
        ∀ length, call = .read length → 0 < length → kmalloc.isSome ∧ dumped := by
      cases call with
      | read length =>
        refine Iff.trans ?_ ⟨fun hd _ hc hpos => hd (by cases hc; exact hpos), fun hd => hd _ rfl⟩
        exact h.deviceRead_iff length
      | _ => simp [Call.run]
    rw [copied, List.forall_mem_append, key, ih (h.run call)]
    constructor
    · rintro ⟨hfirst, hrest⟩ before length after heq hpos
      cases before with
      | nil =>
        obtain ⟨rfl, -⟩ := List.cons.inj heq
        exact (hfirst length rfl hpos).imp_right .inl
      | cons c before =>
        obtain ⟨rfl, htail⟩ := List.cons.inj heq
        obtain ⟨hs, hd⟩ := hrest before length after htail hpos
        refine ⟨hs, ?_⟩
        rcases hd with (hd | ⟨rdmsr, rfl⟩) | ⟨rdmsr, hr⟩
        · exact .inl hd
        · exact .inr ⟨rdmsr, List.mem_cons_self ..⟩
        · exact .inr ⟨rdmsr, List.mem_cons_of_mem _ hr⟩
    · intro hall
      refine ⟨fun length hc hpos => ?_, fun before length after heq hpos => ?_⟩
      · have := hall [] length calls (by rw [hc]; rfl) hpos
        simpa using this
      · obtain ⟨hs, hd⟩ := hall (call :: before) length after (by rw [heq]; rfl) hpos
        refine ⟨hs, ?_⟩
        rcases hd with hd | ⟨rdmsr, hr⟩
        · exact .inl (.inl hd)
        · rcases List.mem_cons.mp hr with rfl | hr
          · exact .inl (.inr ⟨rdmsr, rfl⟩)
          · exact .inr ⟨rdmsr, hr⟩

/-- In a run of the module the bytes copied to user space were all dumped into the buffer
before exactly when no read comes before a dump. -/
theorem copied_fromDump_iff (hstart : (startFunction majorNum kmalloc).1 = 0)
    (calls : List Call) :
    (∀ l ∈ copied calls (startFunction majorNum kmalloc).2, l.FromDump) ↔
      ReadsAfterDump kmalloc calls := by
  rw [(Holds.start hstart).copied_iff calls]
  simp [ReadsAfterDump]

/-- A module that hands out what it has dumped: the registers all hold 1. -/
theorem copied_fromDump_iff_one :
    ReadsAfterDump (some fun _ => 0) [.open, .ioctl fun _ => (1, 1), .read 2000, .release] ∧
      ∀ l ∈ copied [.open, .ioctl fun _ => (1, 1), .read 2000, .release]
        (startFunction 250 (some fun _ => 0)).2, l.FromDump := by
  have h : ReadsAfterDump (some fun _ => 0)
      [.open, .ioctl fun _ => (1, 1), .read 2000, .release] := by
    refine fun before length after heq _ => ⟨rfl, fun _ => (1, 1), ?_⟩
    match before with
    | [] => cases heq
    | [_] => cases heq
    | a :: b :: l =>
      have hb : Call.ioctl (fun _ => (1, 1)) = b := (List.cons.inj (List.cons.inj heq).2).1
      exact hb ▸ List.mem_cons_of_mem a (List.mem_cons_self ..)
  exact ⟨h, (copied_fromDump_iff rfl _).mpr h⟩

/-- Without a dump before, a read hands out what `kmalloc` has found; without a buffer it
reads behind the null pointer, also after an ioctl. -/
theorem copied_not_fromDump :
    (startFunction 250 (some fun _ => 7)).1 = 0 ∧ (startFunction 250 none).1 = 0 ∧
      ¬ (∀ l ∈ copied [.open, .read 1] (startFunction 250 (some fun _ => 7)).2, l.FromDump) ∧
      ¬ ∀ l ∈ copied [.open, .ioctl fun _ => (1, 1), .read 1] (startFunction 250 none).2,
          l.FromDump := by
  have huninit : copied [.open, .read 1] (startFunction 250 (some fun _ => 7)).2 =
      [.buffer 0 ⟨7, false⟩] := by decide
  have hnull : copied [.open, .ioctl fun _ => (1, 1), .read 1] (startFunction 250 none).2 =
      [.null 0] := by decide
  rw [huninit, hnull]
  exact ⟨rfl, rfl, by simp [Load.FromDump], by simp [Load.FromDump]⟩

end BS.Lbr
