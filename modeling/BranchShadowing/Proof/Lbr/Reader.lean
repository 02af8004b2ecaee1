import BranchShadowing.Proof.Lbr.Dumper

/-!
# Reading the LBR

After an ioctl the index is 0 and the buffer holds the snapshot, which no read
changes. The reads take it in stretches, each from where the last one ended
(`Loaded.delivers`), so that the 32 reads of `read_lbr` find one record each
(`Loaded.readLbr_eq`).
-/

namespace BS.Lbr

/-- The buffer holds the bytes `D`. -/
structure Loaded (D : List Byte) (st : Module) : Prop where
  length : D.length = lbrDataSize
  index : st.lbrDataIndex ≤ lbrDataSize
  data : ∃ data, st.lbrData = some data ∧ ∀ x < lbrDataSize, D[x]? = some (data x).value

variable {D : List Byte} {st : Module}

/-! ## Reads -/

/-- A read delivers a stretch of the snapshot. -/
theorem Loaded.deviceRead_value (h : Loaded D st) (length : Nat) :
    (deviceRead length st).1.map Load.value =
      (List.range' st.position (min length (lbrDataSize - st.position))).map (D[·]?) := by
  obtain ⟨data, hd, hD⟩ := h.data
  rw [deviceRead_eq length h.index, List.map_map]
  refine List.map_congr_left fun x hx => ?_
  have hx := List.mem_range'_1.mp hx
  rw [hD x (by omega), hd]
  rfl

theorem Loaded.run (h : Loaded D st) {call : Call} (hc : ∀ rdmsr, call ≠ .ioctl rdmsr) :
    Loaded D (call.run st).2 := by
  cases call with
  | ioctl rdmsr => exact absurd rfl (hc rdmsr)
  | read length =>
    have hlt := st.position_lt
    refine ⟨h.length, ?_, ?_⟩
    · rw [Call.run, deviceRead_eq length h.index]
      show st.position + min length (lbrDataSize - st.position) ≤ lbrDataSize
      omega
    · rw [Call.run, deviceRead_eq length h.index]
      exact h.data
  | _ => exact h

/-- The bytes of `D` are delivered in order, from where `t` bytes have been delivered. -/
structure DeliversFrom (D : List Byte) (t : Nat) (outs : List (Nat × List (Option Byte))) : Prop where
  inOrder : ∀ i < (outs.flatMap Prod.snd).length,
    (outs.flatMap Prod.snd)[i]? = some D[(t + i) % D.length]?
  length : ∀ (k len : Nat) out, outs[k]? = some (len, out) → out.length =
    min len (D.length - (t + ((outs.take k).flatMap Prod.snd).length) % D.length)

/-- One more read in front, of the stretch up to there. -/
theorem DeliversFrom.cons {t len : Nat} {outs : List (Nat × List (Option Byte))}
    (hD : 0 < D.length) (h : DeliversFrom D (t + min len (D.length - t % D.length)) outs) :
    DeliversFrom D t ((len,
      (List.range' (t % D.length) (min len (D.length - t % D.length))).map (D[·]?)) :: outs) := by
  have hlt := Nat.mod_lt t hD
  generalize hn : min len (D.length - t % D.length) = n at h ⊢
  refine ⟨fun i hi => ?_, fun k len' out hk => ?_⟩
  · rw [List.flatMap_cons] at hi ⊢
    rcases Nat.lt_or_ge i n with hin | hge
    · have hmod : (t + i) % D.length = t % D.length + i := by
        rw [Nat.add_mod, Nat.mod_eq_of_lt (a := i) (by omega), Nat.mod_eq_of_lt (by omega)]
      rw [List.getElem?_append_left (by simpa using hin), List.getElem?_map,
        List.getElem?_range' hin, Option.map_some, Nat.one_mul, hmod]
    · rw [List.length_append, List.length_map, List.length_range'] at hi
      have hti : t + n + (i - n) = t + i := by omega
      rw [List.getElem?_append_right (by simpa using hge), List.length_map, List.length_range',
        h.inOrder (i - n) (by omega), hti]
  · cases k with
    | zero =>
      obtain ⟨rfl, rfl⟩ := Prod.mk.inj (Option.some.inj hk)
      rw [List.length_map, List.length_range', List.take_zero, List.flatMap_nil, List.length_nil,
        Nat.add_zero, hn]
    | succ k =>
      rw [h.length k len' out hk, List.take_succ_cons, List.flatMap_cons, List.length_append,
        List.length_map, List.length_range', Nat.add_assoc]

/-- The reads of a run deliver the snapshot from where the index stands. -/
theorem Loaded.deliversFrom (h : Loaded D st) {t : Nat} (ht : t % lbrDataSize = st.position)
    {calls : List Call} (hc : ∀ rdmsr, .ioctl rdmsr ∉ calls) :
    DeliversFrom D t (reads calls st) := by
  induction calls generalizing st t with
  | nil => exact ⟨by simp [reads], by simp [reads]⟩
  | cons call calls ih =>
    have hne : ∀ rdmsr, call ≠ .ioctl rdmsr := fun rdmsr he => hc rdmsr (by simp [he])
    have hc' : ∀ rdmsr, .ioctl rdmsr ∉ calls := fun rdmsr hm => hc rdmsr (List.mem_cons_of_mem _ hm)
    have h' := h.run hne
    cases call with
    | ioctl rdmsr => exact absurd rfl (hne rdmsr)
    | read length =>
      rw [reads, h.deviceRead_value length, ← ht, ← h.length]
      refine .cons (by rw [h.length]; decide) (ih h' ?_ hc')
      rw [h.length, Call.run, deviceRead_eq length h.index, ← ht, Module.position, Nat.add_mod]
      simp
    | _ => exact ih h' ht hc'

/-! ## The user's array -/

theorem LbrData.ofBytes_bytes (d : LbrData) : LbrReader.LbrData.ofBytes d.bytes = d.toUser := by
  have word (w : BitVec 32) : BitVec.ofNat 32 (ofLE (toLE 4 w.toNat)) = w := by
    rw [ofLE_toLE_of_lt w.isLt, BitVec.ofNat_toNat, BitVec.setWidth_eq]
  simp only [LbrReader.LbrData.ofBytes, toUser, LbrReader.LbrData.mk.injEq]
  exact ⟨word _, word _, word _, word _, word _, word _, word _, word _⟩

/-- The bytes of one record of many. -/
theorem bytes_of_flatMap {l : List LbrData} {o : Nat} {d : LbrData} (h : l[o]? = some d) :
    ((l.flatMap LbrData.bytes).drop (LbrReader.sizeofLbrData * o)).take LbrReader.sizeofLbrData =
      d.bytes := by
  induction l generalizing o with
  | nil => simp at h
  | cons e l ih =>
    have he : e.bytes.length = LbrReader.sizeofLbrData := e.bytes_length
    cases o with
    | zero =>
      obtain rfl : e = d := by simpa using h
      rw [Nat.mul_zero, List.drop_zero, List.flatMap_cons, List.take_left' he]
    | succ o =>
      rw [Nat.mul_succ, Nat.add_comm, ← List.drop_drop, List.flatMap_cons, List.drop_left' he]
      exact ih (by simpa using h)

theorem map_getElem?_range' {p n : Nat} (h : p + n ≤ D.length) :
    (List.range' p n).map (D[·]?) = ((D.drop p).take n).map some := by
  refine List.ext_getElem? fun k => ?_
  rcases Nat.lt_or_ge k n with hk | hk
  · rw [List.getElem?_map, List.getElem?_range' hk, Option.map_some, Nat.one_mul, List.getElem?_map,
      List.getElem?_take_of_lt hk, List.getElem?_drop, List.getElem?_eq_getElem (by omega),
      Option.map_some]
  · rw [List.getElem?_eq_none (by simpa using hk), List.getElem?_eq_none (by simp; omega)]

/-- The device is at record `i` of the snapshot. -/
structure AtRecord (D : List Byte) (i : Nat) (dev : Module) : Prop extends Loaded D dev where
  position : dev.position = LbrReader.sizeofLbrData * i % lbrDataSize

variable {i n : Nat} {dev : Module}

/-- A read of the size of a record delivers one. -/
theorem AtRecord.deviceRead (h : AtRecord D i dev) (hi : i < LbrReader.lbrCount) :
    ((deviceRead LbrReader.sizeofLbrData dev).1.filterMap Load.value) =
        (D.drop (LbrReader.sizeofLbrData * i)).take LbrReader.sizeofLbrData ∧
      AtRecord D (i + 1) (Lbr.deviceRead LbrReader.sizeofLbrData dev).2 := by
  have hpos : dev.position = 32 * i := by
    rw [h.position]
    exact Nat.mod_eq_of_lt (by simp only [LbrReader.lbrCount, LbrReader.sizeofLbrData, lbrDataSize,
      sizeofLbrData, lbrCount] at hi ⊢; omega)
  have hmin : min 32 (lbrDataSize - 32 * i) = 32 := by
    simp only [LbrReader.lbrCount, lbrDataSize, sizeofLbrData, lbrCount] at hi ⊢
    omega
  have hload : Loaded D ((Call.read 32).run dev).2 := h.toLoaded.run (by simp)
  refine ⟨?_, hload, ?_⟩
  · have hv := h.deviceRead_value 32
    rw [hpos, hmin, map_getElem?_range'] at hv
    · have := congrArg (List.filterMap id) hv
      rwa [List.filterMap_map, List.filterMap_map, Function.id_comp, Function.id_comp,
        List.filterMap_some] at this
    · rw [h.length]
      simp only [LbrReader.lbrCount, lbrDataSize, sizeofLbrData, lbrCount] at hi ⊢
      omega
  · show (Lbr.deviceRead 32 dev).2.position = 32 * (i + 1) % lbrDataSize
    rw [deviceRead_eq 32 h.index, hpos, hmin]
    rfl

theorem readRecords_succ (n i : Nat) (dev : Module) (data : Mem Byte) :
    LbrReader.readRecords (n + 1) i dev data =
      LbrReader.readRecords n (i + 1) (deviceRead LbrReader.sizeofLbrData dev).2
        (data.write (LbrReader.sizeofLbrData * i)
          ((deviceRead LbrReader.sizeofLbrData dev).1.filterMap Load.value)) := rfl

/-- The reads of `read_lbr` fill the array from record `i` on. -/
theorem AtRecord.readRecords (h : AtRecord D i dev) (hn : i + n ≤ LbrReader.lbrCount)
    (data : Mem Byte) :
    AtRecord D (i + n) (LbrReader.readRecords n i dev data).1 ∧
      (∀ x < LbrReader.sizeofLbrData * i, (LbrReader.readRecords n i dev data).2 x = data x) ∧
      (LbrReader.readRecords n i dev data).2.read (LbrReader.sizeofLbrData * i)
          (LbrReader.sizeofLbrData * n) =
        (D.drop (LbrReader.sizeofLbrData * i)).take (LbrReader.sizeofLbrData * n) := by
  induction n generalizing i dev data with
  | zero => exact ⟨h, fun _ _ => rfl, by simp [LbrReader.readRecords, Mem.read]⟩
  | succ n ih =>
    obtain ⟨hv, h'⟩ := h.deviceRead (by omega)
    have hlen : ((D.drop (LbrReader.sizeofLbrData * i)).take LbrReader.sizeofLbrData).length =
        LbrReader.sizeofLbrData := by
      have := h.length
      simp only [List.length_take, List.length_drop, LbrReader.lbrCount, LbrReader.sizeofLbrData,
        lbrDataSize, sizeofLbrData, lbrCount] at this hn ⊢
      omega
    obtain ⟨hat, hbelow, hread⟩ := ih h' (by omega) (data.write (LbrReader.sizeofLbrData * i)
      ((D.drop (LbrReader.sizeofLbrData * i)).take LbrReader.sizeofLbrData))
    rw [readRecords_succ, hv]
    generalize LbrReader.readRecords n (i + 1) _ _ = r at hat hbelow hread ⊢
    refine ⟨by rwa [Nat.add_right_comm, Nat.add_assoc] at hat, fun x hx => ?_, ?_⟩
    · rw [hbelow x (by rw [Nat.mul_succ]; omega), Mem.write_of_lt _ hx]
    · have hthis : r.2.read (LbrReader.sizeofLbrData * i) LbrReader.sizeofLbrData =
          (D.drop (LbrReader.sizeofLbrData * i)).take LbrReader.sizeofLbrData := by
        have hw := data.read_write_self (LbrReader.sizeofLbrData * i)
          ((D.drop (LbrReader.sizeofLbrData * i)).take LbrReader.sizeofLbrData)
        rw [hlen] at hw
        rw [← hw]
        exact Mem.read_congr fun x hx => hbelow _ (by rw [Nat.mul_succ]; omega)
      rw [Nat.mul_succ, Nat.add_comm, Mem.read_add, hthis, ← Nat.mul_succ, hread, Nat.mul_succ,
        ← List.drop_drop, List.take_add]

theorem AtRecord.readLbr {r : LbrReader} {malloc : Option (Mem Byte)} (h : AtRecord D 0 dev)
    (hfd : 1 ≤ r.fdLbr) (hm : (r.lbrData.or malloc).isSome) :
    ∃ data dev', LbrReader.readLbr malloc r dev = some (⟨r.fdLbr, some data⟩, dev') ∧
      AtRecord D 0 dev' ∧ data.read 0 lbrDataSize = D := by
  obtain ⟨data, hdata⟩ := Option.isSome_iff_exists.mp hm
  obtain ⟨hat, -, hread⟩ := h.readRecords (n := LbrReader.lbrCount) (by omega) data
  refine ⟨(LbrReader.readRecords LbrReader.lbrCount 0 dev data).2, _, ?_,
    ⟨hat.toLoaded, hat.position⟩, ?_⟩
  · rw [LbrReader.readLbr, if_neg (Int.not_lt.mpr hfd), hdata]
  · have hD := h.length
    have hsize : lbrDataSize = LbrReader.sizeofLbrData * LbrReader.lbrCount := rfl
    rw [hsize] at hD ⊢
    rw [Nat.mul_zero, List.drop_zero, ← hD, List.take_length] at hread
    rw [← hD]
    exact hread

/-- The records that bytes in memory are made of. -/
theorem records_of_read {records : List LbrData} (hr : records.length = lbrCount)
    {data : Mem Byte} (hdata : data.read 0 lbrDataSize = records.flatMap LbrData.bytes) :
    (List.range LbrReader.lbrCount).map (LbrReader.record data) =
      records.map LbrData.toUser := by
  rw [show LbrReader.lbrCount = lbrCount from rfl]
  refine List.ext_getElem? fun o => ?_
  rcases Nat.lt_or_ge o lbrCount with ho | ho
  · have hd : records[o]? = some records[o] := List.getElem?_eq_getElem (by omega)
    have hslot : data.read (LbrReader.sizeofLbrData * o) LbrReader.sizeofLbrData =
        records[o].bytes := by
      rw [← bytes_of_flatMap hd, ← hdata, Mem.drop_read, Mem.take_read, Nat.zero_add]
      · simp only [lbrDataSize, sizeofLbrData, lbrCount, LbrReader.sizeofLbrData] at ho ⊢
        omega
      · simp only [lbrDataSize, sizeofLbrData, lbrCount, LbrReader.sizeofLbrData] at ho ⊢
        omega
    rw [List.getElem?_map, List.getElem?_range ho, Option.map_some, LbrReader.record, hslot,
      LbrData.ofBytes_bytes, List.getElem?_map, hd, Option.map_some]
  · rw [List.getElem?_eq_none (by simpa [LbrReader.lbrCount, lbrCount] using ho),
      List.getElem?_eq_none (by simpa [hr] using ho)]

/-- However often it is called, `read_lbr` rebuilds the array. -/
theorem AtRecord.rebuilds {records : List LbrData}
    (h : AtRecord (records.flatMap LbrData.bytes) 0 dev) (hr : records.length = lbrCount) :
    Rebuilds records dev := by
  intro n malloc r hfd hm
  induction n generalizing r dev with
  | zero =>
    obtain ⟨data, dev', hread, -, hdata⟩ := h.readLbr hfd hm
    exact ⟨_, dev', data, by rw [readLbrs, hread]; rfl, rfl, records_of_read hr hdata⟩
  | succ n ih =>
    obtain ⟨data, dev', hread, hat, -⟩ := h.readLbr hfd hm
    obtain ⟨r', dev'', data', hrest, h'⟩ := ih hat (r := ⟨r.fdLbr, some data⟩) hfd rfl
    exact ⟨r', dev'', data', by rw [readLbrs, hread]; exact hrest, h'⟩

/-! ## After an ioctl -/

theorem snapshot_length (rdmsr : Msrs) : (snapshot rdmsr).length = lbrCount := by
  simp [snapshot]

theorem snapshot_bytes (rdmsr : Msrs) :
    (snapshot rdmsr).flatMap LbrData.bytes = ((snapshot rdmsr).flatMap cells).map Cell.value := by
  rw [List.map_flatMap]
  refine List.flatMap_congr fun d _ => ?_
  rw [cells, List.map_map]
  exact (List.map_id _).symm

theorem Holds.runCalls {kmalloc : Option (Mem Byte)} {dumped : Prop} (h : Holds kmalloc dumped st)
    (calls : List Call) : ∃ dumped', Holds kmalloc dumped' (runCalls calls st) := by
  induction calls generalizing dumped st with
  | nil => exact ⟨_, h⟩
  | cons call calls ih => exact ih (h.run call)

theorem atRecord_ioctl {majorNum : Int} {m : Mem Byte}
    (hstart : (startFunction majorNum (some m)).1 = 0) (history : List Call) (rdmsr : Msrs) :
    AtRecord ((snapshot rdmsr).flatMap LbrData.bytes) 0
      (deviceIoctl rdmsr (runCalls history (startFunction majorNum (some m)).2)) := by
  obtain ⟨_, h⟩ := (Holds.start hstart).runCalls history
  obtain ⟨data, hd, -⟩ := h.cells m rfl
  have hdev : deviceIoctl rdmsr (runCalls history (startFunction majorNum (some m)).2) =
      ⟨some (dumpLBR rdmsr data), 0⟩ := by simp [deviceIoctl, hd]
  rw [hdev, snapshot_bytes, ← read_dumpLBR rdmsr data]
  refine ⟨⟨by simp, Nat.zero_le _, _, rfl, fun x hx => ?_⟩, rfl⟩
  rw [List.getElem?_map, Mem.read_getElem? _ hx, Nat.zero_add, Option.map_some]

/-- Whatever was called before, after an ioctl the reads deliver the snapshot that was
dumped, again and again, and `read_lbr` rebuilds the array each time. -/
theorem reads_snapshot {majorNum : Int} {m : Mem Byte}
    (hstart : (startFunction majorNum (some m)).1 = 0) (history : List Call) (rdmsr : Msrs)
    {calls : List Call} (hc : ∀ rdmsr, .ioctl rdmsr ∉ calls) :
    Delivers ((snapshot rdmsr).flatMap LbrData.bytes)
        (reads calls (deviceIoctl rdmsr (runCalls history (startFunction majorNum (some m)).2))) ∧
      Rebuilds (snapshot rdmsr)
        (deviceIoctl rdmsr (runCalls history (startFunction majorNum (some m)).2)) := by
  have h := atRecord_ioctl hstart history rdmsr
  refine ⟨?_, h.rebuilds (snapshot_length rdmsr)⟩
  have hd := h.toLoaded.deliversFrom (t := 0) h.position.symm hc
  exact ⟨by simpa using hd.inOrder, by simpa using hd.length⟩

/-- Two uneven reads, after a read of what was there before. -/
theorem reads_snapshot_one :
    Delivers ((snapshot fun _ => (1, 1)).flatMap LbrData.bytes)
      (reads [.read 1000, .open, .read 100]
        (deviceIoctl (fun _ => (1, 1)) (runCalls [.read 7] (startFunction 250 (some fun _ => 0)).2))) ∧
      Rebuilds (snapshot fun _ => (1, 1))
        (deviceIoctl (fun _ => (1, 1)) (runCalls [.read 7] (startFunction 250 (some fun _ => 0)).2)) :=
  reads_snapshot rfl [.read 7] (fun _ => (1, 1)) (by simp)

end BS.Lbr
