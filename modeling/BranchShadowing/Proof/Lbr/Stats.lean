import BranchShadowing.Spec.LbrStats

/-!
# The hits are the misses

All that look at a dump take the last record of the branch: `add_from_lbr_data` in its
loop, and `run_once` in the lines that are printed (`foldl_last`). They also agree on the
cycles, but the loop takes a set bit for a hit.
-/

namespace BS

open LbrReader RunEnclaveJne

/-! ## The last match -/

section Last

variable {α β σ : Type*} {p : α → Prop} [DecidablePred p] (view : σ → β) (f : σ → α → σ)
  (out : α → β)

/-- What a loop says that at each match sets what it says from that match. -/
theorem foldl_last (hmatch : ∀ s a, p a → view (f s a) = out a)
    (hother : ∀ s a, ¬ p a → view (f s a) = view s) (l : List α) (s : σ) :
    view (l.foldl f s) = ((l.filter p).getLast?.map out).getD (view s) := by
  induction l using List.reverseRecOn with
  | nil => rfl
  | append_singleton l a ih =>
    rw [List.foldl_append, List.filter_append]
    by_cases ha : p a
    · simp only [List.foldl_cons, List.foldl_nil, List.filter_cons, List.filter_nil, ha,
        decide_true, if_true, List.getLast?_concat, Option.map_some, Option.getD_some]
      exact hmatch _ a ha
    · simp only [List.foldl_cons, List.foldl_nil, List.filter_cons, List.filter_nil, ha,
        decide_false, Bool.false_eq_true, if_false, List.append_nil]
      rw [hother _ a ha, ih]

end Last

/-! ## The fields of a record -/

theorem lbrDataGetFrom_eq (d : LbrData) : lbrDataGetFrom d = d.fromAddress.setWidth 64 := by
  have haxf := d.axf.isLt
  have hdxf := d.dxf.isLt
  have hmask : addr64Mask.toNat = 2 ^ 48 - 1 := by decide
  have hsum : ((d.dxf.setWidth 64 <<< 32) + d.axf.setWidth 64).toNat =
      d.dxf.toNat * 2 ^ 32 + d.axf.toNat := by
    simp only [BitVec.toNat_add, BitVec.toNat_shiftLeft, BitVec.toNat_setWidth, Nat.shiftLeft_eq]
    omega
  have happ : (d.dxf ++ d.axf).toNat = d.dxf.toNat * 2 ^ 32 + d.axf.toNat := by
    rw [BitVec.toNat_append, ← Nat.shiftLeft_add_eq_or_of_lt haxf, Nat.shiftLeft_eq]
  unfold lbrDataGetFrom LbrData.fromAddress
  apply BitVec.eq_of_toNat_eq
  rw [BitVec.toNat_and, hmask, Nat.and_comm, Nat.and_two_pow_sub_one_eq_mod, hsum,
    BitVec.toNat_setWidth, BitVec.extractLsb'_toNat, happ, Nat.shiftRight_zero]
  omega

theorem lbrDataGetMispred_eq (d : LbrData) :
    lbrDataGetMispred d = if d.mispredicted then BitVec.twoPow 32 31 else 0 := by
  have hand : (mispred32Mask &&& d.infoD.setWidth 64).setWidth 32 =
      d.infoD &&& BitVec.twoPow 32 31 := by
    rw [BitVec.setWidth_and, BitVec.setWidth_setWidth_of_le _ (by decide), BitVec.setWidth_eq,
      BitVec.and_comm]
    rfl
  unfold lbrDataGetMispred LbrData.mispredicted
  rw [hand, BitVec.and_twoPow, BitVec.msb_eq_getLsbD_last]
  rfl

theorem lbrDataGetMispred_ne_zero (d : LbrData) :
    lbrDataGetMispred d ≠ 0 ↔ d.mispredicted = true := by
  rw [lbrDataGetMispred_eq]
  by_cases h : d.mispredicted = true
  · rw [if_pos h]
    exact iff_of_true (by decide) h
  · rw [if_neg h]
    exact iff_of_false (fun hne => hne rfl) h

theorem lbrDataGetCycleCount_eq (d : LbrData) :
    lbrDataGetCycleCount d = d.cycleCount.setWidth 32 := by
  have hinfo := d.infoA.isLt
  have hmask : cycles32Mask.toNat = 2 ^ 16 - 1 := by decide
  unfold lbrDataGetCycleCount LbrData.cycleCount
  apply BitVec.eq_of_toNat_eq
  rw [BitVec.toNat_setWidth, BitVec.toNat_and, hmask, Nat.and_comm, Nat.and_two_pow_sub_one_eq_mod,
    BitVec.toNat_setWidth, BitVec.toNat_setWidth, BitVec.extractLsb'_toNat, Nat.shiftRight_zero]
  omega

/-! ## Hexadecimal digits -/

/-- Different digits are written differently. -/
theorem digitChar_inj {a b : Nat} (ha : a < 16) (hb : b < 16)
    (h : Nat.digitChar a = Nat.digitChar b) : a = b := by
  have hall : ∀ a < 16, ∀ b < 16, Nat.digitChar a = Nat.digitChar b → a = b := by decide
  exact hall a ha b hb h

theorem toDigits_inj {a b : Nat} (h : Nat.toDigits 16 a = Nat.toDigits 16 b) : a = b := by
  induction a using Nat.strong_induction_on generalizing b with
  | h a ih =>
    have hmod (n : Nat) : n % 16 < 16 := Nat.mod_lt n (by decide)
    rw [Nat.toDigits_eq_if (by decide), Nat.toDigits_eq_if (n := b) (by decide)] at h
    by_cases ha : a < 16 <;> by_cases hb : b < 16 <;>
      simp only [ha, hb, if_true, if_false] at h
    · exact digitChar_inj ha hb (List.singleton_injective h)
    · exact absurd (List.append_eq_singleton_iff.mp h.symm) (by simp)
    · exact absurd (List.append_eq_singleton_iff.mp h) (by simp)
    · obtain ⟨hdiv, hlast⟩ := List.append_inj' h rfl
      have hquot := ih (a / 16) (by omega) hdiv
      have hrem := digitChar_inj (hmod a) (hmod b) (List.singleton_injective hlast)
      omega

theorem hex_inj {a b : BitVec 64} : hex a = hex b ↔ a = b := by
  refine ⟨fun h => ?_, congrArg hex⟩
  exact BitVec.eq_of_toNat_eq (toDigits_inj (String.ofList_injective h))

/-! ## The loop of `add_from_lbr_data` -/

variable {K : Type*} [Field K] {data : Mem Byte} {src : BitVec 64} {s : LbrStats K}

/-- What the loop finds in a record. -/
def LbrStats.searchOf (d : LbrData) : LbrStats.Search :=
  ⟨true, d.mispredicted, d.cycleCount.setWidth 32⟩

theorem LbrStats.record_of_eq (search : LbrStats.Search) (d : LbrData)
    (h : d.fromAddress.setWidth 64 = src) : search.record src d = searchOf d := by
  unfold Search.record searchOf
  rw [lbrDataGetFrom_eq, if_pos h, lbrDataGetCycleCount_eq]
  simp only [lbrDataGetMispred_ne_zero, Bool.decide_eq_true]

theorem LbrStats.record_of_ne (search : LbrStats.Search) (d : LbrData)
    (h : ¬ d.fromAddress.setWidth 64 = src) : search.record src d = search := by
  unfold Search.record
  rw [lbrDataGetFrom_eq, if_neg h]

/-- The loop adds the last record of the branch, with its misprediction for a hit. -/
theorem LbrStats.addFromLbrData_eq (data : Mem Byte) (src : BitVec 64) (s : LbrStats K) :
    s.addFromLbrData data src =
      match (recordsOf data src).getLast? with
      | some d => s.addMeasurement d.mispredicted (d.cycleCount.setWidth 32)
      | none => s := by
  have hloop := foldl_last id (Search.record src) searchOf
    record_of_eq record_of_ne ((List.range lbrCount).map (LbrReader.record data)) {}
  unfold addFromLbrData
  dsimp only [id] at hloop ⊢
  rw [hloop]
  unfold recordsOf
  rcases (List.filter _ _).getLast? with - | d
  · rfl
  · rfl

/-! ## The script -/

/-- What the script sees of a record. -/
def lineOf (d : LbrData) : LogLine :=
  ⟨hex (d.fromAddress.setWidth 64), d.cycleCount.toNat, d.mispredicted⟩

theorem logged_printed (d : LbrData) : d.printed.logged = lineOf d := by
  have hmiss : decide (d.printed.mispred = "MISS") = d.mispredicted := by
    by_cases h : d.mispredicted = true
    · rw [LbrData.printed, if_pos ((lbrDataGetMispred_ne_zero d).mpr h), h]
      exact decide_eq_true rfl
    · rw [LbrData.printed, if_neg (h ∘ (lbrDataGetMispred_ne_zero d).mp),
        Bool.eq_false_of_not_eq_true h]
      exact decide_eq_false (show "____" ≠ "MISS" by decide)
  show LogLine.mk (hex (lbrDataGetFrom d)) (lbrDataGetCycleCount d).toNat _ = LogLine.mk _ _ _
  rw [hmiss, lbrDataGetFrom_eq, lbrDataGetCycleCount_eq,
    BitVec.toNat_setWidth_of_le (by decide)]

theorem logged_eq (data : Mem Byte) :
    (printLbrData data).map Line.logged = ((List.range lbrCount).map (record data)).map lineOf := by
  unfold printLbrData
  rw [List.map_map, List.map_map]
  exact List.map_congr_left fun i _ => logged_printed (record data i)

/-- What `run_once` returns of its loop. -/
def scanned (s : Scan) : Bool × Bool × Int := (s.notFound, s.hit, s.time)

def scannedOf (d : LbrData) : Bool × Bool × Int :=
  (false, !d.mispredicted, (d.cycleCount.toNat : Int))

theorem scanned_of_eq (s : Scan) (d : LbrData) (h : d.fromAddress.setWidth 64 = src) :
    scanned (s.line (hex src) (lineOf d)) = scannedOf d := by
  unfold Scan.line lineOf
  rw [if_pos (hex_inj.mpr h.symm)]
  rfl

theorem scanned_of_ne (s : Scan) (d : LbrData) (h : ¬ d.fromAddress.setWidth 64 = src) :
    scanned (s.line (hex src) (lineOf d)) = scanned s := by
  unfold Scan.line lineOf
  rw [if_neg fun heq => h (hex_inj.mp heq).symm]
  by_cases hfollow : s.isFollowing = true
  · rw [if_pos hfollow]
    rfl
  · rw [if_neg hfollow]

/-- The script reads the last record of the branch, and does not take a miss for a hit. -/
theorem readByScript_eq (data : Mem Byte) (src : BitVec 64) (victimInput : Int) :
    ((readByScript data src victimInput).notFound, (readByScript data src victimInput).hit,
        (readByScript data src victimInput).cycles) =
      ((recordsOf data src).getLast?.map scannedOf).getD (true, false, -1) := by
  have hloop := foldl_last scanned (fun s d => Scan.line (hex src) s (lineOf d))
    scannedOf scanned_of_eq scanned_of_ne ((List.range lbrCount).map (record data)) {}
  unfold readByScript runOnce
  rw [logged_eq, List.foldl_map]
  exact hloop

/-! ## The measurement -/

theorem LbrStats.addMeasurement_hit_ne (cycles : BitVec 32) (hit : Bool) :
    s.addMeasurement hit cycles ≠ s.addMeasurement (!hit) cycles := by
  intro h
  have hvals := congrArg (fun s => s.hits.vals) h
  have hval := List.append_cancel_left hvals
  by_cases hhit : hit = true
  · simp [hhit] at hval
  · simp [hhit] at hval

theorem recordsOf_eq_nil_iff :
    recordsOf data src = [] ↔ ∀ i < lbrCount, (record data i).fromAddress.setWidth 64 ≠ src := by
  unfold recordsOf
  simp only [List.filter_eq_nil_iff, List.mem_map, List.mem_range, forall_exists_index, and_imp,
    forall_apply_eq_imp_iff₂, decide_eq_true_eq, ne_eq]

/-- A dump with a record of the branch is measured wrong. -/
theorem LbrStats.not_measures (hne : recordsOf data src ≠ []) : ¬ Measures data src s := by
  intro ⟨_, hlast, _⟩
  have hd := List.getLast?_eq_some_getLast hne
  have h := hlast _ hd
  rw [addFromLbrData_eq, hd] at h
  exact addMeasurement_hit_ne _ _ h

/-- A dump is measured right just where there is nothing to measure. -/
theorem LbrStats.measures_iff :
    LbrStats.Measures data src s ↔
      ∀ i < lbrCount, (record data i).fromAddress.setWidth 64 ≠ src := by
  rw [← recordsOf_eq_nil_iff]
  constructor
  · exact fun h => by_contra fun hne => not_measures hne h
  · intro hnil
    have hsame : s.addFromLbrData data src = s := by
      rw [addFromLbrData_eq, hnil]
      rfl
    refine ⟨fun _ => hsame, fun d hd => ?_, fun v => ?_⟩
    · rw [hnil] at hd
      exact absurd hd (by simp)
    · have hscript := readByScript_eq data src v
      rw [hnil] at hscript
      have hfound : (readByScript data src v).notFound = true := congrArg Prod.fst hscript
      dsimp only
      rw [if_pos hfound, hsame]

/-- The bytes of a dump whose first record is a branch at 0x1000 that was predicted. -/
def predictedDump : Mem Byte := Mem.write (fun _ => 0) 9 [0x10]

/-- That branch is counted as a miss. -/
theorem LbrStats.predictedDump_not_measures :
    ¬ LbrStats.Measures predictedDump 0x1000 (⟨.empty, .empty, 0⟩ : LbrStats ℚ) :=
  not_measures fun hnil => recordsOf_eq_nil_iff.mp hnil 0 (by decide) (by decide)

end BS
