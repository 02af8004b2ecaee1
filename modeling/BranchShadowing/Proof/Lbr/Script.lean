import BranchShadowing.Proof.Lbr.Dump
import BranchShadowing.Proof.Lbr.Reader

/-!
# What the script reads

An ioctl prints the records that it has dumped, one by one, while others may print as well
(`Kernel.Printed`). `run_once` goes through the last lines that the kernel has printed: what it
says is a function of them (`runOnce_eq`), and so of the ring that was dumped
(`Kernel.runOnce_dumped`).
-/

namespace BS.Lbr

open RunEnclaveJne

/-! ## What comes behind -/

section Behind

variable {α : Type*} (p : α → Bool)

theorem behind_cons_cons (a b : α) (l : List α) :
    behind p (a :: b :: l) = (if p a && !p b then [b] else []) ++ behind p (b :: l) := by
  rw [behind, List.tail_cons, List.zip_cons_cons, List.filter_cons]
  split <;> rfl

theorem behind_concat (l : List α) (a : α) :
    behind p (l ++ [a]) = behind p l ++ if l.getLast?.any p && !p a then [a] else [] := by
  induction l with
  | nil => rfl
  | cons b l ih =>
    cases l with
    | nil =>
      rw [List.singleton_append, behind_cons_cons]
      exact List.append_nil _
    | cons c l =>
      rw [List.cons_append, List.cons_append, behind_cons_cons, behind_cons_cons,
        ← List.cons_append, ih, List.append_assoc, List.getLast?_cons_cons]

end Behind

/-! ## The loop of `run_once` -/

/-- The variables, after some lines. -/
theorem scan_eq (addr : String) (lines : List LogLine) :
    lines.foldl (Scan.line addr) {} =
      { hit := (observed addr 0 lines).hit
        isFollowing := lines.getLast?.any fun l => l.addr = addr
        time := (observed addr 0 lines).cycles
        followingCycles := (observed addr 0 lines).fcycles
        notFound := (observed addr 0 lines).notFound } := by
  induction lines using List.reverseRecOn with
  | nil => rfl
  | append_singleton lines l ih =>
    rw [List.foldl_append, ih, List.foldl_cons, List.foldl_nil, List.getLast?_concat]
    by_cases hl : l.addr = addr
    · simp [Scan.line, observed, behind_concat, hl]
    · have hl' : ¬ addr = l.addr := fun h => hl h.symm
      cases hfollow : lines.getLast?.any fun l => l.addr = addr with
      | true => simp [Scan.line, observed, behind_concat, hl, hl', hfollow]
      | false => simp [Scan.line, observed, behind_concat, hl, hl', hfollow]

theorem runOnce_eq (addr : String) (victimInput : Int) (lines : List LogLine) :
    runOnce addr victimInput lines = observed addr victimInput lines := by
  rw [runOnce, scan_eq]
  rfl

/-! ## Addresses -/

theorem mem_toDigits {n : Nat} {c : Char} (h : c ∈ Nat.toDigits 16 n) :
    c ∈ "0123456789abcdef".toList := by
  have hdigit : ∀ d < 16, Nat.digitChar d ∈ "0123456789abcdef".toList := by decide
  induction n using Nat.strong_induction_on with
  | h n ih =>
    rw [Nat.toDigits_eq_if (by decide)] at h
    split at h
    · rw [List.mem_singleton.mp h]
      exact hdigit n (by assumption)
    · rcases List.mem_append.mp h with h | h
      · exact ih (n / 16) (by omega) h
      · rw [List.mem_singleton.mp h]
        exact hdigit _ (Nat.mod_lt n (by decide))

/-- The script takes an address from 8 digits on. -/
theorem goodAddress_hex (a : BitVec 64) : goodAddress (hex a) = decide (0x10000000 ≤ a.toNat) := by
  have hlist : beforeEnd (hex a) = Nat.toDigits 16 a.toNat := by
    have hdigits : (hex a).toList = Nat.toDigits 16 a.toNat := String.toList_ofList
    rw [beforeEnd, hdigits, if_neg]
    exact fun h => absurd (mem_toDigits (List.mem_of_getLast? h)) (by decide)
  have hmax : (Nat.toDigits 16 a.toNat).length ≤ 16 :=
    (Nat.length_toDigits_le_iff (by decide) (by decide)).mpr a.isLt
  have hmin : 8 ≤ (Nat.toDigits 16 a.toNat).length ↔ 0x10000000 ≤ a.toNat := by
    have h := Nat.length_toDigits_le_iff (b := 16) (n := a.toNat) (k := 7) (by decide) (by decide)
    omega
  have hall : ((Nat.toDigits 16 a.toNat).all fun c => c ∈ "0123456789abcdef".toList) = true :=
    List.all_eq_true.mpr fun c hc => decide_eq_true (mem_toDigits hc)
  rw [goodAddress, hlist, hall, Bool.and_true, decide_eq_true hmax, Bool.and_true]
  exact decide_eq_decide.mpr hmin

/-! ## The lines of a dump -/

/-- What the kernel prints of a buffer. -/
def linesOf (buffer : Mem Cell) : List LbrReader.Line :=
  LbrReader.printLbrData fun x => (buffer x).value

theorem lineOf_inSlot (b : Branch) (i : Nat) : lineOf (b.inSlot i).toUser = b.line := by
  have hcycles := congrArg BitVec.toNat (cycleCount_inSlot b i)
  rw [BitVec.toNat_setWidth_of_le (by decide)] at hcycles
  rw [lineOf, Branch.line, fromAddress_inSlot, mispredicted_inSlot, hcycles]

theorem logged_dumpLBR (cpu : Cpu) (buffer : Mem Cell) :
    (linesOf (dumpLBR cpu.rdmsr buffer)).map LbrReader.Line.logged =
      cpu.lbr.history.map Branch.line := by
  have hbytes : Mem.read (fun x => (dumpLBR cpu.rdmsr buffer x).value) 0 lbrDataSize =
      (snapshot cpu.rdmsr).flatMap LbrData.bytes := by
    rw [snapshot_bytes, ← read_dumpLBR cpu.rdmsr buffer, Mem.read, Mem.read, List.map_map]
    rfl
  rw [linesOf, logged_eq, records_of_read (snapshot_length _) hbytes, snapshot_rdmsr, recordsIn,
    Ring.history, List.map_map, List.map_map, List.map_map]
  exact List.map_congr_left fun k _ => lineOf_inSlot _ _

/-- The operation prints a record. -/
def Op.records : Op → Bool
  | .printRecord _ => true
  | _ => false

section Records

variable {op : Op} {pc : Nat}

theorem Op.prints_of_not_records (h : op.records = false) (st : Module) (ts : Threads) :
    (op.prints st ts).filterMap id = [] := by
  cases op with
  | printRecord i => cases h
  | unlessError n =>
    rw [prints]
    split <;> rfl
  | _ => rfl

theorem not_records_of_ioctl (hpc : pc < 37 ∨ 69 ≤ pc) (h : deviceIoctlOps[pc]? = some op) :
    op.records = false := by
  have hbefore : ∀ op ∈ deviceIoctlOps.take 37, op.records = false := by decide
  have hbehind : ∀ op ∈ deviceIoctlOps.drop 69, op.records = false := by decide
  rcases hpc with hlt | hge
  · refine hbefore op (List.mem_of_getElem? (i := pc) ?_)
    rwa [List.getElem?_take_of_lt hlt]
  · refine hbehind op (List.mem_of_getElem? (i := pc - 69) ?_)
    rwa [List.getElem?_drop, Nat.add_sub_cancel' hge]

theorem not_readNext_of_ioctl (hpc : 69 ≤ pc) (h : deviceIoctlOps[pc]? = some op) :
    op ≠ .readNext := by
  have hall : ∀ op ∈ deviceIoctlOps.drop 69, op ≠ .readNext := by decide
  refine hall op (List.mem_of_getElem? (i := pc - 69) ?_)
  rwa [List.getElem?_drop, Nat.add_sub_cancel' hpc]

theorem onModule_lbrData {st : Module} (rdmsr : Msrs) (k : Task) (h : op ≠ .readNext) :
    (op.onModule rdmsr k st).lbrData = st.lbrData := by
  cases op with
  | readNext => exact absurd rfl h
  | _ => rfl

theorem onModule_eq_none {st : Module} (rdmsr : Msrs) (k : Task) (h : st.lbrData = none) :
    (op.onModule rdmsr k st).lbrData = none := by
  cases op with
  | readNext =>
    rw [Op.onModule, h]
    rfl
  | _ => exact h

theorem linesOf_length (buffer : Mem Cell) : (linesOf buffer).length = 32 := by
  simp [linesOf, LbrReader.printLbrData, LbrReader.lbrCount]

theorem linesOf_getElem? (buffer : Mem Cell) {j : Nat} (hj : j < 32) :
    (linesOf buffer)[j]? = some (LbrReader.record (fun x => (buffer x).value) j).printed := by
  have hj' : j < LbrReader.lbrCount := hj
  rw [linesOf, LbrReader.printLbrData, List.getElem?_map, List.getElem?_range hj', Option.map_some]

theorem ioctl_printRecord {j : Nat} (hj : j < 32) :
    deviceIoctlOps[37 + j]? = some (.printRecord j) := by
  have hall : ∀ j < 32, deviceIoctlOps[37 + j]? = some (.printRecord j) := by decide
  exact hall j hj

end Records

namespace Kernel

variable {s s' : Kernel} {c t : Nat} {k k' : Task} {op : Op} {e : Event}

/-- The records that were printed. -/
def records (s : Kernel) : List LbrReader.Line := s.dmesg.filterMap id

theorem exec_records (c t : Nat) (k : Task) (op : Op) (created : Bool) :
    (s.exec c t k op created).records = s.records ++ (op.prints s.dev s.ts).filterMap id :=
  List.filterMap_append ..

theorem Change.records (h : Change s e s') : s'.records = s.records ∨ s.printsRecord e := by
  cases h with
  | @step c t k op created current free =>
    cases hrec : op.records with
    | false => exact .inl (by rw [exec_records, Op.prints_of_not_records hrec, List.append_nil])
    | true =>
      cases op with
      | printRecord i => exact .inr ⟨t, k, i, current⟩
      | _ => cases hrec
  | printk line =>
    cases line with
    | some l => exact .inr rfl
    | none =>
      refine .inl ((List.filterMap_append ..).trans ?_)
      exact List.append_nil _
  | _ => exact .inl (.refl _)

/-- A step of others prints no record. -/
theorem records_of_others (s : Kernel) (e : Event) (hk : s.tasks[t]? = some k)
    (honly : s.printsRecord e → ∃ c created, e = .step c created ∧ s.running c = some t)
    (hown : ¬ ∃ c created op, Does s e (s.act e) c t k op created) :
    (s.act e).records = s.records := by
  rcases (change s e).records with h | h
  · exact h
  · obtain ⟨c, created, rfl, hr⟩ := honly h
    obtain ⟨t', k', i, hc⟩ := h
    obtain ⟨hr', hk', -⟩ := current_iff.mp hc
    obtain rfl : t' = t := Option.some.inj (hr'.symm.trans hr)
    obtain rfl : k' = k := Option.some.inj (hk'.symm.trans hk)
    exact absurd ⟨c, created, _, rfl, hc, rfl, act_step hc rfl⟩ hown

/-! ## A dump that is printed -/

/-- An ioctl has printed the records of the buffer that it has come past, and none else were
printed. -/
def Printed (t : Nat) (old : List LbrReader.Line) (s : Kernel) : Prop :=
  ∃ k, s.tasks[t]? = some k ∧ k.prog = .ioctl ∧ s.records =
    old ++ s.dev.lbrData.toList.flatMap fun buffer => (linesOf buffer).take (k.pc - 37)

variable {old : List LbrReader.Line}

/-- One more operation of the ioctl. -/
theorem printed_exec {created : Bool} (hc : s.current c = some (t, k, op))
    (hprog : k.prog = .ioctl) (hrec : s.records =
      old ++ s.dev.lbrData.toList.flatMap fun buffer => (linesOf buffer).take (k.pc - 37)) :
    (s.exec c t k op created).records =
      old ++ (op.onModule (s.cpus c).rdmsr k s.dev).lbrData.toList.flatMap fun buffer =>
        (linesOf buffer).take (op.next s.dev s.ts k - 37) := by
  have hop : deviceIoctlOps[k.pc]? = some op := by
    have h := (current_iff.mp hc).2.2
    rwa [hprog] at h
  have hlt : k.pc < op.next s.dev s.ts k := Op.lt_next s.dev s.ts (current_iff.mp hc).2.2
  rw [exec_records, hrec]
  rcases Nat.lt_or_ge k.pc 37 with hbefore | hge
  · rw [Op.prints_of_not_records (not_records_of_ioctl (.inl hbefore) hop), List.append_nil]
    cases hb : s.dev.lbrData with
    | none =>
      rw [onModule_eq_none _ _ hb]
      rfl
    | some buffer =>
      have hnext := next_of_buffer s.ts (by omega) hop (by rw [hb]; rfl)
      rw [hnext, show k.pc - 37 = 0 by omega, show k.pc + 1 - 37 = 0 by omega]
      simp
  rcases Nat.lt_or_ge k.pc 69 with hlt' | hbehind
  · obtain ⟨j, hj⟩ : ∃ j, k.pc = 37 + j := ⟨k.pc - 37, by omega⟩
    rw [hj, ioctl_printRecord (by omega)] at hop
    obtain rfl : op = .printRecord j := (Option.some.inj hop).symm
    have hnext : (Op.printRecord j).next s.dev s.ts k = k.pc + 1 := rfl
    have hdev : (Op.printRecord j).onModule (s.cpus c).rdmsr k s.dev = s.dev := rfl
    rw [hnext, hdev, hj, show 37 + j - 37 = j by omega, show 37 + j + 1 - 37 = j + 1 by omega]
    cases hb : s.dev.lbrData with
    | none => simp [Op.prints, hb]
    | some buffer =>
      rw [Op.prints, hb, List.append_assoc]
      simp [List.take_add_one, linesOf_getElem? buffer (show j < 32 by omega)]
  · rw [Op.prints_of_not_records (not_records_of_ioctl (.inr hbehind) hop), List.append_nil,
      onModule_lbrData _ _ (not_readNext_of_ioctl hbehind hop)]
    refine congrArg (old ++ List.flatMap · _) (funext fun buffer => ?_)
    rw [List.take_of_length_le (by rw [linesOf_length]; omega),
      List.take_of_length_le (by rw [linesOf_length]; omega)]

theorem printed_ioctl (hidle : s.running c = none) :
    Printed s.tasks.length s.records (s.act (.ioctl c)) := by
  have hact : s.act (.ioctl c) = s.enter c .ioctl := if_pos hidle
  refine ⟨_, by rw [hact, enter, List.getElem?_concat_length], rfl, ?_⟩
  rw [hact]
  simp [records, enter]

theorem Printed.act (h : Printed t old s) (hs : Sched s)
    (hund : s.touches e → ∃ c created, e = .step c created ∧ s.running c = some t)
    (honly : s.printsRecord e → ∃ c created, e = .step c created ∧ s.running c = some t) :
    Printed t old (s.act e) := by
  obtain ⟨k, hk, hprog, hrec⟩ := h
  by_cases hown : ∃ c created op, Does s e (s.act e) c t k op created
  · obtain ⟨c, created, op, hd⟩ := hown
    rw [hd.state]
    refine ⟨_, exec_task created hd.current (hs.current hd.current).1, by simpa using hprog, ?_⟩
    rw [Op.onTask_pc]
    exact printed_exec hd.current hprog hrec
  · rcases own_or_aside s e hk hund with h | ha
    · exact absurd h hown
    · obtain ⟨k', hk', hsame⟩ := ha.task
      refine ⟨k', hk', hsame.prog.trans hprog, ?_⟩
      rw [records_of_others s e hk honly hown, ha.dev, hsame.pc, hrec]

theorem Printed.run {es : List Event} (h : Printed t old s) (hs : Sched s)
    (hund : Undisturbed t es s) (honly : OnlyBy printsRecord t es s) : Printed t old (s.run es) := by
  induction es generalizing s with
  | nil => exact h
  | cons e es ih =>
    exact ih (h.act hs hund.1 honly.1) (hs.change (change s e)) hund.2 honly.2

/-- An ioctl that has dumped prints no more records. -/
theorem records_behind {es : List Event} (hs : Sched s) (hk : s.tasks[t]? = some k)
    (hprog : k.prog = .ioctl) (hpc : 72 ≤ k.pc) (honly : OnlyBy printsRecord t es s) :
    (s.run es).records = s.records := by
  induction es generalizing s k with
  | nil => rfl
  | cons e es ih =>
    have hs' := hs.change (change s e)
    by_cases hown : ∃ c created op, Does s e (s.act e) c t k op created
    · obtain ⟨c, created, op, hd⟩ := hown
      have hop := (current_iff.mp hd.current).2.2
      have hlt := Op.lt_next s.dev s.ts hop
      have htask := exec_task created hd.current (hs.current hd.current).1
      rw [← hd.state] at htask
      refine (ih hs' htask (by simpa using hprog) (by rw [Op.onTask_pc]; omega) honly.2).trans ?_
      rw [hprog] at hop
      rw [hd.state, exec_records, Op.prints_of_not_records
        (not_records_of_ioctl (.inr (by omega)) hop), List.append_nil]
    · rcases (change s e).task hk with h | ⟨k', hk', hsame⟩
      · exact absurd h hown
      · refine (ih hs' hk' (hsame.prog.trans hprog) (by rwa [hsame.pc]) honly.2).trans ?_
        exact records_of_others s e hk honly.1 hown

/-- The records of an ioctl that has dumped are printed behind those before, and no others. -/
theorem records_dumped {es es' : List Event} {cpu : Cpu} (hs : Sched s) (hidle : s.running c = none)
    (hund : Undisturbed s.tasks.length es (s.act (.ioctl c)))
    (hdumped : Dumped ((s.act (.ioctl c)).run es) s.tasks.length)
    (honly : OnlyBy printsRecord s.tasks.length (es ++ es') (s.act (.ioctl c)))
    (hbuffer : s.dev.lbrData.isSome)
    (hdev : ((s.act (.ioctl c)).run es).dev = deviceIoctl cpu.rdmsr s.dev) :
    ∃ new, ((s.act (.ioctl c)).run (es ++ es')).records = s.records ++ new ∧
      new.map LbrReader.Line.logged = cpu.lbr.history.map Branch.line := by
  obtain ⟨honly₁, honly₂⟩ := along_append.mp honly
  have hs' := hs.change (change s (.ioctl c))
  obtain ⟨k, hk, hprog, hrec⟩ := (printed_ioctl hidle).run hs' hund honly₁
  obtain ⟨k', hk', hleft⟩ := hdumped
  obtain rfl : k' = k := Option.some.inj (hk'.symm.trans hk)
  have hpc : 72 ≤ k'.pc := by
    rw [ioctl_left hprog, show (allThreads .enableLBR).length = 13 from rfl] at hleft
    omega
  obtain ⟨buffer, hb⟩ := Option.isSome_iff_exists.mp hbuffer
  have hdata : ((s.act (.ioctl c)).run es).dev.lbrData = some (dumpLBR cpu.rdmsr buffer) := by
    rw [hdev, deviceIoctl, hb]
  refine ⟨linesOf (dumpLBR cpu.rdmsr buffer), ?_, logged_dumpLBR cpu buffer⟩
  have hbehind := records_behind
    (run_induction (P := Sched) (fun s e _ h => h.change (change s e)) hs') hk hprog hpc honly₂
  rw [run_append, hbehind, hrec, hdata, Option.toList_some, List.flatMap_singleton,
    List.take_of_length_le (by rw [linesOf_length]; omega)]

/-! ## The last lines -/

/-- What was printed stays. -/
theorem dmesg_prefix (s : Kernel) (es : List Event) : ∃ lines, (s.run es).dmesg = s.dmesg ++ lines := by
  refine run_induction (P := fun s' => ∃ lines, s'.dmesg = s.dmesg ++ lines)
    (fun s' e _ h => ?_) ⟨[], (List.append_nil _).symm⟩
  obtain ⟨lines, h⟩ := h
  have hch := change s' e
  generalize s'.act e = s'' at hch ⊢
  cases hch with
  | @step c t k op created current free =>
    exact ⟨lines ++ op.prints s'.dev s'.ts, by rw [← List.append_assoc, ← h]; rfl⟩
  | printk line => exact ⟨lines ++ [line], by rw [← List.append_assoc, ← h]⟩
  | _ => exact ⟨lines, h⟩

/-- Of the last lines, those that were printed before. -/
theorem old_subset (s : Kernel) (es : List Event) :
    (s.dmesg.drop ((s.run es).dmesg.length - 40)).filterMap id ⊆ s.tail.filterMap id := by
  obtain ⟨lines, h⟩ := dmesg_prefix s es
  refine (List.Sublist.filterMap id (List.drop_sublist_drop_left s.dmesg ?_)).subset
  rw [h, List.length_append]
  omega

/-- Where few lines were printed since, the last lines begin with some of those before. -/
theorem tail_records (es : List Event)
    (hlines : (s.run es).dmesg.length ≤ s.dmesg.length + 40)
    {new : List LbrReader.Line} (hrec : (s.run es).records = s.records ++ new) :
    (s.run es).tail.filterMap id =
      (s.dmesg.drop ((s.run es).dmesg.length - 40)).filterMap id ++ new := by
  obtain ⟨lines, h⟩ := dmesg_prefix s es
  have hnew : lines.filterMap id = new := by
    rw [records, h, List.filterMap_append] at hrec
    exact List.append_cancel_left hrec
  rw [tail, h, List.drop_append_of_le_length (by rw [← h]; omega), List.filterMap_append, hnew]

/-- What `run_once` makes of a dump of this CPU. -/
theorem runOnce_of_dumped {es es' : List Event} {cpu : Cpu} (hs : Sched s)
    (hidle : s.running c = none) (hund : Undisturbed s.tasks.length es (s.act (.ioctl c)))
    (hdumped : Dumped ((s.act (.ioctl c)).run es) s.tasks.length)
    (honly : OnlyBy printsRecord s.tasks.length (es ++ es') (s.act (.ioctl c)))
    (hbuffer : s.dev.lbrData.isSome)
    (hdev : ((s.act (.ioctl c)).run es).dev = deviceIoctl cpu.rdmsr s.dev)
    (hlines : ((s.act (.ioctl c)).run (es ++ es')).dmesg.length ≤ s.dmesg.length + 40)
    (src : BitVec 64) (victimInput : Int) :
    ((s.act (.ioctl c)).run (es ++ es')).runOnce? (hex src) victimInput =
      if 0x10000000 ≤ src.toNat then
        some (observed (hex src) victimInput
          (((s.dmesg.drop (((s.act (.ioctl c)).run (es ++ es')).dmesg.length - 40)).filterMap id).map
              LbrReader.Line.logged ++ cpu.lbr.history.map Branch.line))
      else none := by
  obtain ⟨new, hrec, hnew⟩ := records_dumped hs hidle hund hdumped honly hbuffer hdev
  have htail := tail_records (.ioctl c :: (es ++ es')) hlines hrec
  change ((s.act (.ioctl c)).run (es ++ es')).tail.filterMap id = _ at htail
  rw [runOnce?, RunEnclaveJne.runOnce?, goodAddress_hex, htail, List.map_append, hnew, runOnce_eq]
  simp only [decide_eq_true_eq]
  rfl

end Kernel

end BS.Lbr
