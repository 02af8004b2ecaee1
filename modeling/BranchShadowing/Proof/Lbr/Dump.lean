import BranchShadowing.Proof.Lbr.Kernel
import BranchShadowing.Proof.Lbr.Reader
import BranchShadowing.Proof.Lbr.Stats

/-!
# Dumps among other steps

An ioctl turns the LBR of its CPU off and is not taken off the CPU until it has dumped, so the
ring stands still: if no other task uses the buffer meanwhile, it is as if the whole dump
had been made at that moment (`Kernel.ioctl_atomic`). The ring holds the end of what was
recorded on the CPU, and the user's statistics gain the last record of the branch there.
-/

namespace BS.Lbr

/-! ## Registers -/

@[simp] theorem Cpu.wrmsr_lbr (c : Cpu) (msr : Int) (v : BitVec 64) : (c.wrmsr msr v).lbr = c.lbr := by
  unfold wrmsr
  split
  · rfl
  · split <;> rfl

@[simp] theorem Op.onCpu_lbr (op : Op) (c : Cpu) : (op.onCpu c).lbr = c.lbr := by
  cases op with
  | wrmsr msr edx eax => exact c.wrmsr_lbr msr _
  | _ => rfl

theorem Cpu.retire_of_off {c : Cpu} (h : c.debugctl.getLsbD 0 = false) (b : Branch) :
    c.retire b = c := by
  rw [retire, if_neg]
  rw [records, h, Bool.false_and]
  exact Bool.false_ne_true

/-- The top of the stack, moved on. -/
theorem tmod_iterate (top m : Nat) (htop : top < lbrCount) :
    (fun i : Int => (i + 1).tmod lbrCount)^[m] (top : Int) = (((top + m) % lbrCount : Nat) : Int) := by
  induction m with
  | zero => rw [Function.iterate_zero, id, Nat.add_zero, Nat.mod_eq_of_lt htop]
  | succ m ih =>
    rw [Function.iterate_succ_apply', ih]
    show Int.tmod (((top + m) % lbrCount + 1 : Nat) : Int) lbrCount = _
    rw [← Int.ofNat_tmod, Nat.mod_add_mod, Nat.add_assoc]

theorem readLbrTos_rdmsr (c : Cpu) : readLbrTos c.rdmsr = c.lbr.top := by
  have htop := c.lbr.top_lt
  have hmsr : c.msr msrLbrTos = BitVec.ofNat 64 c.lbr.top := if_pos rfl
  have hnat : ((c.msr msrLbrTos).extractLsb' 0 32).toNat = c.lbr.top := by
    rw [hmsr, BitVec.extractLsb'_toNat, BitVec.toNat_ofNat, Nat.shiftRight_zero]
    omega
  show ((c.msr msrLbrTos).extractLsb' 0 32).toInt = _
  rw [BitVec.toInt_eq_toNat_of_lt (by omega), hnat]

theorem readLbrEntry_rdmsr (c : Cpu) {i : Nat} (hi : i < 32) :
    readLbrEntry c.rdmsr (msrLbrNhmFrom + i) (msrLbrNhmTo + i) i = (c.lbr.slots i).inSlot i := by
  have hslot (a : Int) : (a + i - a).toNat = i := by omega
  have hfrom : c.msr (msrLbrNhmFrom + i) = (c.lbr.slots i).src := by
    simp (disch := omega) only [Cpu.msr, msrLbrTos, msrIa32Debugctlmsr, msrLbrSelect, msrLbrNhmFrom,
      if_neg, if_pos, hslot]
  have hto : c.msr (msrLbrNhmTo + i) = (c.lbr.slots i).dst := by
    simp (disch := omega) only [Cpu.msr, msrLbrTos, msrIa32Debugctlmsr, msrLbrSelect, msrLbrNhmFrom,
      msrLbrNhmTo, if_neg, if_pos, hslot]
  have hinfo : c.msr (msrLbrInfo0 + i) = (c.lbr.slots i).info := by
    simp (disch := omega) only [Cpu.msr, msrLbrTos, msrIa32Debugctlmsr, msrLbrSelect, msrLbrNhmFrom,
      msrLbrNhmTo, msrLbrInfo0, if_neg, if_pos, hslot]
  simp only [readLbrEntry, Branch.inSlot, Cpu.rdmsr, hfrom, hto, hinfo]

/-- A dump takes the ring, oldest record first. -/
theorem snapshot_rdmsr (c : Cpu) : snapshot c.rdmsr = recordsIn c.lbr := by
  have htop := c.lbr.top_lt
  refine List.map_congr_left fun o ho => ?_
  have ho := List.mem_range.mp ho
  have hslot : (c.lbr.top + (o + 1) % lbrCount) % lbrCount = c.lbr.slot o := by
    simp only [lbrCount, Ring.slot] at ho ⊢
    omega
  have hlt : c.lbr.slot o < 32 := Nat.mod_lt _ (by decide)
  simp only [readLbrTos_rdmsr, tmod_iterate _ _ htop, hslot]
  exact readLbrEntry_rdmsr c hlt

/-! ## The operations of an ioctl -/

/-- The operations that a dump is made of. -/
def Op.dumps : Op → Bool
  | .wrmsr .. | .create .. | .bind _ | .unlessError _ | .wakeUp _ => false
  | _ => true

/-- The operations that it may leave out. -/
def Op.skips : Op → Nat
  | .unlessNull ops => ops
  | _ => 0

/-- How many lines it may print. -/
def Op.lines : Op → Nat
  | .printCpu | .printRecord _ | .unlessError _ => 1
  | _ => 0

theorem Op.prints_length (op : Op) (st : Module) (ts : Threads) :
    (op.prints st ts).length ≤ op.lines := by
  cases op with
  | printRecord i => cases h : st.lbrData <;> simp [prints, lines, h]
  | unlessError n =>
    rw [prints]
    split
    · exact Nat.zero_le _
    · exact Nat.le_refl _
  | _ => exact Nat.le_refl _

section Dumps

variable {op : Op} {pc : Nat} {k : Task}

/-- The first operation of an ioctl. -/
theorem ioctl_first (hprog : k.prog = .ioctl) (hpc : k.pc = 0)
    (hop : k.prog.ops[k.pc]? = some op) : op = .wrmsr msrIa32Debugctlmsr 0 0 := by
  rw [hprog, hpc] at hop
  exact (Option.some.inj hop).symm

theorem ioctl_left (hprog : k.prog = .ioctl) : k.left = 85 - k.pc := by
  rw [Task.left, hprog]
  rfl

theorem Op.next_le_of_dumps (h : op.dumps = true) (st : Module) (ts : Threads) (k : Task) :
    op.next st ts k ≤ k.pc + 1 + op.skips := by
  cases op with
  | create | bind | unlessError | wakeUp => cases h
  | unlessNull ops =>
    simp only [next, skips]
    split <;> omega
  | _ => exact Nat.le_refl _

theorem Op.onCpu_of_dumps (h : op.dumps = true) (c : Cpu) : op.onCpu c = c := by
  cases op with
  | wrmsr => cases h
  | _ => rfl

theorem Op.sleeps_of_dumps (h : op.dumps = true) : op.sleeps = false := by
  cases op with
  | create | bind => cases h
  | _ => rfl

theorem dumps_of_ioctl (hpc : 1 ≤ pc) (hlt : pc < 72) (h : deviceIoctlOps[pc]? = some op) :
    op.dumps = true := by
  have hall : ∀ op ∈ (deviceIoctlOps.drop 1).take 71, op.dumps = true := by decide
  refine hall op (List.mem_of_getElem? (i := pc - 1) ?_)
  rwa [List.getElem?_take_of_lt (by omega), List.getElem?_drop, Nat.add_sub_cancel' hpc]

/-- Where there is a buffer, an ioctl leaves nothing of its dump out. -/
theorem next_of_buffer {st : Module} (ts : Threads) (hpc : k.pc < 72)
    (h : deviceIoctlOps[k.pc]? = some op) (hbuffer : st.lbrData.isSome) :
    op.next st ts k = k.pc + 1 := by
  rcases Nat.eq_zero_or_pos k.pc with hzero | hpos
  · rw [hzero] at h
    obtain rfl := Option.some.inj h
    rfl
  · have hdumps := dumps_of_ioctl hpos hpc h
    cases op with
    | create | bind | unlessError | wakeUp => cases hdumps
    | unlessNull n => rw [Op.next, if_pos hbuffer]
    | _ => rfl

/-- Behind the reset of the index the threads are created and woken. -/
theorem threads_of_ioctl (hpc : 72 ≤ pc) (h : deviceIoctlOps[pc]? = some op) :
    (allThreads .enableLBR)[pc - 72]? = some op := by
  have hdrop : deviceIoctlOps.drop 72 = allThreads .enableLBR := by decide
  rwa [← hdrop, List.getElem?_drop, Nat.add_sub_cancel' hpc]

theorem ioctl_readNext {j : Nat} (hj : j < 32) : deviceIoctlOps[3 + j]? = some .readNext := by
  have hall : ∀ j < 32, deviceIoctlOps[3 + j]? = some .readNext := by decide
  exact hall j hj

theorem pc_of_lock (h : deviceIoctlOps[pc]? = some .lock) : pc = 35 := by
  have hall : ∀ pc < 85, deviceIoctlOps[pc]? = some .lock → pc = 35 := by decide +kernel
  exact hall pc (List.getElem?_eq_some_iff.mp h).1 h

/-- Behind the read the records are printed. -/
theorem prints_of_ioctl (hpc : 36 ≤ pc) (hlt : pc < 71) (h : deviceIoctlOps[pc]? = some op) :
    op = .printCpu ∨ (∃ i, op = .printRecord i) ∨ op = .unlock := by
  have hall : ∀ op ∈ (deviceIoctlOps.drop 36).take 35,
      op = .printCpu ∨ (∃ i < 32, op = .printRecord i) ∨ op = .unlock := by decide
  refine (hall op (List.mem_of_getElem? (i := pc - 36) ?_)).imp_right
    (.imp_left fun h => h.imp fun _ h => h.2)
  rwa [List.getElem?_take_of_lt (by omega), List.getElem?_drop, Nat.add_sub_cancel' hpc]

end Dumps

/-- How far a task has come with a dump of these registers into `dev₀`. -/
inductive Progress (rdmsr : Msrs) (dev₀ : Module) (k : Task) (dev : Module) : Prop
  | off (pc : k.pc = 1) (dev_eq : dev = dev₀)
  | entered {data₀ : Mem Cell} (pc : k.pc = 2) (buffer : dev₀.lbrData = some data₀)
      (dev_eq : dev = dev₀)
  | reading {data₀ data : Mem Cell} {j : Nat} (hj : j ≤ 32) (pc : k.pc = 3 + j)
      (buffer : dev₀.lbrData = some data₀) (dev_eq : dev = { dev₀ with lbrData := some data })
      (read : (readNext rdmsr)^[j] (data₀, readLbrTos rdmsr, lbrCount - 1) = (data, k.i, k.o))
  | printing {data₀ : Mem Cell} (lo : 36 ≤ k.pc) (hi : k.pc ≤ 71)
      (buffer : dev₀.lbrData = some data₀)
      (dev_eq : dev = { dev₀ with lbrData := some (dumpLBR rdmsr data₀) })
  | skipped (pc : k.pc = 71) (null : dev₀.lbrData = none) (dev_eq : dev = dev₀)
  | done (pc : 72 ≤ k.pc) (dev_eq : dev = deviceIoctl rdmsr dev₀)

section Progress

variable {rdmsr : Msrs} {dev₀ dev : Module} {k k' : Task} {op : Op}

theorem Progress.same (h : Progress rdmsr dev₀ k dev) (hk : k.Same k') :
    Progress rdmsr dev₀ k' dev := by
  cases h with
  | off pc dev_eq => exact .off (hk.pc.trans pc) dev_eq
  | entered pc buffer dev_eq => exact .entered (hk.pc.trans pc) buffer dev_eq
  | reading hj pc buffer dev_eq read =>
    exact .reading hj (hk.pc.trans pc) buffer dev_eq (by rw [read, hk.i, hk.o])
  | printing lo hi buffer dev_eq =>
    exact .printing (by rwa [hk.pc]) (by rwa [hk.pc]) buffer dev_eq
  | skipped pc null dev_eq => exact .skipped (hk.pc.trans pc) null dev_eq
  | done pc dev_eq => exact .done (by rwa [hk.pc]) dev_eq

/-- One more operation. -/
theorem Progress.step {rdmsr' : Msrs} (ts : Threads) (h : Progress rdmsr dev₀ k dev)
    (hr : k.pc < 72 → rdmsr' = rdmsr) (hprog : k.prog = .ioctl)
    (hop : deviceIoctlOps[k.pc]? = some op) :
    Progress rdmsr dev₀ (op.onTask rdmsr' dev ts k) (op.onModule rdmsr' k dev) := by
  cases h with
  | off pc dev_eq =>
    rw [pc] at hop
    obtain rfl : op = .unlessNull dumpLBROps.length := (Option.some.inj hop).symm
    subst dev_eq
    cases hb : dev.lbrData with
    | none =>
      refine .skipped ?_ hb rfl
      rw [Op.onTask_pc, Op.next, hb, pc]
      rfl
    | some data₀ =>
      refine .entered ?_ hb rfl
      rw [Op.onTask_pc, Op.next, hb, pc]
      rfl
  | entered pc buffer dev_eq =>
    rw [pc] at hop
    obtain rfl : op = .readLbrTos := (Option.some.inj hop).symm
    obtain rfl := hr (by omega)
    refine .reading (Nat.zero_le 32) (congrArg (· + 1) pc) buffer ?_ rfl
    rw [dev_eq, ← buffer]
    rfl
  | @reading data₀ data j hj pc buffer dev_eq read =>
    obtain rfl := hr (by omega)
    rcases Nat.lt_or_eq_of_le hj with hlt | rfl
    · rw [pc, ioctl_readNext hlt] at hop
      obtain rfl : op = .readNext := (Option.some.inj hop).symm
      have hread : (readNext rdmsr')^[j + 1] (data₀, readLbrTos rdmsr', lbrCount - 1) =
          readNext rdmsr' (data, k.i, k.o) := by rw [Function.iterate_succ_apply', read]
      refine .reading (Nat.succ_le_of_lt hlt) (congrArg (· + 1) pc) buffer ?_ hread
      rw [dev_eq]
      rfl
    · rw [pc] at hop
      obtain rfl : op = .lock := (Option.some.inj hop).symm
      have hpc : (Op.lock.onTask rdmsr' dev ts k).pc = 36 := congrArg (· + 1) pc
      refine .printing (by omega) (by omega) buffer ?_
      have hdump : dumpLBR rdmsr' data₀ = data := by rw [dumpLBR, read]
      rw [hdump]
      exact dev_eq
  | printing lo hi buffer dev_eq =>
    rcases Nat.lt_or_eq_of_le hi with hlt | hpc
    · have hprint : (op.onTask rdmsr' dev ts k).pc = k.pc + 1 ∧ op.onModule rdmsr' k dev = dev := by
        rw [Op.onTask_pc]
        rcases prints_of_ioctl lo hlt hop with rfl | ⟨i, rfl⟩ | rfl <;> exact ⟨rfl, rfl⟩
      rw [hprint.2]
      exact .printing (by omega) (by omega) buffer dev_eq
    · rw [hpc] at hop
      obtain rfl : op = .resetIndex := (Option.some.inj hop).symm
      refine .done (congrArg (· + 1) hpc).ge ?_
      rw [dev_eq]
      simp only [Op.onModule, deviceIoctl, buffer]
  | skipped pc null dev_eq =>
    rw [pc] at hop
    obtain rfl : op = .resetIndex := (Option.some.inj hop).symm
    refine .done (congrArg (· + 1) pc).ge ?_
    rw [dev_eq]
    simp only [Op.onModule, deviceIoctl, null]
  | done pc dev_eq =>
    have hmem := List.mem_of_getElem? (threads_of_ioctl pc hop)
    have hne : op ≠ .readNext ∧ op ≠ .resetIndex := by
      constructor <;> rintro rfl <;> simp [allThreads] at hmem
    have hpc : k.pc < op.next dev ts k := Op.lt_next dev ts (by rw [hprog]; exact hop)
    exact .done (by rw [Op.onTask_pc]; omega) ((Op.onModule_of_ne hne.1 hne.2).trans dev_eq)

end Progress

namespace Kernel

variable {s s' s₁ : Kernel} {c t : Nat} {k k' : Task} {op : Op} {e : Event} {dev₀ : Module}

/-! ## Logs -/

theorem retire_log (s : Kernel) (c c' : Nat) (b : Branch) :
    (s.retire c' b).log c = s.log c ++ if c' = c ∧ (s.cpus c).records b then [b] else [] := by
  show (if (s.cpus c').records b then Function.update s.log c' _ else s.log) c = _
  rcases eq_or_ne c' c with rfl | hne
  · cases hb : (s.cpus c').records b with
    | true => simp
    | false => simp
  · rw [if_neg (show ¬ (c' = c ∧ _) from fun h => hne h.1), List.append_nil]
    split
    · exact Function.update_of_ne hne.symm ..
    · rfl

/-- What is logged on a CPU is what its ring has been given. -/
theorem Change.lbr (h : Change s e s') {ring : Nat → Ring Branch 32}
    (hs : ∀ c, (s.cpus c).lbr = (s.log c).foldl Ring.push (ring c)) (c : Nat) :
    (s'.cpus c).lbr = (s'.log c).foldl Ring.push (ring c) := by
  cases h with
  | @branch c' b =>
    show (Function.update s.cpus c' ((s.cpus c').retire b) c).lbr =
      ((if (s.cpus c').records b then Function.update s.log c' (s.log c' ++ [b]) else s.log)
        c).foldl Ring.push (ring c)
    by_cases hb : (s.cpus c').records b = true
    · rw [Cpu.retire, if_pos hb, if_pos hb]
      rcases eq_or_ne c c' with rfl | hne
      · rw [Function.update_self, Function.update_self, List.foldl_append, ← hs]
        rfl
      · rw [Function.update_of_ne hne, Function.update_of_ne hne, hs]
    · rw [Cpu.retire, if_neg hb, if_neg hb, Function.update_eq_self, hs]
  | @step c' t k op created current =>
    show (Function.update s.cpus c' (op.onCpu (s.cpus c')) c).lbr = _
    rcases eq_or_ne c c' with rfl | hne
    · rw [Function.update_self, Op.onCpu_lbr]
      exact hs c
    · rw [Function.update_of_ne hne]
      exact hs c
  | _ => exact hs c

/-- The ring holds the last 32 branches of the log, and behind them of what was in it when the
module was loaded. -/
theorem history_run (cpus : Nat → Cpu) (dev : Module) (es : List Event) (c : Nat) :
    (((load cpus dev).run es).cpus c).lbr.history =
      ((cpus c).lbr.history ++ ((load cpus dev).run es).log c).drop
        (((load cpus dev).run es).log c).length := by
  rw [← Ring.history_foldl_push]
  exact congrArg Ring.history (run_induction (P := fun s => ∀ c, (s.cpus c).lbr =
    (s.log c).foldl Ring.push ((cpus c).lbr)) (fun s e _ h => (change s e).lbr h) (fun _ => rfl) c)

/-! ## A dump in a run -/

theorem act_step {created : Bool} (h : s.current c = some (t, k, op)) (free : s.waits op = false) :
    s.act (.step c created) = s.exec c t k op created := by
  simp only [act, h, free, Bool.false_eq_true, if_false]

/-- A step that is not one of this task, which is where it does not sleep. -/
structure Aside (t : Nat) (k : Task) (s s' : Kernel) : Prop where
  task : ∃ k', s'.tasks[t]? = some k' ∧ k.Same k'
  dev : s'.dev = s.dev
  cpu : ∀ {c}, s.running c = some t → (∀ op, k.prog.ops[k.pc]? = some op → op.sleeps = false) →
    s'.running c = some t ∧ (s'.cpus c = s.cpus c ∨ ∃ b, s'.cpus c = (s.cpus c).retire b)

/-- The next operation of a task, or a step of others. -/
theorem own_or_aside (s : Kernel) (e : Event) (hk : s.tasks[t]? = some k)
    (hund : s.touches e → ∃ c created, e = .step c created ∧ s.running c = some t) :
    (∃ c created op, Does s e (s.act e) c t k op created) ∨ Aside t k s (s.act e) := by
  by_cases hown : ∃ c created op, Does s e (s.act e) c t k op created
  · exact .inl hown
  have hdoes {c t' : Nat} {created : Bool} {k' : Task} {op : Op} (hr : s.running c = some t)
      (hd : Does s e (s.act e) c t' k' op created) : False := by
    obtain ⟨hr', hk', -⟩ := current_iff.mp hd.current
    obtain rfl : t' = t := Option.some.inj (hr'.symm.trans hr)
    obtain rfl : k' = k := Option.some.inj (hk'.symm.trans hk)
    exact hown ⟨c, created, op, hd⟩
  refine .inr ⟨?_, ?_, fun {c} hr hwake => ⟨?_, ?_⟩⟩
  · rcases (change s e).task hk with ⟨c, created, op, hd⟩ | h
    · exact absurd ⟨c, created, op, hd⟩ hown
    · exact h
  · rcases (change s e).dev with h | h
    · exact h
    · obtain ⟨c, created, rfl, hr⟩ := hund h
      obtain ⟨t', k', op, hc, hop⟩ := h
      have free : s.waits op = false := by rcases hop with rfl | rfl <;> rfl
      exact absurd ⟨rfl, hc, free, act_step hc free⟩ (hdoes hr)
  · rcases (change s e).running hr with h | ⟨created, k', op, hd⟩ | ⟨k', op, hc, hsleeps⟩
    · exact h
    · exact absurd hd (hdoes hr)
    · obtain ⟨-, hk', hop⟩ := current_iff.mp hc
      obtain rfl : k' = k := Option.some.inj (hk'.symm.trans hk)
      rw [hwake op hop] at hsleeps
      cases hsleeps
  · rcases (change s e).cpu c with h | ⟨b, -, h⟩ | ⟨created, t', k', op, hd⟩
    · exact .inl h
    · exact .inr ⟨b, by rw [h]; exact Function.update_self ..⟩
    · exact absurd hd (hdoes hr)

/-- The task has entered the kernel and done nothing yet. -/
structure Entered (c t : Nat) (dev₀ : Module) (s : Kernel) : Prop where
  running : s.running c = some t
  task : ∃ k, s.tasks[t]? = some k ∧ k.prog = .ioctl ∧ k.pc = 0
  dev : s.dev = dev₀

/-- The task has turned the LBR off, which left the CPU as `cpu`, and has come further
since. -/
structure Dumping (c t : Nat) (dev₀ : Module) (cpu : Cpu) (s : Kernel) : Prop where
  off : cpu.debugctl.getLsbD 0 = false
  task : ∃ k, s.tasks[t]? = some k ∧ k.prog = .ioctl ∧ Progress cpu.rdmsr dev₀ k s.dev ∧
    (k.pc < 72 → s.running c = some t ∧ s.cpus c = cpu)

theorem Entered.act (h : Entered c t dev₀ s) (hs : Sched s)
    (hund : s.touches e → ∃ c created, e = .step c created ∧ s.running c = some t) :
    Entered c t dev₀ (s.act e) ∨
      Dumping c t dev₀ ((s.act e).cpus c) (s.act e) ∧ TurnedOff (s.act e) t := by
  obtain ⟨k, hk, hprog, hpc⟩ := h.task
  rcases own_or_aside s e hk hund with ⟨c', created, op, hd⟩ | ha
  · obtain ⟨hr, -, hop⟩ := current_iff.mp hd.current
    obtain rfl := hs.only hr h.running
    obtain rfl := ioctl_first hprog hpc hop
    have htask := exec_task created hd.current (hs.current hd.current).1
    set k' := (Op.wrmsr msrIa32Debugctlmsr 0 0).onTask (s.cpus c').rdmsr s.dev s.ts k with hk'
    have hprog' : k'.prog = .ioctl := hprog
    have hpc' : k'.pc = 1 := congrArg (· + 1) hpc
    have hleft : k'.left ≠ 0 := by
      rw [ioctl_left hprog', hpc']
      decide
    rw [hd.state]
    refine .inr ⟨⟨?_, k', htask, hprog', .off hpc' h.dev, fun _ => ⟨exec_running hr hleft, rfl⟩⟩,
      k', htask, hpc'⟩
    rw [exec_cpu]
    exact BitVec.getLsbD_zero
  · obtain ⟨k', hk', hsame⟩ := ha.task
    refine .inl ⟨(ha.cpu h.running fun op hop => ?_).1,
      ⟨k', hk', hsame.prog.trans hprog, hsame.pc.trans hpc⟩, ha.dev.trans h.dev⟩
    rw [ioctl_first hprog hpc hop]
    rfl

theorem Dumping.act {cpu : Cpu} (h : Dumping c t dev₀ cpu s) (hs : Sched s)
    (hund : s.touches e → ∃ c created, e = .step c created ∧ s.running c = some t) :
    Dumping c t dev₀ cpu (s.act e) := by
  obtain ⟨k, hk, hprog, hprogress, hat⟩ := h.task
  have hpos : 1 ≤ k.pc := by cases hprogress <;> omega
  rcases own_or_aside s e hk hund with ⟨c', created, op, hd⟩ | ha
  · obtain ⟨hr, -, hop⟩ := current_iff.mp hd.current
    have hlt := Op.lt_next s.dev s.ts hop
    have hc' (hlt : k.pc < 72) : c' = c := hs.only hr (hat hlt).1
    have hop' : deviceIoctlOps[k.pc]? = some op := by rwa [hprog] at hop
    rw [hd.state]
    refine ⟨h.off, _, exec_task _ hd.current (hs.current hd.current).1, by simpa using hprog,
      hprogress.step s.ts (fun hlt => by rw [hc' hlt, (hat hlt).2]) hprog hop', fun hlt' => ?_⟩
    rw [Op.onTask_pc] at hlt'
    have hlt₀ : k.pc < 72 := Nat.lt_trans hlt hlt'
    obtain rfl := hc' hlt₀
    refine ⟨exec_running hr ?_, ?_⟩
    · rw [ioctl_left (by simpa using hprog), Op.onTask_pc]
      omega
    · rw [exec_cpu, Op.onCpu_of_dumps (dumps_of_ioctl hpos hlt₀ hop')]
      exact (hat hlt₀).2
  · obtain ⟨k', hk', hsame⟩ := ha.task
    refine ⟨h.off, k', hk', hsame.prog.trans hprog, by rw [ha.dev]; exact hprogress.same hsame,
      fun hlt => ?_⟩
    rw [hsame.pc] at hlt
    obtain ⟨hr, hcpu⟩ := hat hlt
    obtain ⟨hr', hcpu'⟩ := ha.cpu hr fun op hop => by
      rw [hprog] at hop
      exact Op.sleeps_of_dumps (dumps_of_ioctl hpos hlt hop)
    refine ⟨hr', ?_⟩
    rcases hcpu' with h' | ⟨b, h'⟩
    · exact h'.trans hcpu
    · rw [h', hcpu, Cpu.retire_of_off h.off]

theorem Dumping.run {cpu : Cpu} {es : List Event} (h : Dumping c t dev₀ cpu s) (hs : Sched s)
    (hund : Undisturbed t es s) : Dumping c t dev₀ cpu (s.run es) := by
  induction es generalizing s with
  | nil => exact h
  | cons e es ih => exact ih (h.act hs hund.1) (hs.change (change s e)) hund.2

/-- The ioctl takes effect at one moment of the run, if it comes that far; `P` is what no step
before that takes away. -/
theorem Entered.run {P : Kernel → Prop} {es : List Event} (h : Entered c t dev₀ s) (hs : Sched s)
    (hund : Undisturbed t es s)
    (hkeep : ∀ {s} e, Entered c t dev₀ s → Sched s → P s → P (s.act e)) (hp : P s) :
    Entered c t dev₀ (s.run es) ∨
      ∃ es₁ es₂, es = es₁ ++ es₂ ∧ TurnedOff (s.run es₁) t ∧ P (s.run es₁) ∧
        Dumping c t dev₀ ((s.run es₁).cpus c) (s.run es) := by
  induction es generalizing s with
  | nil => exact .inl h
  | cons e es ih =>
    have hs' := hs.change (change s e)
    have hp' := hkeep e h hs hp
    rcases h.act hs hund.1 with h' | h'
    · refine (ih h' hs' hund.2 hp').imp_right ?_
      rintro ⟨es₁, es₂, rfl, hoff, hp₁, hd⟩
      exact ⟨e :: es₁, es₂, rfl, hoff, hp₁, hd⟩
    · exact .inr ⟨[e], es, rfl, h'.2, hp', h'.1.run hs' hund.2⟩

theorem entered_ioctl (hidle : s.running c = none) :
    Entered c s.tasks.length s.dev (s.act (.ioctl c)) := by
  have hact : s.act (.ioctl c) = s.enter c .ioctl := if_pos hidle
  rw [hact]
  exact ⟨Function.update_self .., ⟨_, List.getElem?_concat_length, rfl, rfl⟩, rfl⟩

/-- A device call keeps the buffer. -/
theorem buffer_act (s : Kernel) (e : Event) :
    (s.act e).dev.lbrData.isSome = s.dev.lbrData.isSome := by
  have h := change s e
  generalize s.act e = s' at h ⊢
  cases h with
  | @step c t k op created current =>
    cases op with
    | readNext =>
      show (s.dev.lbrData.map _).isSome = _
      rw [Option.isSome_map]
    | _ => rfl
  | read length =>
    show (deviceRead length s.dev).2.lbrData.isSome = _
    rfl
  | _ => rfl

theorem buffer_run (s : Kernel) (es : List Event) :
    (s.run es).dev.lbrData.isSome = s.dev.lbrData.isSome :=
  run_induction (P := fun s' => s'.dev.lbrData.isSome = s.dev.lbrData.isSome)
    (fun s' e _ h => (buffer_act s' e).trans h) rfl

/-- The moment of an ioctl that has dumped. -/
theorem takes_effect {P : Kernel → Prop} {es : List Event} (hs : Sched s)
    (hidle : s.running c = none) (hund : Undisturbed s.tasks.length es (s.act (.ioctl c)))
    (hdumped : Dumped ((s.act (.ioctl c)).run es) s.tasks.length)
    (hkeep : ∀ {s'} e, Entered c s.tasks.length s.dev s' → Sched s' → P s' → P (s'.act e))
    (hp : P (s.act (.ioctl c))) :
    ∃ es₁ es₂, es = es₁ ++ es₂ ∧ TurnedOff ((s.act (.ioctl c)).run es₁) s.tasks.length ∧
      P ((s.act (.ioctl c)).run es₁) ∧ ((s.act (.ioctl c)).run es).dev =
        deviceIoctl (((s.act (.ioctl c)).run es₁).cpus c).rdmsr s.dev := by
  obtain ⟨k, hk, hleft⟩ := hdumped
  rcases (entered_ioctl hidle).run (hs.change (change s _)) hund hkeep hp with
    h | ⟨es₁, es₂, hes, hoff, hp₁, h⟩
  · obtain ⟨k', hk', hprog, hpc⟩ := h.task
    obtain rfl : k' = k := Option.some.inj (hk'.symm.trans hk)
    rw [ioctl_left hprog, hpc] at hleft
    exact absurd hleft (by decide)
  · obtain ⟨k', hk', hprog, hprogress, -⟩ := h.task
    obtain rfl : k' = k := Option.some.inj (hk'.symm.trans hk)
    have hthreads : (allThreads .enableLBR).length = 13 := rfl
    rw [ioctl_left hprog, hthreads] at hleft
    refine ⟨es₁, es₂, hes, hoff, hp₁, ?_⟩
    cases hprogress with
    | done pc dev_eq => exact dev_eq
    | _ => omega

/-- The moment in a run from the beginning, and what the ring holds then. -/
theorem takes_effect_run (cpus : Nat → Cpu) (dev : Module) {es₀ es : List Event} {c : Nat}
    (hidle : ((load cpus dev).run es₀).running c = none)
    (hund : Undisturbed ((load cpus dev).run es₀).tasks.length es
      ((load cpus dev).run (es₀ ++ [.ioctl c])))
    (hdumped : Dumped ((load cpus dev).run (es₀ ++ .ioctl c :: es))
      ((load cpus dev).run es₀).tasks.length) :
    ∃ es₁ es₂, es = es₁ ++ es₂ ∧
      let s₁ := (load cpus dev).run (es₀ ++ .ioctl c :: es₁)
      TurnedOff s₁ ((load cpus dev).run es₀).tasks.length ∧
        ((load cpus dev).run (es₀ ++ .ioctl c :: es)).dev =
            deviceIoctl (s₁.cpus c).rdmsr ((load cpus dev).run es₀).dev ∧
        (s₁.cpus c).lbr.history = ((cpus c).lbr.history ++ s₁.log c).drop (s₁.log c).length := by
  simp only [run_append] at hund hdumped ⊢
  obtain ⟨es₁, es₂, hes, hoff, -, hdev⟩ := takes_effect (P := fun _ => True)
    (sched_run cpus dev es₀) hidle hund hdumped (fun _ _ _ _ => trivial) trivial
  have hlog := history_run cpus dev (es₀ ++ .ioctl c :: es₁) c
  rw [run_append] at hlog
  exact ⟨es₁, es₂, hes, hoff, hdev, hlog⟩

/-! ## Runs of one task -/

theorem onlyBy_steps (p : Kernel → Event → Prop) {n : Nat}
    (h : ∀ m < n, (s.run (List.replicate m (.step c true))).running c = some t) :
    OnlyBy p t (List.replicate n (.step c true)) s := by
  induction n generalizing s with
  | zero => trivial
  | succ n ih =>
    exact ⟨fun _ => ⟨c, true, rfl, h 0 (Nat.succ_pos n)⟩, ih fun m hm => h (m + 1) (by omega)⟩

/-- An ioctl has come so far, and nobody has disturbed it. -/
structure Alone (c n : Nat) (s s' : Kernel) : Prop where
  sched : Sched s'
  running : s'.running c = some s.tasks.length
  task : ∃ k, s'.tasks[s.tasks.length]? = some k ∧ k.prog = .ioctl ∧ k.pc = n
  buffer : s'.dev.lbrData.isSome
  lock : n ≤ 35 → s'.lock = none
  lines : s'.dmesg.length ≤ s.dmesg.length + ((deviceIoctlOps.take n).map Op.lines).sum

theorem alone_ioctl (hs : Sched s) (hidle : s.running c = none) (hb : s.dev.lbrData.isSome)
    (hlock : s.lock = none) : Alone c 0 s (s.act (.ioctl c)) := by
  have hent := entered_ioctl hidle
  have hact : s.act (.ioctl c) = s.enter c .ioctl := if_pos hidle
  exact {
    sched := hs.change (change s (.ioctl c))
    running := hent.running
    task := hent.task
    buffer := (congrArg (·.lbrData.isSome) hent.dev).trans hb
    lock := fun _ => by rw [hact]; exact hlock
    lines := by rw [hact]; exact Nat.le_add_right .. }

/-- Nobody else holds the lock. -/
theorem Alone.free {n : Nat} (h : Alone c n s s') (hop : deviceIoctlOps[n]? = some op) :
    s'.waits op = false := by
  refine decide_eq_false fun ⟨hlock, hheld⟩ => ?_
  subst hlock
  obtain rfl := pc_of_lock hop
  rw [h.lock (Nat.le_refl 35)] at hheld
  cases hheld

theorem Alone.step {n : Nat} (h : Alone c n s s') (hn : n < 72) :
    Alone c (n + 1) s (s'.act (.step c true)) := by
  obtain ⟨k, hk, hprog, rfl⟩ := h.task
  have hlt : k.pc < deviceIoctlOps.length := Nat.lt_of_lt_of_le hn (by decide)
  have hop : deviceIoctlOps[k.pc]? = some deviceIoctlOps[k.pc] := List.getElem?_eq_getElem hlt
  generalize deviceIoctlOps[k.pc] = op at hop
  have hc : s'.current c = some (s.tasks.length, k, op) :=
    current_iff.mpr ⟨h.running, hk, by rw [hprog]; exact hop⟩
  have free := h.free hop
  have hnext := next_of_buffer s'.ts hn hop h.buffer
  have hprog' : (op.onTask (s'.cpus c).rdmsr s'.dev s'.ts k).prog = .ioctl := by
    rw [Op.onTask_prog, hprog]
  have hpc' : (op.onTask (s'.cpus c).rdmsr s'.dev s'.ts k).pc = k.pc + 1 := by
    rw [Op.onTask_pc, hnext]
  have hbuffer : (s'.act (.step c true)).dev.lbrData.isSome := by
    rw [buffer_act]
    exact h.buffer
  have hsched := h.sched.change (change s' (.step c true))
  rw [act_step hc free] at hbuffer hsched ⊢
  refine ⟨hsched, exec_running h.running ?_,
    ⟨_, exec_task true hc (h.sched.current hc).1, hprog', hpc'⟩, hbuffer, fun hle => ?_, ?_⟩
  · rw [ioctl_left hprog', hpc']
    omega
  · show (if op = .lock then _ else if op = .unlock then none else s'.lock) = none
    have hne : op ≠ .lock := by
      rintro rfl
      have := pc_of_lock hop
      omega
    rw [if_neg hne, h.lock (by omega), ite_self]
  · show (s'.dmesg ++ op.prints s'.dev s'.ts).length ≤ _
    have hlines := h.lines
    have hprints := op.prints_length s'.dev s'.ts
    rw [List.length_append, List.take_add_one, hop, List.map_append, List.sum_append]
    simp only [Option.toList_some, List.map_singleton, List.sum_singleton]
    omega

theorem Alone.dumped (h : Alone c 72 s s') : Dumped s' s.tasks.length := by
  obtain ⟨k, hk, hprog, hpc⟩ := h.task
  refine ⟨k, hk, ?_⟩
  rw [ioctl_left hprog, hpc]
  decide

theorem alone_steps (hs : Sched s) (hidle : s.running c = none) (hb : s.dev.lbrData.isSome)
    (hlock : s.lock = none) {n : Nat} (hn : n ≤ 72) :
    Alone c n s ((s.act (.ioctl c)).run (List.replicate n (.step c true))) := by
  induction n with
  | zero => exact alone_ioctl hs hidle hb hlock
  | succ n ih =>
    rw [List.replicate_succ', run_append]
    exact (ih (by omega)).step (by omega)

/-- A CPU that has recorded nothing, with the LBR on. -/
def emptyCpu : Cpu := ⟨1, 0, ⟨fun _ => ⟨0, 0, 0, 0⟩, 31, by decide⟩⟩

def emptyModule : Module := ⟨some fun _ => ⟨0, false⟩, 0⟩

/-- A branch, before the ioctl. -/
def oneBranch : List Event := [.branch 0 ⟨0x5555555545d0, 0x5555555545e0, 7, 0⟩]

theorem oneBranch_alone {n : Nat} (hn : n ≤ 72) :
    Alone 0 n ((load (fun _ => emptyCpu) emptyModule).run oneBranch)
      ((load (fun _ => emptyCpu) emptyModule).run
        (oneBranch ++ .ioctl 0 :: List.replicate n (.step 0 true))) := by
  rw [run_append, run_cons]
  exact alone_steps (sched_run _ _ oneBranch) rfl rfl rfl hn

theorem oneBranch_onlyBy (p : Kernel → Event → Prop) :
    OnlyBy p 1 (List.replicate 72 (.step 0 true))
      ((load (fun _ => emptyCpu) emptyModule).run (oneBranch ++ [.ioctl 0])) := by
  refine onlyBy_steps p fun n hn => ?_
  rw [← run_append, List.append_assoc]
  exact (oneBranch_alone hn.le).running

theorem oneBranch_dumped :
    Dumped ((load (fun _ => emptyCpu) emptyModule).run
      (oneBranch ++ .ioctl 0 :: List.replicate 72 (.step 0 true))) 1 :=
  (oneBranch_alone (Nat.le_refl 72)).dumped

/-- All that CPU `c` has recorded are branches at `c + 1`. -/
def numberedCpus (c : Nat) : Cpu :=
  ⟨1, 0, ⟨fun _ => ⟨BitVec.ofNat 64 (c + 1), 0, 0, 0⟩, 31, by decide⟩⟩

/-- Nothing keeps two ioctls apart: here the one of CPU 1 comes while CPU 0 dumps, and what the
buffer holds in the end is of both. -/
example :
    let s := (load numberedCpus emptyModule).run (.ioctl 0 :: List.replicate 20 (.step 0 true) ++
      .ioctl 1 :: List.replicate 72 (.step 1 true) ++ List.replicate 52 (.step 0 true))
    s.tasks.map Task.left = [13, 13, 13] ∧
      s.dev.lbrData.map (fun data => ((data 104).value, (data 648).value)) = some (2, 1) := by
  decide +kernel

end Kernel

/-! ## Measurements -/

section Measurement

variable {K : Type*} [Field K] {data : Mem Byte} {ring : Ring Branch 32}

theorem fromAddress_inSlot (b : Branch) (i : Nat) :
    (b.inSlot i).toUser.fromAddress.setWidth 64 = b.address := by
  show ((b.src.extractLsb' 32 32 ++ b.src.extractLsb' 0 32).extractLsb' 0 48).setWidth 64 = _
  rw [BitVec.extractLsb'_append_extractLsb', ← BitVec.setWidth_eq_extractLsb' (by decide)]
  rfl

theorem mispredicted_inSlot (b : Branch) (i : Nat) :
    (b.inSlot i).toUser.mispredicted = b.mispredicted := by
  show (b.info.extractLsb' 32 32).msb = b.info.msb
  rw [BitVec.msb_extractLsb', BitVec.msb_eq_getLsbD_last]
  rfl

theorem cycleCount_inSlot (b : Branch) (i : Nat) :
    (b.inSlot i).toUser.cycleCount.setWidth 32 = b.cycles := by
  show ((b.info.extractLsb' 0 32).extractLsb' 0 16).setWidth 32 = (b.info.extractLsb' 0 16).setWidth 32
  rw [BitVec.extractLsb'_extractLsb'_of_le (by decide)]

/-- What the user's statistics make of a ring that was dumped. -/
theorem addFromLbrData_recordsIn
    (hdata : (List.range LbrReader.lbrCount).map (LbrReader.record data) =
      (recordsIn ring).map LbrData.toUser) (src : BitVec 64) (stats : LbrStats K) :
    stats.addFromLbrData data src = measured stats (lastAt src ring.history) := by
  have hrecords : recordsOf data src =
      ((List.range 32).filter fun k => (ring.slots (ring.slot k)).address = src).map fun k =>
        ((ring.slots (ring.slot k)).inSlot (ring.slot k)).toUser := by
    rw [recordsOf, hdata, recordsIn, List.map_map, List.filter_map]
    refine congrArg _ (List.filter_congr fun k _ => ?_)
    simp only [Function.comp, fromAddress_inSlot]
  have hlast : lastAt src ring.history =
      ((List.range 32).filter fun k => (ring.slots (ring.slot k)).address = src).getLast?.map
        fun k => ring.slots (ring.slot k) := by
    rw [lastAt, Ring.history, List.filter_map, List.getLast?_map]
    rfl
  rw [LbrStats.addFromLbrData_eq, hrecords, hlast, List.getLast?_map]
  cases ((List.range 32).filter fun k => (ring.slots (ring.slot k)).address = src).getLast? with
  | none => rfl
  | some k =>
    simp only [Option.map_some, mispredicted_inSlot, cycleCount_inSlot, measured]

theorem atRecord_deviceIoctl {dev : Module} {buffer : Mem Cell} (h : dev.lbrData = some buffer)
    (rdmsr : Msrs) :
    AtRecord ((snapshot rdmsr).flatMap LbrData.bytes) 0 (deviceIoctl rdmsr dev) := by
  have hdev : deviceIoctl rdmsr dev = ⟨some (dumpLBR rdmsr buffer), 0⟩ := by simp [deviceIoctl, h]
  rw [hdev, snapshot_bytes, ← read_dumpLBR rdmsr buffer]
  refine ⟨⟨by simp, Nat.zero_le _, _, rfl, fun x hx => ?_⟩, rfl⟩
  rw [List.getElem?_map, Mem.read_getElem? _ hx, Nat.zero_add, Option.map_some]

/-- What is read of a ring that was dumped. -/
theorem readLbr_dumped {dev : Module} (cpu : Cpu) {r : LbrReader} {malloc : Option (Mem Byte)}
    (hbuffer : dev.lbrData.isSome) (hfd : 1 ≤ r.fdLbr) (hm : (r.lbrData.or malloc).isSome) :
    ∃ r' dev' data, LbrReader.readLbr malloc r (deviceIoctl cpu.rdmsr dev) = some (r', dev') ∧
      r'.lbrData = some data ∧
      (List.range LbrReader.lbrCount).map (LbrReader.record data) =
        (recordsIn cpu.lbr).map LbrData.toUser := by
  obtain ⟨buffer, hbuffer⟩ := Option.isSome_iff_exists.mp hbuffer
  have hat := atRecord_deviceIoctl hbuffer cpu.rdmsr
  obtain ⟨r', dev', data, hread, hr', hdata⟩ :=
    hat.rebuilds (snapshot_length cpu.rdmsr) 0 malloc r hfd hm
  rw [snapshot_rdmsr] at hdata
  refine ⟨r', dev', data, ?_, hr', hdata⟩
  rw [readLbrs] at hread
  cases h : LbrReader.readLbr malloc r (deviceIoctl cpu.rdmsr dev) with
  | none => simp [h] at hread
  | some p => simpa [h, readLbrs] using hread

/-- A measurement of a ring that was dumped. -/
theorem finishAttack_dumped {dev : Module} (cpu : Cpu) {r : LbrReader}
    {malloc : Option (Mem Byte)} (hbuffer : dev.lbrData.isSome) (hfd : 1 ≤ r.fdLbr)
    (hm : (r.lbrData.or malloc).isSome) (src : BitVec 64) (stats : LbrStats K) :
    ∃ r' dev', finishAttack malloc r (deviceIoctl cpu.rdmsr dev) src stats =
      some (r', dev', measured stats (lastAt src cpu.lbr.history)) := by
  obtain ⟨r', dev', data, hread, hr', hdata⟩ := readLbr_dumped cpu hbuffer hfd hm
  refine ⟨r', dev', ?_⟩
  rw [finishAttack, hread, Option.bind_some]
  show r'.lbrData.map _ = _
  rw [hr', Option.map_some, addFromLbrData_recordsIn hdata]

end Measurement

namespace Kernel

end Kernel

end BS.Lbr
