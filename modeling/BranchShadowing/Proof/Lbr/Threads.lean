import BranchShadowing.Proof.Lbr.Dump

/-!
# The threads that turn the LBR on

An ioctl turns the LBR off on its own CPU; what turns it on again are threads, wherever they
run. Before one has filtered what it has turned on, branches that end in the kernel are
recorded, and never else (`Kernel.recorded_endsInKernel`). Where no ioctl begins before the
one before it has come to its end, a thread is bound to one of the CPUs 0 to 3 when it is
woken (`Kernel.Orderly`), so that on any other CPU an ioctl turns the LBR off for good
(`Kernel.ioctl_freezes`).
-/

namespace BS.Lbr

/-! ## Programs -/

/-- What the thread writes into both registers. -/
def ThreadFn.value : ThreadFn → BitVec 64
  | .enableLBR => 1
  | .disableLBR => 0

/-- The threads that a program creates. -/
def Prog.creates : Prog → Option ThreadFn
  | .start | .ioctl => some .enableLBR
  | .stop => some .disableLBR
  | .thread _ => none

theorem Prog.creates_eq_none {p : Prog} : p.creates = none ↔ ∃ fn, p = .thread fn := by
  cases p <;> simp [creates]

theorem Prog.isThread_eq_false {p : Prog} : p.isThread = false ↔ ∃ fn, p.creates = some fn := by
  cases p <;> simp [creates, isThread]

@[simp] theorem Cpu.wrmsr_debugctl (c : Cpu) (v : BitVec 64) :
    c.wrmsr msrIa32Debugctlmsr v = { c with debugctl := v } := rfl

@[simp] theorem Cpu.wrmsr_select (c : Cpu) (v : BitVec 64) :
    c.wrmsr msrLbrSelect v = { c with select := v } := rfl

/-- An operation of `all_enable_LBR` or `all_disable_LBR`, where so many are left. -/
inductive AllOp (fn : ThreadFn) (left : Nat) : Op → Prop
  | create {j : Nat} (hj : j < 4) (left_eq : left + 2 * j = 13) : AllOp fn left (.create j fn)
  | bind {j : Nat} (hj : j < 4) (left_eq : left + 2 * j = 12) : AllOp fn left (.bind j)
  | unlessError (left_eq : left = 5) : AllOp fn left (.unlessError 4)
  | wakeUp {j : Nat} (hj : j < 4) (left_eq : left + j = 4) : AllOp fn left (.wakeUp j)

theorem allThreads_op {fn : ThreadFn} {n : Nat} {op : Op} (h : (allThreads fn)[n]? = some op) :
    AllOp fn (13 - n) op := by
  match n with
  | 0 | 2 | 4 | 6 => cases h; exact .create (by decide) rfl
  | 1 | 3 | 5 | 7 => cases h; exact .bind (by decide) rfl
  | 8 => cases h; exact .unlessError rfl
  | 9 | 10 | 11 | 12 => cases h; exact .wakeUp (by decide) rfl
  | n + 13 => exact absurd h (by simp [allThreads])

section Programs

variable {k : Task} {op : Op} {fn : ThreadFn}

theorem thread_left (hk : k.prog = .thread fn) : k.left = 2 - k.pc := by
  rw [Task.left, hk]
  cases fn <;> rfl

/-- The two operations of a thread. -/
theorem thread_op (hk : k.prog = .thread fn) (hop : k.prog.ops[k.pc]? = some op) :
    (k.pc = 0 ∧ op = .wrmsr msrIa32Debugctlmsr 0 (fn.value.setWidth 32)) ∨
      k.pc = 1 ∧ op = .wrmsr msrLbrSelect 0 (fn.value.setWidth 32) := by
  rw [hk] at hop
  generalize k.pc = n at hop
  cases fn <;>
    match n with
    | 0 => exact .inl ⟨rfl, (Option.some.inj hop).symm⟩
    | 1 => exact .inr ⟨rfl, (Option.some.inj hop).symm⟩
    | n + 2 => simp [Prog.ops, ThreadFn.ops, enableLBROps, disableLBROps, lbrEnableInline,
        lbrDisableInline, lbrFilterInline] at hop

theorem thread_wrmsr (hk : k.prog = .thread fn) (hop : k.prog.ops[k.pc]? = some op) :
    ∃ msr edx eax, op = .wrmsr msr edx eax := by
  rcases thread_op hk hop with ⟨-, rfl⟩ | ⟨-, rfl⟩ <;> exact ⟨_, _, _, rfl⟩

theorem value_append (fn : ThreadFn) : (0 : BitVec 32) ++ fn.value.setWidth 32 = fn.value := by
  cases fn <;> decide

/-- An operation of a program that creates threads: those of a dump come before. -/
theorem creator_op (hk : k.prog.creates = some fn) (hop : k.prog.ops[k.pc]? = some op) :
    AllOp fn k.left op ∨ k.prog = .ioctl ∧ op.skips + 14 ≤ k.left ∧
      (op = .wrmsr msrIa32Debugctlmsr 0 0 ∨ op.dumps = true) := by
  cases hp : k.prog with
  | start =>
    rw [hp] at hk hop
    obtain rfl := Option.some.inj hk
    rw [Task.left, hp]
    exact .inl (allThreads_op hop)
  | stop =>
    rw [hp] at hk hop
    obtain rfl := Option.some.inj hk
    rw [Task.left, hp]
    exact .inl (allThreads_op hop)
  | thread fn' =>
    rw [hp] at hk
    cases hk
  | ioctl =>
    rw [hp] at hk hop
    obtain rfl := Option.some.inj hk
    rw [ioctl_left hp]
    rcases Nat.lt_or_ge k.pc 72 with hlt | hge
    · have hall : ∀ pc < 72, ((deviceIoctlOps[pc]?).map Op.skips).getD 0 + 14 ≤ 85 - pc := by
        decide +kernel
      have hskips := hall k.pc hlt
      rw [show deviceIoctlOps[k.pc]? = some op from hop] at hskips
      refine .inr ⟨rfl, hskips, ?_⟩
      rcases Nat.eq_zero_or_pos k.pc with hpc | hpos
      · rw [hpc] at hop
        exact .inl (Option.some.inj hop).symm
      · exact .inr (dumps_of_ioctl hpos hlt hop)
    · have h := allThreads_op (threads_of_ioctl hge hop)
      rw [show 13 - (k.pc - 72) = 85 - k.pc by omega] at h
      exact .inl h

/-- What a thread never does is of a program that creates threads. -/
theorem exists_creates (hop : k.prog.ops[k.pc]? = some op)
    (hne : ∀ msr edx eax, op ≠ .wrmsr msr edx eax) : ∃ fn, k.prog.creates = some fn := by
  cases hfn : k.prog.creates with
  | some fn => exact ⟨fn, rfl⟩
  | none =>
    obtain ⟨fn, hp⟩ := Prog.creates_eq_none.mp hfn
    obtain ⟨msr, edx, eax, he⟩ := thread_wrmsr hp hop
    exact absurd he (hne msr edx eax)

/-- The operations of an ioctl before it creates threads leave all of these. -/
theorem left_dump (rdmsr : Msrs) (st : Module) (ts : Threads) (hleft : op.skips + 14 ≤ k.left)
    (hop : op = .wrmsr msrIa32Debugctlmsr 0 0 ∨ op.dumps = true) :
    13 ≤ (op.onTask rdmsr st ts k).left := by
  have hnext : op.next st ts k ≤ k.pc + 1 + op.skips := by
    rcases hop with rfl | hd
    · exact Nat.le_refl _
    · exact op.next_le_of_dumps hd st ts k
  rw [Task.left] at hleft
  rw [Task.left, Op.onTask_prog, Op.onTask_pc]
  omega

/-- What an operation does to its CPU. -/
theorem onCpu_cases (hop : k.prog.ops[k.pc]? = some op) :
    (k.prog.isThread = false ∧ ∀ cpu, op.onCpu cpu = cpu) ∨
      (k.prog = .ioctl ∧ ∀ cpu, op.onCpu cpu = { cpu with debugctl := 0 }) ∨
      ∃ fn, k.prog = .thread fn ∧
        ((k.pc = 0 ∧ ∀ cpu, op.onCpu cpu = { cpu with debugctl := fn.value }) ∨
          k.pc = 1 ∧ ∀ cpu, op.onCpu cpu = { cpu with select := fn.value }) := by
  cases hfn : k.prog.creates with
  | none =>
    obtain ⟨fn, hp⟩ := Prog.creates_eq_none.mp hfn
    refine .inr (.inr ⟨fn, hp, ?_⟩)
    rcases thread_op hp hop with ⟨hpc, rfl⟩ | ⟨hpc, rfl⟩
    · exact .inl ⟨hpc, fun cpu => by rw [Op.onCpu, value_append]; rfl⟩
    · exact .inr ⟨hpc, fun cpu => by rw [Op.onCpu, value_append]; rfl⟩
  | some fn =>
    have hthread := Prog.isThread_eq_false.mpr ⟨fn, hfn⟩
    rcases creator_op hfn hop with h | ⟨hp, -, rfl | hd⟩
    · exact .inl ⟨hthread, fun cpu => by cases h <;> rfl⟩
    · exact .inr (.inl ⟨hp, fun _ => rfl⟩)
    · exact .inl ⟨hthread, Op.onCpu_of_dumps hd⟩

end Programs

namespace Kernel

variable {s s' : Kernel} {c c₀ t t₀ u : Nat} {k k' k₀ : Task} {op : Op} {e : Event}
  {fn fn' : ThreadFn} {created : Bool}

/-! ## The filter -/

/-- The thread on a CPU is between its two operations. -/
def Half (fn : ThreadFn) (c : Nat) (s : Kernel) : Prop :=
  ∃ t k, s.running c = some t ∧ s.tasks[t]? = some k ∧ k.prog = .thread fn ∧ k.pc = 1

theorem thread_awake (hprog : k.prog = .thread fn) (hop : k.prog.ops[k.pc]? = some op) :
    op.sleeps = false := by
  obtain ⟨msr, edx, eax, rfl⟩ := thread_wrmsr hprog hop
  rfl

theorem Half.elsewhere (h : Half fn c s) (h' : Elsewhere c s s') : Half fn c s' := by
  obtain ⟨t, k, hr, hk, hprog, hpc⟩ := h
  obtain ⟨hr', k', hk', hsame⟩ := h'.task hr hk fun op hop => thread_awake hprog hop
  exact ⟨t, k', hr', hk', hsame.prog.trans hprog, hsame.pc.trans hpc⟩

/-- The first operation of a thread. -/
theorem half_exec (created : Bool) (hs : Sched s) (hc : s.current c = some (t, k, op))
    (hprog : k.prog = .thread fn) (hpc : k.pc = 0) : Half fn c (s.exec c t k op created) := by
  obtain ⟨msr, edx, eax, rfl⟩ := thread_wrmsr hprog (current_iff.mp hc).2.2
  set k' := (Op.wrmsr msr edx eax).onTask (s.cpus c).rdmsr s.dev s.ts k with hk'
  have hprog' : k'.prog = .thread fn := hprog
  have hpc' : k'.pc = 1 := congrArg (· + 1) hpc
  exact ⟨t, k', exec_running (current_iff.mp hc).1 (by rw [← hk', thread_left hprog', hpc']; decide),
    exec_task created hc (hs.current hc).1, hprog', hpc'⟩

end Kernel

/-- The program is one of those that a function is for. -/
def Prog.WorksFor (fn : ThreadFn) (p : Prog) : Prop := p.creates = some fn ∨ p = .thread fn

/-- Loading and the ioctls turn the LBR on, unloading turns it off. -/
def Event.WorksFor (fn : ThreadFn) : Event → Prop
  | .ioctl _ => fn = .enableLBR
  | .unload _ => fn = .disableLBR
  | _ => True

theorem worksFor_of_loaded {es : List Event} {e : Event} (hes : ∀ c, .unload c ∉ es)
    (he : e ∈ es) : e.WorksFor .enableLBR := by
  cases e with
  | unload c => exact absurd he (hes c)
  | ioctl c => rfl
  | _ => trivial

theorem create_op {k : Task} {j : Nat} {fn : ThreadFn}
    (hop : k.prog.ops[k.pc]? = some (.create j fn)) :
    k.prog.creates = some fn ∧ j < 4 ∧ k.left + 2 * j = 13 := by
  obtain ⟨fn', hfn⟩ := exists_creates hop (by simp)
  rcases creator_op hfn hop with h | ⟨-, -, he | he⟩
  · cases h with
    | create hj left_eq => exact ⟨hfn, hj, left_eq⟩
  · cases he
  · cases he

namespace Kernel

variable {s s' : Kernel} {c c₀ t t₀ u : Nat} {k k' k₀ : Task} {op : Op} {e : Event}
  {fn fn' : ThreadFn} {created : Bool}

def AllWorkFor (fn : ThreadFn) (s : Kernel) : Prop :=
  ∀ (t : Nat) (k : Task), s.tasks[t]? = some k → k.prog.WorksFor fn

theorem AllWorkFor.thread (hall : AllWorkFor fn s) (hk : s.tasks[t]? = some k)
    (hprog : k.prog = .thread fn') : fn' = fn := by
  rcases hall t k hk with h | h
  · rw [hprog] at h
    cases h
  · exact Prog.thread.inj (hprog.symm.trans h)

theorem AllWorkFor.change (hall : AllWorkFor fn s) (hs : Sched s) (h : Change s e s')
    (he : e.WorksFor fn) : AllWorkFor fn s' := by
  intro t k' hk'
  rcases h.origin hs hk' with ⟨k, hk, hsame⟩ | ⟨c, created, k, op, hd, rfl⟩ |
    ⟨c, u, k, j, fn', hc, rfl⟩ | ⟨c, prog, ⟨rfl, rfl⟩ | ⟨rfl, rfl⟩, rfl⟩
  · rw [hsame.prog]
    exact hall t k hk
  · rw [Op.onTask_prog]
    exact hall t k (current_iff.mp hd.current).2.1
  · obtain ⟨-, hk, hop⟩ := current_iff.mp hc
    have hcreates := (create_op hop).1
    rcases hall u k hk with h' | h'
    · obtain rfl := Option.some.inj (hcreates.symm.trans h')
      exact .inr rfl
    · rw [h'] at hcreates
      cases hcreates
  · exact .inl (congrArg some he.symm)
  · exact .inl (congrArg some he.symm)

/-- The filter of a CPU is set wherever the LBR is on, or will be in the next operation. -/
def Filtered (c : Nat) (s : Kernel) : Prop :=
  (s.cpus c).debugctl = 0 ∨ (s.cpus c).select = 1 ∨ Unfiltered s c

theorem Filtered.change (h : Filtered c s) (hall : AllWorkFor .enableLBR s) (hs : Sched s)
    (hch : Change s e s') : Filtered c s' := by
  rcases hch.own_or_elsewhere hs c with ⟨created, t, k, op, hd⟩ | h'
  · obtain ⟨hr, hk, hop⟩ := current_iff.mp hd.current
    rw [hd.state]
    rcases onCpu_cases hop with ⟨hthread, hid⟩ | ⟨-, hoff⟩ | ⟨fn, hprog, hthread⟩
    · rw [Filtered, exec_cpu, hid]
      refine h.imp_right (.imp_right ?_)
      rintro ⟨t', k', hr', hk', hprog, -⟩
      obtain rfl := Option.some.inj (hr'.symm.trans hr)
      obtain rfl := Option.some.inj (hk'.symm.trans hk)
      rw [hprog] at hthread
      cases hthread
    · exact .inl (by rw [exec_cpu, hoff])
    · obtain rfl := hall.thread hk hprog
      rcases hthread with ⟨hpc, -⟩ | ⟨-, hsel⟩
      · exact .inr (.inr (half_exec created hs hd.current hprog hpc))
      · exact .inr (.inl (by rw [exec_cpu, hsel]; rfl))
  · rw [Filtered, h'.debugctl, h'.select]
    exact h.imp_right (.imp_right fun hhalf => Half.elsewhere hhalf h')

/-- A CPU that is filtered records no branch that ends in the kernel. -/
theorem records_of_select {cpu : Cpu} (h : cpu.select = 1) (b : Branch) :
    cpu.records b = (cpu.debugctl.getLsbD 0 && !b.endsInKernel) := by
  have hone (v : BitVec 64) : (1#64 &&& v == 0) = !v.getLsbD 0 := by
    have hv : (1#64 &&& v).toNat = v.toNat % 2 := by
      rw [BitVec.toNat_and, Nat.and_comm]
      exact Nat.and_one_is_mod _
    rw [Bool.eq_iff_iff, beq_iff_eq, ← BitVec.toNat_inj, hv, BitVec.getLsbD, Nat.testBit_zero]
    show v.toNat % 2 = 0 ↔ _
    simp
  rw [Cpu.records, h, show (1 : BitVec 64) = 1#64 from rfl, hone]
  rfl

/-- Branches that end in the kernel are recorded only by an interrupt that comes between the
two operations of a thread, and only where the filter was never set before. -/
theorem recorded_endsInKernel (cpus : Nat → Cpu) (dev : Module) {es : List Event} {c : Nat}
    (hoff : (cpus c).debugctl = 0) (hes : ∀ c, .unload c ∉ es) {b : Branch}
    (hb : b.endsInKernel = true) (hrec : (((load cpus dev).run es).cpus c).records b = true) :
    Unfiltered ((load cpus dev).run es) c ∧ (((load cpus dev).run es).cpus c).select ≠ 1 := by
  have hrun : (Sched ((load cpus dev).run es) ∧ AllWorkFor .enableLBR ((load cpus dev).run es)) ∧
      Filtered c ((load cpus dev).run es) := by
    refine run_induction (P := fun s => (Sched s ∧ AllWorkFor .enableLBR s) ∧ Filtered c s)
      (fun s e he h => ?_) ⟨⟨sched_load cpus dev, fun t k hk => ?_⟩, .inl hoff⟩
    · have hch := change s e
      exact ⟨⟨h.1.1.change hch, h.1.2.change h.1.1 hch (worksFor_of_loaded hes he)⟩,
        h.2.change h.1.2 h.1.1 hch⟩
    · obtain rfl := List.mem_singleton.mp (List.mem_of_getElem? hk)
      exact .inl rfl
  have hselect : (((load cpus dev).run es).cpus c).select ≠ 1 := by
    intro hone
    rw [records_of_select hone, hb, Bool.not_true, Bool.and_false] at hrec
    cases hrec
  rcases hrun.2 with h | h | h
  · obtain ⟨hon, -⟩ := Bool.and_eq_true_iff.mp hrec
    rw [h] at hon
    exact absurd hon (by decide)
  · exact absurd h hselect
  · exact ⟨h, hselect⟩

/-- An interrupt behind the first operation of the first thread, which is the second task. -/
theorem recorded_endsInKernel_interrupt :
    let s := (load (fun _ => { emptyCpu with debugctl := 0 }) emptyModule).run
      (.schedule 0 0 :: List.replicate 13 (.step 0 true) ++ [.schedule 0 1, .step 0 true])
    (s.cpus 0).records ⟨0x4005d0, 0xffffffff81000000, 7, 1⟩ = true ∧
      Unfiltered s 0 ∧ (s.cpus 0).select ≠ 1 :=
  ⟨by decide +kernel, recorded_endsInKernel (fun _ => { emptyCpu with debugctl := 0 }) emptyModule
    rfl (by simp [List.replicate]) (b := ⟨0x4005d0, 0xffffffff81000000, 7, 1⟩) rfl
    (by decide +kernel)⟩

/-! ## Threads in the order of their programs -/

/-- A program that creates threads, before its end. -/
structure Creating (fn : ThreadFn) (t : Nat) (k : Task) (s : Kernel) : Prop where
  task : s.tasks[t]? = some k
  creates : k.prog.creates = some fn
  left : 0 < k.left

/-- What has become of the threads of a program with so many operations left: the last one it has
created is still to be bound, and those that it has bound wait until it wakes them. -/
structure Made (fn : ThreadFn) (left : Nat) (s : Kernel) : Prop where
  fresh : ∀ {j u}, j < 4 → left + 2 * j = 12 → s.ts j = some u →
    s.tasks[u]? = some { prog := .thread fn, state := .new }
  bound : ∀ {j}, j < 4 → left + 2 * j ≤ 11 → 4 ≤ left + j →
    ∃ u, s.ts j = some u ∧ s.tasks[u]? = some { prog := .thread fn, state := .new, bound := some j }

/-- Only one program at a time creates threads, and all are bound when they are woken. -/
structure Orderly (s : Kernel) : Prop where
  single : ∀ {fn fn' t t' k k'}, Creating fn t k s → Creating fn' t' k' s → t = t'
  made : ∀ {fn t k}, Creating fn t k s → Made fn k.left s
  awake : ∀ {t : Nat} {k : Task} {fn}, s.tasks[t]? = some k → k.prog = .thread fn → k.state ≠ .new →
    ∃ j < 4, k.bound = some j

theorem Creating.not_free (h : Creating fn t k s) : ¬ s.Free := fun hfree => by
  have := hfree k (List.mem_of_getElem? h.task) (Prog.isThread_eq_false.mpr ⟨fn, h.creates⟩)
  have := h.left
  omega

theorem creating_of_current (hc : s.current c = some (t, k, op))
    (hcreates : k.prog.creates = some fn) : Creating fn t k s := by
  obtain ⟨-, hk, hop⟩ := current_iff.mp hc
  have hlt := (List.getElem?_eq_some_iff.mp hop).1
  exact ⟨hk, hcreates, by rw [Task.left]; omega⟩

/-- Before the end of a dump there are none. -/
theorem Made.of_le {left : Nat} (h : 13 ≤ left) : Made fn left s :=
  ⟨fun _ hj => by omega, fun _ hj => by omega⟩

/-! ### Passive steps -/

theorem Creating.of_passive (h : Creating fn t k' s') (hp : Passive e s s') :
    (∃ k, Creating fn t k s ∧ k.Kept k') ∨
      e.begins = true ∧ t = s.tasks.length ∧ 13 ≤ k'.left := by
  rcases hp.origin h.task with ⟨k, hk, hkept⟩ | ⟨c, prog, ⟨rfl, rfl⟩ | ⟨rfl, rfl⟩, ht, rfl⟩
  · exact .inl ⟨k, ⟨hk, by rw [← hkept.prog, h.creates], by rw [← hkept.left]; exact h.left⟩, hkept⟩
  · exact .inr ⟨rfl, ht, by decide⟩
  · exact .inr ⟨rfl, ht, by decide⟩

/-- A thread that is new stays as it is. -/
theorem Passive.new (hp : Passive e s s') (hk : s.tasks[t]? = some k) (hnew : k.state = .new) :
    s'.tasks[t]? = some k := by
  obtain ⟨k', hk', hkept⟩ := hp.kept hk
  rwa [hkept.eq_of_new hnew] at hk'

theorem Orderly.passive (h : Orderly s) (hp : Passive e s s') (hfree : e.begins → s.Free) :
    Orderly s' := by
  refine ⟨fun {fn fn' t t' k k'} hk hk' => ?_, fun {fn t k'} hk' => ?_,
    fun {t k' fn} hk' hprog hawake => ?_⟩
  · rcases hk.of_passive hp with ⟨k₁, hk₁, -⟩ | ⟨hb, ht, -⟩ <;>
      rcases hk'.of_passive hp with ⟨k₂, hk₂, -⟩ | ⟨hb', ht', -⟩
    · exact h.single hk₁ hk₂
    · exact absurd (hfree hb') hk₁.not_free
    · exact absurd (hfree hb) hk₂.not_free
    · rw [ht, ht']
  · rcases hk'.of_passive hp with ⟨k, hk, hkept⟩ | ⟨-, -, hleft⟩
    · have hmade := h.made hk
      rw [hkept.left]
      refine ⟨fun {j u} hj heq hts => ?_, fun {j} hj hle hge => ?_⟩
      · rw [hp.ts] at hts
        exact hp.new (hmade.fresh hj heq hts) rfl
      · obtain ⟨u, hts, hu⟩ := hmade.bound hj hle hge
        exact ⟨u, by rw [hp.ts, hts], hp.new hu rfl⟩
    · exact .of_le hleft
  · rcases hp.origin hk' with ⟨k, hk, hkept⟩ | ⟨c, prog, ⟨-, rfl⟩ | ⟨-, rfl⟩, -, rfl⟩
    · rw [hkept.bound]
      exact h.awake hk (by rw [← hkept.prog, hprog]) fun hnew => hawake (hkept.new.mpr hnew)
    · cases hprog
    · cases hprog

/-! ### Operations -/

theorem Creating.of_exec (h : Creating fn t k' (s.exec c₀ t₀ k₀ op created)) (hs : Sched s)
    (hc : s.current c₀ = some (t₀, k₀, op)) :
    (t = t₀ ∧ k₀.prog.creates = some fn ∧
      k' = op.onTask (s.cpus c₀).rdmsr s.dev s.ts k₀) ∨
      ∃ k, Creating fn t k s ∧ t ≠ t₀ ∧ k.left = k'.left := by
  rcases exec_cases hc (hs.current hc).1 h.task with
    ⟨rfl, rfl⟩ | ⟨hne, k, hk, rfl⟩ | ⟨-, -, j, fn', -, rfl⟩
  · exact .inl ⟨rfl, by rw [← Op.onTask_prog op (s.cpus c₀).rdmsr s.dev s.ts, h.creates], rfl⟩
  · have hsame := op.onThread_same s.ts t k
    exact .inr ⟨k, ⟨hk, by rw [← hsame.prog, h.creates], by rw [← hsame.left]; exact h.left⟩, hne,
      hsame.left.symm⟩
  · cases h.creates

/-- A thread that is new is no task that does something. -/
theorem exec_new (created : Bool) (hs : Sched s) (hc : s.current c₀ = some (t₀, k₀, op))
    (hk : s.tasks[u]? = some k) (hnew : k.state = .new) :
    (s.exec c₀ t₀ k₀ op created).tasks[u]? = some (op.onThread s.ts u k) := by
  refine exec_other c₀ k₀ op created ?_ hk
  rintro rfl
  obtain rfl := Option.some.inj (hk.symm.trans (current_iff.mp hc).2.1)
  rw [(hs.current hc).1] at hnew
  cases hnew

/-- An operation that neither creates nor binds nor wakes threads. -/
theorem Made.exec {left : Nat} (h : Made fn left s) (created : Bool) (hs : Sched s)
    (hc : s.current c₀ = some (t₀, k₀, op)) (hts : op.onTs created s.tasks.length s.ts = s.ts)
    (hid : ∀ u k, op.onThread s.ts u k = k) : Made fn left (s.exec c₀ t₀ k₀ op created) := by
  have hts' : (s.exec c₀ t₀ k₀ op created).ts = s.ts := hts
  refine ⟨fun {j u} hj heq hu => ?_, fun {j} hj hle hge => ?_⟩
  · rw [hts'] at hu
    rw [exec_new created hs hc (h.fresh hj heq hu) rfl, hid]
  · obtain ⟨u, hu, hk⟩ := h.bound hj hle hge
    exact ⟨u, by rw [hts', hu], by rw [exec_new created hs hc hk rfl, hid]⟩

theorem Made.exec_create {j : Nat} (h : Made fn k₀.left s) (created : Bool) (hs : Sched s)
    (hc : s.current c₀ = some (t₀, k₀, .create j fn)) (hleft : k₀.left + 2 * j = 13) :
    Made fn (k₀.left - 1) (s.exec c₀ t₀ k₀ (.create j fn) created) := by
  have hts : (s.exec c₀ t₀ k₀ (.create j fn) created).ts =
      Function.update s.ts j (if created then some s.tasks.length else none) := rfl
  refine ⟨fun {j' u} _ heq hu => ?_, fun {j'} hj hle hge => ?_⟩
  · obtain rfl : j' = j := by omega
    rw [hts, Function.update_self] at hu
    cases created with
    | false => cases hu
    | true =>
      obtain rfl := Option.some.inj hu
      exact exec_create_task c₀ t₀ k₀ j' fn
  · obtain ⟨u, hu, hk⟩ := h.bound hj (by omega) (by omega)
    refine ⟨u, ?_, exec_new created hs hc hk rfl⟩
    rw [hts, Function.update_of_ne (by omega), hu]

theorem Made.exec_bind {j : Nat} (h : Made fn k₀.left s) (created : Bool) (hs : Sched s)
    (hc : s.current c₀ = some (t₀, k₀, .bind j)) (hj : j < 4) (hleft : k₀.left + 2 * j = 12)
    (hts : (s.ts j).isSome) : Made fn (k₀.left - 1) (s.exec c₀ t₀ k₀ (.bind j) created) := by
  obtain ⟨u₀, hu₀⟩ := Option.isSome_iff_exists.mp hts
  have hk₀ := h.fresh hj hleft hu₀
  refine ⟨fun _ heq => by omega, fun {j'} hj' hle hge => ?_⟩
  rcases eq_or_ne j' j with rfl | hne
  · refine ⟨u₀, hu₀, ?_⟩
    rw [exec_new created hs hc hk₀ rfl, Op.onThread, if_pos hu₀]
    rfl
  · obtain ⟨u, hu, hk⟩ := h.bound hj' (by omega) (by omega)
    have hother : s.ts j ≠ some u := by
      intro hju
      rw [h.fresh hj hleft hju] at hk
      cases hk
    exact ⟨u, hu, by rw [exec_new created hs hc hk rfl, Op.onThread, if_neg hother]⟩

/-- The thread that a program wakes. -/
theorem Made.woken {left j : Nat} (h : Made fn left s) (hj : j < 4) (hleft : left + j = 4)
    (hu : s.ts j = some u) :
    s.tasks[u]? = some { prog := .thread fn, state := .new, bound := some j } := by
  obtain ⟨u', hu', hk⟩ := h.bound hj (by omega) (by omega)
  obtain rfl := Option.some.inj (hu'.symm.trans hu)
  exact hk

theorem Made.exec_wakeUp {j : Nat} (h : Made fn k₀.left s) (created : Bool) (hs : Sched s)
    (hc : s.current c₀ = some (t₀, k₀, .wakeUp j)) (hj : j < 4) (hleft : k₀.left + j = 4) :
    Made fn (k₀.left - 1) (s.exec c₀ t₀ k₀ (.wakeUp j) created) := by
  refine ⟨fun _ heq => by omega, fun {j'} hj' hle hge => ?_⟩
  obtain ⟨u, hu, hk⟩ := h.bound hj' (by omega) (by omega)
  have hother : s.ts j ≠ some u := by
    intro hju
    rw [h.woken hj hleft hju] at hk
    have : j = j' := Option.some.inj (congrArg Task.bound (Option.some.inj hk))
    omega
  exact ⟨u, hu, by rw [exec_new created hs hc hk rfl, Op.onThread, if_neg hother]⟩

theorem left_onTask {rdmsr : Msrs} {st : Module} {ts : Threads} (h : op.next st ts k = k.pc + 1) :
    (op.onTask rdmsr st ts k).left = k.left - 1 := by
  rw [Task.left, Task.left, Op.onTask_prog, Op.onTask_pc, h]
  omega

/-- Where an error ends a program, nothing is left. -/
theorem left_next {rdmsr : Msrs} {st : Module} {ts : Threads} (hop : AllOp fn k.left op)
    (hlt : 0 < (op.onTask rdmsr st ts k).left) :
    (op.onTask rdmsr st ts k).left = k.left - 1 ∧
      ∀ j, op = .bind j ∨ op = .wakeUp j → (ts j).isSome := by
  have hend {n : Nat} (hn : k.prog.ops.length ≤ n) (hnext : op.next st ts k = n) : False := by
    rw [Task.left, Op.onTask_prog, Op.onTask_pc, hnext] at hlt
    omega
  cases hop with
  | create => exact ⟨left_onTask rfl, by simp⟩
  | @bind j | @wakeUp j =>
    by_cases hts : (ts j).isSome = true
    · exact ⟨left_onTask (if_pos hts), by simpa using hts⟩
    · exact (hend (Nat.le_refl _) (if_neg hts)).elim
  | unlessError left_eq =>
    by_cases hts : ts.noError = true
    · exact ⟨left_onTask (by rw [Op.next, if_pos hts]), by simp⟩
    · have hnext : (Op.unlessError 4).next st ts k = k.pc + 5 := by rw [Op.next, if_neg hts]
      refine (hend ?_ hnext).elim
      rw [Task.left] at left_eq
      omega

/-- The next operation of the program that creates threads. -/
theorem Made.step (h : Made fn k₀.left s) (created : Bool) (hs : Sched s)
    (hc : s.current c₀ = some (t₀, k₀, op)) (hcreates : k₀.prog.creates = some fn)
    (hleft : 0 < (op.onTask (s.cpus c₀).rdmsr s.dev s.ts k₀).left) :
    Made fn (op.onTask (s.cpus c₀).rdmsr s.dev s.ts k₀).left (s.exec c₀ t₀ k₀ op created) := by
  rcases creator_op hcreates (current_iff.mp hc).2.2 with hop | ⟨-, hskips, hop⟩
  · obtain ⟨hleft', hts⟩ := left_next hop hleft
    rw [hleft']
    cases hop with
    | create hj left_eq => exact h.exec_create created hs hc left_eq
    | bind hj left_eq => exact h.exec_bind created hs hc hj left_eq (hts _ (.inl rfl))
    | wakeUp hj left_eq => exact h.exec_wakeUp created hs hc hj left_eq
    | unlessError left_eq =>
      have h' := h.exec created hs hc rfl fun _ _ => rfl
      refine ⟨fun hj heq => ?_, fun hj hle hge => h'.bound hj (by omega) (by omega)⟩
      omega
  · exact .of_le (left_dump _ _ _ hskips hop)

/-- A thread is awake if it was, or if it is the one to be woken. -/
theorem Op.awake_onThread {ts : Threads} (h : (op.onThread ts u k).state ≠ .new) :
    k.state ≠ .new ∨ ∃ j, op = .wakeUp j ∧ ts j = some u := by
  cases op with
  | wakeUp j =>
    by_cases hts : ts j = some u
    · exact .inr ⟨j, rfl, hts⟩
    · rw [Op.onThread, if_neg hts] at h
      exact .inl h
  | bind j =>
    rw [Op.onThread] at h
    split at h
    · rw [Task.bind_state] at h
      exact .inl h
    · exact .inl h
  | _ => exact .inl h

/-- A thread that was awake, or the one that is woken. -/
theorem Orderly.exec_awake (h : Orderly s) (hs : Sched s) (hc : s.current c₀ = some (t₀, k₀, op))
    (hk : (s.exec c₀ t₀ k₀ op created).tasks[t]? = some k) (hprog : k.prog = .thread fn)
    (hawake : k.state ≠ .new) : ∃ j < 4, k.bound = some j := by
  obtain ⟨-, hk₀, hop⟩ := current_iff.mp hc
  have hrun := (hs.current hc).1
  rcases exec_cases hc hrun hk with ⟨rfl, rfl⟩ | ⟨-, k₁, hk₁, rfl⟩ | ⟨-, -, j, fn', -, rfl⟩
  · rw [Op.onTask_bound]
    exact h.awake hk₀ (by rw [← hprog, Op.onTask_prog]) (by rw [hrun]; decide)
  · have hsame := op.onThread_same s.ts t k₁
    rcases Op.awake_onThread hawake with hawake₁ | ⟨j, rfl, hts⟩
    · rw [(hsame.awake hawake₁).2]
      exact h.awake hk₁ (hsame.prog.symm.trans hprog) hawake₁
    · obtain ⟨fn', hcreates⟩ := exists_creates hop (by simp)
      rcases creator_op hcreates hop with hall | ⟨-, -, he | he⟩
      · cases hall with
        | wakeUp hj left_eq =>
          have hwoken := (h.made (creating_of_current hc hcreates)).woken hj left_eq hts
          obtain rfl := Option.some.inj (hk₁.symm.trans hwoken)
          exact ⟨j, hj, by rw [Op.onThread, if_pos hts, Task.wake_bound]⟩
      · cases he
      · cases he
  · exact absurd rfl hawake

theorem Orderly.exec (h : Orderly s) (hs : Sched s) (hc : s.current c₀ = some (t₀, k₀, op)) :
    Orderly (s.exec c₀ t₀ k₀ op created) := by
  have hop := (current_iff.mp hc).2.2
  refine ⟨fun {fn fn' t t' k k'} hk hk' => ?_, fun {fn t k} hk => ?_, h.exec_awake hs hc⟩
  · rcases hk.of_exec hs hc with ⟨rfl, h₁, -⟩ | ⟨k₁, h₁, hne, -⟩ <;>
      rcases hk'.of_exec hs hc with ⟨rfl, h₂, -⟩ | ⟨k₂, h₂, hne', -⟩
    · rfl
    · exact h.single (creating_of_current hc h₁) h₂
    · exact h.single h₁ (creating_of_current hc h₂)
    · exact h.single h₁ h₂
  · rcases hk.of_exec hs hc with ⟨rfl, hcreates, rfl⟩ | ⟨k₁, hk₁, hne, hleft⟩
    · exact (h.made (creating_of_current hc hcreates)).step created hs hc hcreates hk.left
    · rw [← hleft]
      cases hfn : k₀.prog.creates with
      | some fn' => exact absurd (h.single hk₁ (creating_of_current hc hfn)) hne
      | none =>
        obtain ⟨fn', hthread⟩ := Prog.creates_eq_none.mp hfn
        obtain ⟨msr, edx, eax, rfl⟩ := thread_wrmsr hthread hop
        exact (h.made hk₁).exec created hs hc rfl fun _ _ => rfl

theorem Orderly.change (h : Orderly s) (hs : Sched s) (hch : Change s e s')
    (hfree : e.begins → s.Free) : Orderly s' := by
  rcases hch.passive_or_exec hs with ⟨c, created, t, k, op, hd⟩ | hp
  · rw [hd.state]
    exact h.exec hs hd.current
  · exact h.passive hp hfree

theorem orderly_load (cpus : Nat → Cpu) (dev : Module) : Orderly (load cpus dev) := by
  have hstart {t : Nat} {k : Task} (hk : (load cpus dev).tasks[t]? = some k) :
      t = 0 ∧ k = { prog := .start, state := .ready } :=
    ⟨Nat.lt_one_iff.mp (List.getElem?_eq_some_iff.mp hk).1,
      List.mem_singleton.mp (List.mem_of_getElem? hk)⟩
  refine ⟨fun hk hk' => (hstart hk.task).1.trans (hstart hk'.task).1.symm, fun {fn t k} hk => ?_,
    fun hk hprog _ => ?_⟩
  · refine .of_le ?_
    rw [(hstart hk.task).2]
    decide
  · rw [(hstart hk).2] at hprog
    cases hprog

/-! ## CPUs without threads -/

/-- What holds in every run in which no ioctl begins before the one before it has come to its
end. -/
structure Sound (s : Kernel) : Prop where
  sched : Sched s
  orderly : Orderly s

theorem Sound.act (h : Sound s) {e : Event} (hfree : e.begins → s.Free) : Sound (s.act e) :=
  ⟨h.sched.change (change s e), h.orderly.change h.sched (change s e) hfree⟩

theorem sound_load (cpus : Nat → Cpu) (dev : Module) : Sound (load cpus dev) :=
  ⟨sched_load cpus dev, orderly_load cpus dev⟩

theorem Sound.run {es : List Event} (h : Sound s) (hserial : Serial es s) : Sound (s.run es) :=
  hserial.keeps (P := Sound) (fun _ _ _ hfree h => h.act hfree) h

/-- On such a CPU the LBR is never turned on. -/
theorem Change.high (h : Sound s) (hch : Change s e s') (hc : 4 ≤ c) :
    (s'.cpus c).debugctl = (s.cpus c).debugctl ∨ (s'.cpus c).debugctl = 0 := by
  rcases hch.own_or_elsewhere h.sched c with ⟨created, t, k, op, hd⟩ | h'
  · obtain ⟨-, hk, hop⟩ := current_iff.mp hd.current
    rw [hd.state, exec_cpu]
    rcases onCpu_cases hop with ⟨-, hid⟩ | ⟨-, hoff⟩ | ⟨fn, hprog, -⟩
    · exact .inl (by rw [hid])
    · exact .inr (by rw [hoff])
    · obtain ⟨hrun, hon⟩ := h.sched.current hd.current
      obtain ⟨j, hj, hbound⟩ := h.orderly.awake hk hprog (by rw [hrun]; decide)
      have hcj : j = c := by simpa [Task.runsOn, hbound] using hon
      omega
  · exact .inl h'.debugctl

/-- With the LBR off, nothing is recorded. -/
theorem Change.off (h : Change s e s') (hoff : (s.cpus c).debugctl = 0) :
    s'.log c = s.log c ∧ (s'.cpus c).lbr = (s.cpus c).lbr := by
  have hbit : (s.cpus c).debugctl.getLsbD 0 = false := by rw [hoff]; exact BitVec.getLsbD_zero
  cases h with
  | @branch c' b user =>
    have hrec : (s.cpus c).records b = false := by rw [Cpu.records, hbit, Bool.false_and]
    refine ⟨by rw [retire_log, if_neg (by simp [hrec]), List.append_nil], ?_⟩
    show (Function.update s.cpus c' ((s.cpus c').retire b) c).lbr = _
    rcases eq_or_ne c c' with rfl | hne
    · rw [Function.update_self, Cpu.retire_of_off hbit]
    · rw [Function.update_of_ne hne]
  | @step c' t k op created current =>
    refine ⟨rfl, ?_⟩
    show (Function.update s.cpus c' (op.onCpu (s.cpus c')) c).lbr = _
    rcases eq_or_ne c c' with rfl | hne
    · rw [Function.update_self, Op.onCpu_lbr]
    · rw [Function.update_of_ne hne]
  | _ => exact ⟨rfl, rfl⟩

/-- The ring of a CPU that has none of these threads stands still once the LBR is off. -/
theorem Sound.off_run {es : List Event} (h : Sound s) (hserial : Serial es s) (hc : 4 ≤ c)
    (hoff : (s.cpus c).debugctl = 0) :
    (s.run es).log c = s.log c ∧ ((s.run es).cpus c).lbr = (s.cpus c).lbr := by
  induction es generalizing s with
  | nil => exact ⟨rfl, rfl⟩
  | cons e es ih =>
    have hoff' : ((s.act e).cpus c).debugctl = 0 := by
      rcases (change s e).high h hc with h' | h'
      · exact h'.trans hoff
      · exact h'
    obtain ⟨hlog, hlbr⟩ := ih (h.act hserial.1) hserial.2 hoff'
    obtain ⟨hlog', hlbr'⟩ := (change s e).off hoff
    exact ⟨hlog.trans hlog', hlbr.trans hlbr'⟩

/-- The LBR is off, or the task that will turn it off has the CPU. -/
def OffSoon (c t : Nat) (s : Kernel) : Prop :=
  (s.running c = some t ∧ ∃ k, s.tasks[t]? = some k ∧ k.prog = .ioctl ∧ k.pc = 0) ∨
    (s.cpus c).debugctl = 0

theorem OffSoon.act (h : OffSoon c t s) (hs : Sound s) (hc : 4 ≤ c) (e : Event) :
    OffSoon c t (s.act e) := by
  have hch := change s e
  rcases h with ⟨hr, k, hk, hprog, hpc⟩ | hoff
  · rcases hch.own_or_elsewhere hs.sched c with ⟨created, t', k', op, hd⟩ | h'
    · obtain ⟨hr', hk', hop⟩ := current_iff.mp hd.current
      obtain rfl : t' = t := Option.some.inj (hr'.symm.trans hr)
      obtain rfl : k' = k := Option.some.inj (hk'.symm.trans hk)
      obtain rfl := ioctl_first hprog hpc hop
      rw [hd.state]
      exact .inr (by rw [exec_cpu]; rfl)
    · obtain ⟨hr', k', hk', hsame⟩ := h'.task hr hk fun op hop => by
        rw [ioctl_first hprog hpc hop]
        rfl
      exact .inl ⟨hr', k', hk', hsame.prog.trans hprog, hsame.pc.trans hpc⟩
  · rcases hch.high hs hc with h' | h'
    · exact .inr (h'.trans hoff)
    · exact .inr h'

theorem OffSoon.run {es : List Event} (h : OffSoon c t s) (hs : Sound s) (hserial : Serial es s)
    (hc : 4 ≤ c) : OffSoon c t (s.run es) := by
  induction es generalizing s with
  | nil => exact h
  | cons e es ih => exact ih (h.act hs hc e) (hs.act hserial.1) hserial.2

/-- Where there is no thread to turn it on again, an ioctl turns the LBR off for good, if none
begins before the one before it has come to its end: all later dumps of this CPU hand out the
same records. -/
theorem ioctl_freezes (cpus : Nat → Cpu) (dev : Module) (es₀ es₁ es₂ : List Event) {c : Nat}
    (hc : 4 ≤ c) (hserial : Serial (es₀ ++ .ioctl c :: es₁ ++ es₂) (load cpus dev))
    (hidle : ((load cpus dev).run es₀).running c = none)
    (hbegan : Began ((load cpus dev).run (es₀ ++ .ioctl c :: es₁))
      ((load cpus dev).run es₀).tasks.length) :
    let s₁ := (load cpus dev).run (es₀ ++ .ioctl c :: es₁)
    let s₂ := (load cpus dev).run (es₀ ++ .ioctl c :: es₁ ++ es₂)
    s₂.log c = s₁.log c ∧ snapshot (s₂.cpus c).rdmsr = snapshot (s₁.cpus c).rdmsr := by
  intro s₁ s₂
  obtain ⟨hserial₁, hserial₂⟩ := along_append.mp hserial
  obtain ⟨hserial₀, hfree, hrest⟩ := along_append.mp hserial₁
  have hs := (sound_load cpus dev).run hserial₀
  have hent := entered_ioctl hidle
  have hsoon : OffSoon c ((load cpus dev).run es₀).tasks.length s₁ := by
    rw [show s₁ = _ from run_append es₀ (.ioctl c :: es₁) _]
    show OffSoon c _ ((((load cpus dev).run es₀).act (.ioctl c)).run es₁)
    exact OffSoon.run (.inl ⟨hent.running, hent.task⟩) (hs.act hfree) hrest hc
  have hoff : (s₁.cpus c).debugctl = 0 := by
    rcases hsoon with ⟨-, k, hk, -, hpc⟩ | h
    · obtain ⟨k', hk', hpos⟩ := hbegan
      obtain rfl : k' = k := Option.some.inj (hk'.symm.trans hk)
      omega
    · exact h
  have hfrozen := ((sound_load cpus dev).run hserial₁).off_run hserial₂ hc hoff
  rw [show s₂ = s₁.run es₂ from run_append (es₀ ++ .ioctl c :: es₁) es₂ _, snapshot_rdmsr,
    snapshot_rdmsr]
  exact hfrozen.imp_right (congrArg recordsIn)

/-- Behind the loading there is a branch before the ioctl, and one behind it, on the fifth CPU. -/
theorem ioctl_freezes_fifth :
    let s := load (fun _ => emptyCpu) emptyModule
    let es₀ := .schedule 0 0 :: List.replicate 13 (.step 0 true) ++
      [.branch 4 ⟨0x4005d0, 0x4005e0, 7, 0⟩]
    let s₁ := s.run (es₀ ++ [.ioctl 4, .step 4 true])
    let s₂ := s.run (es₀ ++ [.ioctl 4, .step 4 true] ++ [.branch 4 ⟨0x4005e4, 0x4005d0, 7, 1⟩])
    s₂.log 4 = s₁.log 4 ∧ snapshot (s₂.cpus 4).rdmsr = snapshot (s₁.cpus 4).rdmsr :=
  ioctl_freezes (fun _ => emptyCpu) emptyModule
    (.schedule 0 0 :: List.replicate 13 (.step 0 true) ++ [.branch 4 ⟨0x4005d0, 0x4005e0, 7, 0⟩])
    [.step 4 true] [.branch 4 ⟨0x4005e4, 0x4005d0, 7, 1⟩] (by decide) (by decide +kernel) rfl
    ⟨{ prog := .ioctl, pc := 1, state := .running }, by decide +kernel, by decide⟩

end Kernel

end BS.Lbr
