import BranchShadowing.Spec.LbrKernel

/-!
# The kernel around the LBR device

What can happen in one step (`Kernel.Change`), and how the tasks stand in every run
(`Kernel.Sched`): a task runs on one CPU at most, and where it is bound to, if it is. A task
changes only by its own operations (`Kernel.Change.task`), and a CPU by those of the task that
is on it (`Kernel.Change.own_or_elsewhere`).
-/

namespace BS.Lbr

/-! ## Tasks -/

namespace Task

variable {k : Task} {c : Nat}

theorem wake_of_ne (h : k.state ≠ .new) : k.wake = k := if_neg h

theorem wake_of_eq (h : k.state = .new) : k.wake = { k with state := .ready } := if_pos h

theorem bind_of_ne (h : k.state ≠ .new) : k.bind c = k := if_neg h

theorem bind_of_eq (h : k.state = .new) : k.bind c = { k with bound := some c } := if_pos h

@[simp] theorem wake_prog (k : Task) : k.wake.prog = k.prog := by unfold wake; split <;> rfl
@[simp] theorem wake_pc (k : Task) : k.wake.pc = k.pc := by unfold wake; split <;> rfl
@[simp] theorem wake_bound (k : Task) : k.wake.bound = k.bound := by unfold wake; split <;> rfl
@[simp] theorem bind_prog (k : Task) (c : Nat) : (k.bind c).prog = k.prog := by
  unfold bind; split <;> rfl
@[simp] theorem bind_pc (k : Task) (c : Nat) : (k.bind c).pc = k.pc := by unfold bind; split <;> rfl
@[simp] theorem bind_state (k : Task) (c : Nat) : (k.bind c).state = k.state := by
  unfold bind; split <;> rfl

theorem wake_state (k : Task) : k.wake.state ≠ .new := by
  by_cases h : k.state = .new
  · rw [wake_of_eq h]
    show TaskState.ready ≠ .new
    decide
  · rwa [wake_of_ne h]

/-- The same task, which may be ready now and running then, and is bound for good when it has
been woken. -/
structure Same (k k' : Task) : Prop where
  prog : k'.prog = k.prog
  pc : k'.pc = k.pc
  i : k'.i = k.i
  o : k'.o = k.o
  awake : k.state ≠ .new → k'.state ≠ .new ∧ k'.bound = k.bound

variable {k' : Task}

theorem Same.rfl : Same k k := ⟨.refl _, .refl _, .refl _, .refl _, fun h => ⟨h, .refl _⟩⟩

theorem Same.awakened (k : Task) {state : TaskState} (h : state ≠ .new) :
    Same k { k with state := state } :=
  ⟨.refl _, .refl _, .refl _, .refl _, fun _ => ⟨h, .refl _⟩⟩

theorem Same.wake (k : Task) : Same k k.wake := by
  by_cases h : k.state = .new
  · rw [wake_of_eq h]
    exact .awakened k (by decide)
  · rw [wake_of_ne h]
    exact .rfl

theorem Same.bind (k : Task) (c : Nat) : Same k (k.bind c) := by
  by_cases h : k.state = .new
  · rw [bind_of_eq h]
    exact ⟨.refl _, .refl _, .refl _, .refl _, fun h' => absurd h h'⟩
  · rw [bind_of_ne h]
    exact .rfl

theorem Same.left (h : Same k k') : k'.left = k.left := by
  rw [Task.left, Task.left, h.prog, h.pc]

/-- The same task, which neither is bound nor woken. -/
structure Kept (k k' : Task) : Prop extends Same k k' where
  bound : k'.bound = k.bound
  new : k'.state = .new ↔ k.state = .new

theorem Kept.rfl : Kept k k := ⟨.rfl, .refl _, .rfl⟩

theorem Kept.awakened {state : TaskState} (h : k.state ≠ .new) (h' : state ≠ .new) :
    Kept k { k with state := state } :=
  ⟨.awakened k h', .refl _, iff_of_false h' h⟩

/-- A task that is new stays as it is. -/
theorem Kept.eq_of_new (h : Kept k k') (hnew : k.state = .new) : k' = k := by
  obtain ⟨⟨hprog, hpc, hi, ho, -⟩, hbound, hnew'⟩ := h
  have hstate := (hnew'.mpr hnew).trans hnew.symm
  cases k
  cases k'
  simp only [Task.mk.injEq]
  exact ⟨hprog, hpc, hstate, hbound, hi, ho⟩

theorem runsOn_congr (h : k'.bound = k.bound) (c : Nat) : k'.runsOn c = k.runsOn c := by
  rw [runsOn, runsOn, h]

end Task

open BS.Lbr.Task (Same)

/-! ## Operations -/

namespace Op

variable {op : Op} {k : Task} {created : Bool} {u : Nat} {ts : Threads} {rdmsr : Msrs} {st : Module}

@[simp] theorem onTask_pc (op : Op) (rdmsr : Msrs) (st : Module) (ts : Threads) (k : Task) :
    (op.onTask rdmsr st ts k).pc = op.next st ts k := by cases op <;> rfl

@[simp] theorem onTask_prog (op : Op) (rdmsr : Msrs) (st : Module) (ts : Threads) (k : Task) :
    (op.onTask rdmsr st ts k).prog = k.prog := by cases op <;> rfl

@[simp] theorem onTask_state (op : Op) (rdmsr : Msrs) (st : Module) (ts : Threads) (k : Task) :
    (op.onTask rdmsr st ts k).state = k.state := by cases op <;> rfl

@[simp] theorem onTask_bound (op : Op) (rdmsr : Msrs) (st : Module) (ts : Threads) (k : Task) :
    (op.onTask rdmsr st ts k).bound = k.bound := by cases op <;> rfl

theorem lt_next (st : Module) (ts : Threads) (hop : k.prog.ops[k.pc]? = some op) :
    k.pc < op.next st ts k := by
  have hlt := (List.getElem?_eq_some_iff.mp hop).1
  cases op with
  | bind j | wakeUp j =>
    rw [next]
    split <;> omega
  | _ =>
    simp only [next]
    omega

theorem onModule_of_ne (hn : op ≠ .readNext) (hi : op ≠ .resetIndex) :
    op.onModule rdmsr k st = st := by
  cases op with
  | readNext => exact absurd rfl hn
  | resetIndex => exact absurd rfl hi
  | _ => rfl

theorem onThread_same (op : Op) (ts : Threads) (u : Nat) (k : Task) :
    Same k (op.onThread ts u k) := by
  cases op with
  | bind j =>
    rw [onThread]
    split
    · exact .bind k j
    · exact .rfl
  | wakeUp j =>
    rw [onThread]
    split
    · exact .wake k
    · exact .rfl
  | _ => exact .rfl

theorem onThread_of_awake (op : Op) (ts : Threads) (u : Nat) (h : k.state ≠ .new) :
    op.onThread ts u k = k := by
  cases op with
  | bind j =>
    rw [onThread, Task.bind_of_ne h]
    exact ite_self k
  | wakeUp j =>
    rw [onThread, Task.wake_of_ne h]
    exact ite_self k
  | _ => rfl

theorem mem_newThreads (h : k ∈ op.newThreads created) :
    created = true ∧ ∃ j fn, op = .create j fn ∧ k = { prog := .thread fn, state := .new } := by
  cases op with
  | create j fn =>
    rw [newThreads] at h
    split at h
    · exact ⟨by assumption, j, fn, rfl, List.mem_singleton.mp h⟩
    · cases h
  | _ => cases h

end Op

namespace Kernel

variable {s s' : Kernel} {c c' t u : Nat} {k k' : Task} {op : Op} {created : Bool}

/-! ## Steps -/

theorem current_iff :
    s.current c = some (t, k, op) ↔
      s.running c = some t ∧ s.tasks[t]? = some k ∧ k.prog.ops[k.pc]? = some op := by
  simp only [current, Option.bind_eq_bind, Option.bind_eq_some_iff, Option.pure_def,
    Option.some.injEq, Prod.mk.injEq]
  constructor
  · rintro ⟨_, hr, _, ht, _, hop, rfl, rfl, rfl⟩
    exact ⟨hr, ht, hop⟩
  · rintro ⟨hr, ht, hop⟩
    exact ⟨t, hr, k, ht, op, hop, rfl, rfl, rfl⟩

/-- What can happen. -/
inductive Change (s : Kernel) : Event → Kernel → Prop
  | none (e : Event) : Change s e s
  | branch {c : Nat} {b : Branch} (user : s.running c = none ∨ b.endsInKernel = true) :
      Change s (.branch c b) (s.retire c b)
  | schedule {c t : Nat} {k : Task} (idle : s.running c = none) (task : s.tasks[t]? = some k)
      (ready : k.state = .ready) (bound : k.runsOn c = true) :
      Change s (.schedule c t) (s.resume c t k)
  | step {c t : Nat} {k : Task} {op : Op} (created : Bool)
      (current : s.current c = some (t, k, op)) (free : s.waits op = false) :
      Change s (.step c created) (s.exec c t k op created)
  | sleep {c t : Nat} {k : Task} {op : Op} (current : s.current c = some (t, k, op))
      (sleeps : op.sleeps = true) : Change s (.sleep c) (s.pause c t k)
  | ioctl {c : Nat} (idle : s.running c = none) : Change s (.ioctl c) (s.enter c .ioctl)
  | unload {c : Nat} (idle : s.running c = none) : Change s (.unload c) (s.enter c .stop)
  | read (length : Nat) :
      Change s (.read length) { s with dev := (deviceRead length s.dev).2 }
  | printk (line : Option LbrReader.Line) :
      Change s (.printk line) { s with dmesg := s.dmesg ++ [line] }

theorem change (s : Kernel) (e : Event) : Change s e (s.act e) := by
  cases e with
  | branch c b =>
    simp only [act]
    split
    · exact .branch (by assumption)
    · exact .none _
  | schedule c t =>
    simp only [act]
    split
    · split
      · rename_i k hidle htask h
        exact .schedule hidle htask h.1 h.2
      · exact .none _
    · exact .none _
  | step c created =>
    simp only [act]
    split
    · split
      · exact .none _
      · rename_i hc hw
        exact .step created hc (Bool.eq_false_iff.mpr hw)
    · exact .none _
  | sleep c =>
    simp only [act]
    split
    · split
      · rename_i hc hs
        exact .sleep hc hs
      · exact .none _
    · exact .none _
  | ioctl c =>
    simp only [act]
    split
    · exact .ioctl (by assumption)
    · exact .none _
  | read length => exact .read length
  | printk line => exact .printk line
  | unload c =>
    simp only [act]
    split
    · exact .unload (by assumption)
    · exact .none _

theorem run_cons (e : Event) (es : List Event) (s : Kernel) : s.run (e :: es) = (s.act e).run es :=
  rfl

theorem run_append (es es' : List Event) (s : Kernel) :
    s.run (es ++ es') = (s.run es).run es' := List.foldl_append

/-- What all such steps keep, a run of them keeps. -/
theorem Along.keeps {p : Kernel → Event → Prop} {P : Kernel → Prop} {es : List Event}
    (hp : Along p es s) (hstep : ∀ s, ∀ e ∈ es, p s e → P s → P (s.act e)) (h : P s) :
    P (s.run es) := by
  induction es generalizing s with
  | nil => exact h
  | cons e es ih =>
    exact ih hp.2 (fun s' e' he' => hstep s' e' (List.mem_cons_of_mem e he'))
      (hstep s e (List.mem_cons_self ..) hp.1 h)

theorem along_append {p : Kernel → Event → Prop} {es es' : List Event} :
    Along p (es ++ es') s ↔ Along p es s ∧ Along p es' (s.run es) := by
  induction es generalizing s with
  | nil => exact (and_iff_right trivial).symm
  | cons e es ih => exact (and_congr_right fun _ => ih).trans and_assoc.symm

theorem along_trivial (es : List Event) (s : Kernel) : Along (fun _ _ => True) es s := by
  induction es generalizing s with
  | nil => trivial
  | cons e es ih => exact ⟨trivial, ih _⟩

/-- What every step keeps, a run keeps. -/
theorem run_induction {P : Kernel → Prop} {es : List Event}
    (hstep : ∀ s, ∀ e ∈ es, P s → P (s.act e)) (h : P s) : P (s.run es) :=
  (along_trivial es s).keeps (fun s e he _ => hstep s e he) h

/-! ## The tasks of a state -/

theorem exec_tasks (s : Kernel) (c : Nat) (k : Task) (op : Op) (created : Bool)
    (h : (s.tasks.set t (op.onTask (s.cpus c).rdmsr s.dev s.ts k))[u]? = some k') :
    (s.exec c t k op created).tasks[u]? = some (op.onThread s.ts u k') := by
  have hlt := (List.getElem?_eq_some_iff.mp h).1
  show (List.mapIdx _ _ ++ _)[u]? = _
  rw [List.getElem?_append_left (by rwa [List.length_mapIdx]), List.getElem?_mapIdx, h,
    Option.map_some]

theorem exec_task (created : Bool) (h : s.current c = some (t, k, op)) (hrun : k.state = .running) :
    (s.exec c t k op created).tasks[t]? = some (op.onTask (s.cpus c).rdmsr s.dev s.ts k) := by
  obtain ⟨-, ht, -⟩ := current_iff.mp h
  rw [exec_tasks s c k op created
    (List.getElem?_set_self (List.getElem?_eq_some_iff.mp ht).1), Op.onThread_of_awake]
  rw [Op.onTask_state, hrun]
  decide

/-- The task of a new thread. -/
theorem exec_create_task (c t : Nat) (k : Task) (j : Nat) (fn : ThreadFn) :
    (s.exec c t k (.create j fn) true).tasks[s.tasks.length]? =
      some { prog := .thread fn, state := .new } := by
  have hlen (f : Nat → Task → Task) (k' : Task) :
      (List.mapIdx f (s.tasks.set t k')).length = s.tasks.length := by
    rw [List.length_mapIdx, List.length_set]
  show (List.mapIdx _ _ ++ [_])[s.tasks.length]? = _
  rw [List.getElem?_append_right (hlen _ _).le, hlen, Nat.sub_self]
  rfl

theorem exec_other (c : Nat) (k : Task) (op : Op) (created : Bool) (hu : u ≠ t)
    (h : s.tasks[u]? = some k') :
    (s.exec c t k op created).tasks[u]? = some (op.onThread s.ts u k') :=
  exec_tasks s c k op created (by rwa [List.getElem?_set_ne hu.symm])

/-- The tasks behind an operation. -/
theorem exec_cases (h : s.current c = some (t, k, op)) (hrun : k.state = .running)
    (hu : (s.exec c t k op created).tasks[u]? = some k') :
    (u = t ∧ k' = op.onTask (s.cpus c).rdmsr s.dev s.ts k) ∨
      (u ≠ t ∧ ∃ k₀, s.tasks[u]? = some k₀ ∧ k' = op.onThread s.ts u k₀) ∨
      u = s.tasks.length ∧ created = true ∧
        ∃ j fn, op = .create j fn ∧ k' = { prog := .thread fn, state := .new } := by
  rcases eq_or_ne u t with rfl | hne
  · rw [exec_task created h hrun] at hu
    exact .inl ⟨rfl, (Option.some.inj hu).symm⟩
  rcases Nat.lt_or_ge u s.tasks.length with hlt | hge
  · rw [exec_other c k op created hne (List.getElem?_eq_getElem hlt)] at hu
    exact .inr (.inl ⟨hne, _, List.getElem?_eq_getElem hlt, (Option.some.inj hu).symm⟩)
  · have hlen : (List.mapIdx (fun u => op.onThread s.ts u)
        (s.tasks.set t (op.onTask (s.cpus c).rdmsr s.dev s.ts k))).length = s.tasks.length := by
      rw [List.length_mapIdx, List.length_set]
    change (List.mapIdx _ _ ++ op.newThreads created)[u]? = some k' at hu
    rw [List.getElem?_append_right (by omega), hlen] at hu
    obtain ⟨hc, j, fn, rfl, hk'⟩ := Op.mem_newThreads (List.mem_of_getElem? hu)
    have hlt := (List.getElem?_eq_some_iff.mp hu).1
    simp only [Op.newThreads, hc, if_true, List.length_singleton] at hlt
    exact .inr (.inr ⟨by omega, hc, j, fn, rfl, hk'⟩)

/-- How the tasks stand. -/
structure Sched (s : Kernel) : Prop where
  task : ∀ {c t : Nat}, s.running c = some t →
    ∃ k, s.tasks[t]? = some k ∧ k.state = .running ∧ k.runsOn c = true ∧ 0 < k.left
  only : ∀ {c c' t : Nat}, s.running c = some t → s.running c' = some t → c = c'
  pending : ∀ {t : Nat} {k : Task}, s.tasks[t]? = some k → k.state ≠ .running → 0 < k.left

theorem Sched.congr (h : Sched s) (hr : s'.running = s.running) (ht : s'.tasks = s.tasks) :
    Sched s' := by
  refine ⟨fun hc => ?_, fun hc hc' => ?_, fun hk => ?_⟩
  · rw [hr] at hc
    rw [ht]
    exact h.task hc
  · rw [hr] at hc hc'
    exact h.only hc hc'
  · rw [ht] at hk
    exact h.pending hk

theorem Sched.current (h : Sched s) (hc : s.current c = some (t, k, op)) :
    k.state = .running ∧ k.runsOn c = true := by
  obtain ⟨hr, ht, -⟩ := current_iff.mp hc
  obtain ⟨k', hk', hrun, hon, -⟩ := h.task hr
  obtain rfl : k' = k := Option.some.inj (hk'.symm.trans ht)
  exact ⟨hrun, hon⟩

theorem Sched.resume (h : Sched s) (idle : s.running c = none) (task : s.tasks[t]? = some k)
    (ready : k.state = .ready) (bound : k.runsOn c = true) : Sched (s.resume c t k) := by
  have hlt := (List.getElem?_eq_some_iff.mp task).1
  have hfree (c' : Nat) : s.running c' ≠ some t := fun hc' => by
    obtain ⟨k', hk', hrun, -⟩ := h.task hc'
    obtain rfl : k' = k := Option.some.inj (hk'.symm.trans task)
    exact absurd (hrun.symm.trans ready) (by decide)
  have hrun {c' t' : Nat} (hc' : Function.update s.running c (some t) c' = some t') :
      c' = c ∧ t' = t ∨ c' ≠ c ∧ t' ≠ t ∧ s.running c' = some t' := by
    rcases eq_or_ne c' c with rfl | hne
    · rw [Function.update_self] at hc'
      exact .inl ⟨rfl, (Option.some.inj hc').symm⟩
    · rw [Function.update_of_ne hne] at hc'
      exact .inr ⟨hne, fun he => hfree c' (he ▸ hc'), hc'⟩
  refine ⟨fun {c' t'} hc' => ?_, fun {c₁ c₂ t'} h₁ h₂ => ?_, fun {t' k'} hk' hne => ?_⟩
  · rcases hrun hc' with ⟨rfl, rfl⟩ | ⟨-, hne, hc'⟩
    · exact ⟨_, List.getElem?_set_self hlt, rfl, bound,
        show 0 < k.left from h.pending task (by rw [ready]; decide)⟩
    · obtain ⟨k', hk', hs⟩ := h.task hc'
      exact ⟨k', by rwa [Kernel.resume, List.getElem?_set_ne hne.symm], hs⟩
  · rcases hrun h₁ with ⟨rfl, rfl⟩ | ⟨-, hne₁, h₁⟩ <;> rcases hrun h₂ with ⟨rfl, ht⟩ | ⟨-, hne₂, h₂⟩
    · rfl
    · exact absurd rfl hne₂
    · exact absurd ht hne₁
    · exact h.only h₁ h₂
  · rcases eq_or_ne t' t with rfl | hne'
    · rw [Kernel.resume, List.getElem?_set_self hlt] at hk'
      obtain rfl := Option.some.inj hk'
      exact absurd rfl hne
    · rw [Kernel.resume, List.getElem?_set_ne hne'.symm] at hk'
      exact h.pending hk' hne

/-- A CPU that goes idle leaves the others as they are. -/
theorem running_of_idle {c' t' : Nat} (h : Function.update s.running c none c' = some t') :
    c' ≠ c ∧ s.running c' = some t' := by
  rcases eq_or_ne c' c with rfl | hne
  · rw [Function.update_self] at h
    exact absurd h (by simp)
  · rw [Function.update_of_ne hne] at h
    exact ⟨hne, h⟩

theorem Sched.exec (h : Sched s) (hc : s.current c = some (t, k, op)) :
    Sched (s.exec c t k op created) := by
  obtain ⟨hrun, hon⟩ := h.current hc
  obtain ⟨hr, -, -⟩ := current_iff.mp hc
  have hkeep {c' t' : Nat} (hc' : (s.exec c t k op created).running c' = some t') :
      s.running c' = some t' ∧
        (t' = t → 0 < (op.onTask (s.cpus c).rdmsr s.dev s.ts k).left) := by
    simp only [Kernel.exec] at hc'
    split at hc'
    · obtain ⟨hne, hc'⟩ := running_of_idle hc'
      exact ⟨hc', fun he => absurd (h.only (he ▸ hc') hr) hne⟩
    · exact ⟨hc', fun _ => by omega⟩
  refine ⟨fun {c' t'} hc' => ?_, fun h₁ h₂ => h.only (hkeep h₁).1 (hkeep h₂).1,
    fun {t' k'} hk' hne => ?_⟩
  · obtain ⟨hold, hleft⟩ := hkeep hc'
    rcases eq_or_ne t' t with rfl | hne
    · obtain rfl := h.only hold hr
      exact ⟨_, exec_task created hc hrun, by rw [Op.onTask_state, hrun],
        (Task.runsOn_congr (Op.onTask_bound ..) _).trans hon, hleft rfl⟩
    · obtain ⟨k', hk', hs⟩ := h.task hold
      have hk₁ := exec_other c k op created hne hk'
      rw [Op.onThread_of_awake _ _ _ (by rw [hs.1]; decide)] at hk₁
      exact ⟨_, hk₁, hs⟩
  · rcases exec_cases hc hrun hk' with ⟨-, rfl⟩ | ⟨-, k₀, hk₀, rfl⟩ | ⟨-, -, j, fn, -, rfl⟩
    · exact absurd (by rw [Op.onTask_state, hrun]) hne
    · have hne₀ : k₀.state ≠ .running := fun hrun₀ => by
        rw [Op.onThread_of_awake _ _ _ (by rw [hrun₀]; decide)] at hne
        exact hne hrun₀
      rw [(op.onThread_same s.ts t' k₀).left]
      exact h.pending hk₀ hne₀
    · show 0 < fn.ops.length - 0
      cases fn <;> decide

theorem Sched.pause (h : Sched s) (hc : s.current c = some (t, k, op)) :
    Sched (s.pause c t k) := by
  obtain ⟨hr, ht, hop⟩ := current_iff.mp hc
  have hlt := (List.getElem?_eq_some_iff.mp ht).1
  refine ⟨fun {c' t'} hc' => ?_, fun h₁ h₂ => h.only (running_of_idle h₁).2 (running_of_idle h₂).2,
    fun {t' k'} hk' hne => ?_⟩
  · obtain ⟨hne, hc'⟩ := running_of_idle hc'
    have hne' : t' ≠ t := fun he => hne (h.only (he ▸ hc') hr)
    obtain ⟨k', hk', hs⟩ := h.task hc'
    exact ⟨k', by rwa [Kernel.pause, List.getElem?_set_ne hne'.symm], hs⟩
  · rcases eq_or_ne t' t with rfl | hne'
    · rw [Kernel.pause, List.getElem?_set_self hlt] at hk'
      obtain rfl := Option.some.inj hk'
      have := (List.getElem?_eq_some_iff.mp hop).1
      show 0 < k.prog.ops.length - k.pc
      omega
    · rw [Kernel.pause, List.getElem?_set_ne hne'.symm] at hk'
      exact h.pending hk' hne

theorem Sched.enter (h : Sched s) {prog : Prog} (hops : 0 < prog.ops.length) :
    Sched (s.enter c prog) := by
  have hlt {c' t' : Nat} (hc' : s.running c' = some t') : t' < s.tasks.length := by
    obtain ⟨k, hk, -⟩ := h.task hc'
    exact (List.getElem?_eq_some_iff.mp hk).1
  have hrun {c' t' : Nat} (hc' : (s.enter c prog).running c' = some t') :
      c' = c ∧ t' = s.tasks.length ∨ s.running c' = some t' := by
    change Function.update s.running c (some s.tasks.length) c' = some t' at hc'
    rcases eq_or_ne c' c with rfl | hne
    · rw [Function.update_self] at hc'
      exact .inl ⟨rfl, (Option.some.inj hc').symm⟩
    · rw [Function.update_of_ne hne] at hc'
      exact .inr hc'
  refine ⟨fun {c' t'} hc' => ?_, fun {c₁ c₂ t'} h₁ h₂ => ?_, fun {t' k'} hk' hne => ?_⟩
  · rcases hrun hc' with ⟨rfl, rfl⟩ | hc'
    · exact ⟨{ prog := prog, state := .running },
        by rw [Kernel.enter, List.getElem?_concat_length], rfl, rfl, hops⟩
    · obtain ⟨k, hk, hs⟩ := h.task hc'
      exact ⟨k, by rwa [Kernel.enter, List.getElem?_append_left (hlt hc')], hs⟩
  · rcases hrun h₁ with ⟨rfl, rfl⟩ | ho₁ <;> rcases hrun h₂ with ⟨rfl, ht⟩ | ho₂
    · rfl
    · exact absurd (hlt ho₂) (Nat.lt_irrefl _)
    · exact absurd (hlt (ht ▸ ho₁)) (Nat.lt_irrefl _)
    · exact h.only ho₁ ho₂
  · rcases Nat.lt_or_ge t' s.tasks.length with hlt' | hge
    · rw [Kernel.enter, List.getElem?_append_left hlt'] at hk'
      exact h.pending hk' hne
    · rw [Kernel.enter, List.getElem?_append_right hge] at hk'
      obtain rfl := List.mem_singleton.mp (List.mem_of_getElem? hk')
      exact absurd rfl hne

theorem Sched.change {e : Event} (h : Sched s) (hs : Change s e s') : Sched s' := by
  cases hs with
  | none => exact h
  | branch user => exact h.congr rfl rfl
  | schedule idle task ready bound => exact h.resume idle task ready bound
  | step created current free => exact h.exec current
  | sleep current sleeps => exact h.pause current
  | ioctl idle => exact h.enter (by decide)
  | unload idle => exact h.enter (by decide)
  | read length => exact h.congr rfl rfl
  | printk line => exact h.congr rfl rfl

theorem sched_load (cpus : Nat → Cpu) (dev : Module) : Sched (load cpus dev) := by
  refine ⟨by simp [load], by simp [load], fun {t k} hk _ => ?_⟩
  obtain rfl := List.mem_singleton.mp (List.mem_of_getElem? hk)
  decide

theorem sched_run (cpus : Nat → Cpu) (dev : Module) (es : List Event) :
    Sched ((load cpus dev).run es) :=
  run_induction (fun s e _ h => h.change (change s e)) (sched_load cpus dev)

/-! ## What a step leaves as it is -/

/-- The step is the next operation of the task `t`. -/
structure Does (s : Kernel) (e : Event) (s' : Kernel) (c t : Nat) (k : Task) (op : Op)
    (created : Bool) : Prop where
  event : e = .step c created
  current : s.current c = some (t, k, op)
  free : s.waits op = false
  state : s' = s.exec c t k op created

variable {e : Event}

/-- A task changes only by its own operations. -/
theorem Change.task (h : Change s e s') (hk : s.tasks[t]? = some k) :
    (∃ c created op, Does s e s' c t k op created) ∨ ∃ k', s'.tasks[t]? = some k' ∧ Same k k' := by
  have hlt := (List.getElem?_eq_some_iff.mp hk).1
  cases h with
  | ioctl => exact .inr ⟨k, by rwa [enter, List.getElem?_append_left hlt], .rfl⟩
  | unload => exact .inr ⟨k, by rwa [enter, List.getElem?_append_left hlt], .rfl⟩
  | @schedule c u k₀ idle task ready bound =>
    rcases eq_or_ne u t with rfl | hne
    · obtain rfl : k₀ = k := Option.some.inj (task.symm.trans hk)
      exact .inr ⟨_, List.getElem?_set_self hlt, .awakened _ (by decide)⟩
    · exact .inr ⟨k, by rwa [resume, List.getElem?_set_ne hne], .rfl⟩
  | @sleep c u k₀ op current sleeps =>
    rcases eq_or_ne u t with rfl | hne
    · obtain rfl : k₀ = k := Option.some.inj ((current_iff.mp current).2.1.symm.trans hk)
      exact .inr ⟨_, List.getElem?_set_self hlt, .awakened _ (by decide)⟩
    · exact .inr ⟨k, by rwa [pause, List.getElem?_set_ne hne], .rfl⟩
  | @step c u k₀ op created current free =>
    rcases eq_or_ne t u with rfl | hne
    · obtain rfl : k₀ = k := Option.some.inj ((current_iff.mp current).2.1.symm.trans hk)
      exact .inl ⟨c, created, op, .refl _, current, free, .refl _⟩
    · exact .inr ⟨_, exec_other c k₀ op created hne hk, op.onThread_same s.ts t k⟩
  | _ => exact .inr ⟨k, hk, .rfl⟩

/-- A CPU changes only by its branches and by the task that runs on it. -/
theorem Change.cpu (h : Change s e s') (c : Nat) :
    s'.cpus c = s.cpus c ∨ (∃ b, e = .branch c b ∧ s' = s.retire c b) ∨
      ∃ created t k op, Does s e s' c t k op created := by
  cases h with
  | @branch c' b =>
    rcases eq_or_ne c c' with rfl | hne
    · exact .inr (.inl ⟨b, .refl _, .refl _⟩)
    · exact .inl (Function.update_of_ne hne ..)
  | @step c' t k op created current free =>
    rcases eq_or_ne c c' with rfl | hne
    · exact .inr (.inr ⟨created, t, k, op, .refl _, current, free, .refl _⟩)
    · exact .inl (Function.update_of_ne hne ..)
  | _ => exact .inl (.refl _)

/-- A task is not taken off a CPU. -/
theorem Change.running (h : Change s e s') (hr : s.running c = some t) :
    s'.running c = some t ∨ (∃ created k op, Does s e s' c t k op created) ∨
      ∃ k op, s.current c = some (t, k, op) ∧ op.sleeps = true := by
  have hbusy {c' : Nat} (idle : s.running c' = Option.none) : c ≠ c' := by
    rintro rfl
    simp [hr] at idle
  cases h with
  | schedule idle => exact .inl ((Function.update_of_ne (hbusy idle) ..).trans hr)
  | ioctl idle => exact .inl ((Function.update_of_ne (hbusy idle) ..).trans hr)
  | unload idle => exact .inl ((Function.update_of_ne (hbusy idle) ..).trans hr)
  | @sleep c' u k op current sleeps =>
    rcases eq_or_ne c c' with rfl | hne
    · obtain rfl : u = t := Option.some.inj ((current_iff.mp current).1.symm.trans hr)
      exact .inr (.inr ⟨k, op, current, sleeps⟩)
    · exact .inl ((Function.update_of_ne hne ..).trans hr)
  | @step c' u k op created current free =>
    rcases eq_or_ne c c' with rfl | hne
    · obtain rfl : u = t := Option.some.inj ((current_iff.mp current).1.symm.trans hr)
      exact .inr (.inl ⟨created, k, op, .refl _, current, free, .refl _⟩)
    · refine .inl ?_
      simp only [exec]
      split
      · exact (Function.update_of_ne hne ..).trans hr
      · exact hr
  | _ => exact .inl hr

theorem Change.dev (h : Change s e s') : s'.dev = s.dev ∨ s.touches e := by
  cases h with
  | read length => exact .inr trivial
  | @step c t k op created current =>
    by_cases hop : op = .readNext ∨ op = .resetIndex
    · exact .inr ⟨t, k, op, current, hop⟩
    · exact .inl (Op.onModule_of_ne (fun h => hop (.inl h)) (fun h => hop (.inr h)))
  | _ => exact .inl (.refl _)

/-! ## Steps elsewhere -/

@[simp] theorem retire_debugctl (cpu : Cpu) (b : Branch) :
    (cpu.retire b).debugctl = cpu.debugctl := by
  unfold Cpu.retire
  split <;> rfl

@[simp] theorem retire_select (cpu : Cpu) (b : Branch) : (cpu.retire b).select = cpu.select := by
  unfold Cpu.retire
  split <;> rfl

@[simp] theorem exec_cpu : (s.exec c t k op created).cpus c = op.onCpu (s.cpus c) :=
  Function.update_self ..

theorem exec_running (hr : s.running c = some t)
    (hleft : (op.onTask (s.cpus c).rdmsr s.dev s.ts k).left ≠ 0) :
    (s.exec c t k op created).running c = some t := by
  simp only [exec, if_neg hleft]
  exact hr

/-- A step that is none of the task on this CPU, unless that goes to sleep. -/
structure Elsewhere (c : Nat) (s s' : Kernel) : Prop where
  debugctl : (s'.cpus c).debugctl = (s.cpus c).debugctl
  select : (s'.cpus c).select = (s.cpus c).select
  task : ∀ {t k}, s.running c = some t → s.tasks[t]? = some k →
    (∀ op, k.prog.ops[k.pc]? = some op → op.sleeps = false) →
    s'.running c = some t ∧ ∃ k', s'.tasks[t]? = some k' ∧ Same k k'

theorem Change.own_or_elsewhere (hs : Sched s) (h : Change s e s') (c : Nat) :
    (∃ created t k op, Does s e s' c t k op created) ∨ Elsewhere c s s' := by
  by_cases hown : ∃ created t k op, Does s e s' c t k op created
  · exact .inl hown
  have hcpu : s'.cpus c = s.cpus c ∨ ∃ b, s'.cpus c = (s.cpus c).retire b := by
    rcases h.cpu c with hc | ⟨b, -, hb⟩ | hc
    · exact .inl hc
    · exact .inr ⟨b, by rw [hb]; exact Function.update_self ..⟩
    · exact absurd hc hown
  refine .inr ⟨?_, ?_, fun {t k} hr hk hwake => ⟨?_, ?_⟩⟩
  · rcases hcpu with hc | ⟨b, hc⟩
    · rw [hc]
    · rw [hc, retire_debugctl]
  · rcases hcpu with hc | ⟨b, hc⟩
    · rw [hc]
    · rw [hc, retire_select]
  · rcases h.running hr with h' | ⟨created, k', op, hd⟩ | ⟨k', op, hc, hsleeps⟩
    · exact h'
    · exact absurd ⟨created, t, k', op, hd⟩ hown
    · obtain ⟨-, hk', hop⟩ := current_iff.mp hc
      obtain rfl : k' = k := Option.some.inj (hk'.symm.trans hk)
      rw [hwake op hop] at hsleeps
      cases hsleeps
  · rcases h.task hk with ⟨c', created, op, hd⟩ | h'
    · obtain rfl := hs.only (current_iff.mp hd.current).1 hr
      exact absurd ⟨created, t, k, op, hd⟩ hown
    · exact h'

/-- An operation on one CPU is a step elsewhere for the others. -/
theorem Does.elsewhere {e : Event} (h : Does s e s' c' t k op created) (hs : Sched s)
    (hne : c ≠ c') : Elsewhere c s s' := by
  have hch : Change s e s' := by
    rw [h.event, h.state]
    exact .step created h.current h.free
  rcases hch.own_or_elsewhere hs c with ⟨_, _, _, _, hd⟩ | h'
  · exact absurd (Event.step.inj (hd.event.symm.trans h.event)).1 hne
  · exact h'

/-! ## Where tasks come from -/

/-- A step that is no operation of a task. -/
structure Passive (e : Event) (s s' : Kernel) : Prop where
  ts : s'.ts = s.ts
  lock : s'.lock = s.lock
  cpu : ∀ c, Elsewhere c s s'
  kept : ∀ {t : Nat} {k : Task}, s.tasks[t]? = some k →
    ∃ k', s'.tasks[t]? = some k' ∧ k.Kept k'
  origin : ∀ {t : Nat} {k' : Task}, s'.tasks[t]? = some k' →
    (∃ k, s.tasks[t]? = some k ∧ k.Kept k') ∨
      ∃ c prog, (e = .ioctl c ∧ prog = .ioctl ∨ e = .unload c ∧ prog = .stop) ∧
        t = s.tasks.length ∧ k' = { prog := prog, state := .running }

/-- Putting a task that was woken in another such state. -/
theorem kept_set {k₀ : Task} (state : TaskState) (hu : s.tasks[u]? = some k₀)
    (hawake : k₀.state ≠ .new) (hstate : state ≠ .new) :
    (∀ {t : Nat} {k : Task}, s.tasks[t]? = some k →
      ∃ k', (s.tasks.set u { k₀ with state := state })[t]? = some k' ∧ k.Kept k') ∧
      ∀ {t : Nat} {k' : Task}, (s.tasks.set u { k₀ with state := state })[t]? = some k' →
        ∃ k, s.tasks[t]? = some k ∧ k.Kept k' := by
  have hlt := (List.getElem?_eq_some_iff.mp hu).1
  refine ⟨fun {t k} hk => ?_, fun {t k'} hk => ?_⟩ <;> rcases eq_or_ne u t with rfl | hne
  · obtain rfl := Option.some.inj (hu.symm.trans hk)
    exact ⟨_, List.getElem?_set_self hlt, .awakened hawake hstate⟩
  · exact ⟨k, by rwa [List.getElem?_set_ne hne], .rfl⟩
  · rw [List.getElem?_set_self hlt] at hk
    obtain rfl := Option.some.inj hk
    exact ⟨k₀, hu, .awakened hawake hstate⟩
  · rw [List.getElem?_set_ne hne] at hk
    exact ⟨k', hk, .rfl⟩

theorem enter_origin {prog : Prog} (hk : (s.enter c prog).tasks[t]? = some k') :
    s.tasks[t]? = some k' ∨ t = s.tasks.length ∧ k' = { prog := prog, state := .running } := by
  rcases Nat.lt_or_ge t s.tasks.length with hlt | hge
  · rw [enter, List.getElem?_append_left hlt] at hk
    exact .inl hk
  · have hlen := (List.getElem?_eq_some_iff.mp hk).1
    rw [enter, List.length_append, List.length_singleton] at hlen
    rw [enter, List.getElem?_append_right hge] at hk
    exact .inr ⟨by omega, List.mem_singleton.mp (List.mem_of_getElem? hk)⟩

theorem Change.passive_or_exec (hs : Sched s) (h : Change s e s') :
    (∃ c created t k op, Does s e s' c t k op created) ∨ Passive e s s' := by
  by_cases hown : ∃ c created t k op, Does s e s' c t k op created
  · exact .inl hown
  have hcpu (c : Nat) : Elsewhere c s s' := by
    rcases h.own_or_elsewhere hs c with ⟨created, t, k, op, hd⟩ | h'
    · exact absurd ⟨c, created, t, k, op, hd⟩ hown
    · exact h'
  have henter {c t : Nat} {k : Task} (prog : Prog) (hk : s.tasks[t]? = some k) :
      ∃ k', (s.enter c prog).tasks[t]? = some k' ∧ k.Kept k' :=
    ⟨k, by rwa [enter, List.getElem?_append_left (List.getElem?_eq_some_iff.mp hk).1], .rfl⟩
  refine .inr ?_
  cases h with
  | step created current free => exact absurd ⟨_, created, _, _, _, rfl, current, free, rfl⟩ hown
  | schedule idle task ready bound =>
    have hset := kept_set .running task (by rw [ready]; decide) (by decide)
    exact ⟨rfl, rfl, hcpu, hset.1, fun hk' => .inl (hset.2 hk')⟩
  | sleep current sleeps =>
    have hset := kept_set .ready (current_iff.mp current).2.1
      (by rw [(hs.current current).1]; decide) (by decide)
    exact ⟨rfl, rfl, hcpu, hset.1, fun hk' => .inl (hset.2 hk')⟩
  | ioctl idle =>
    exact ⟨rfl, rfl, hcpu, henter _, fun hk' => (enter_origin hk').imp (⟨_, ·, .rfl⟩)
      fun h' => ⟨_, _, .inl ⟨rfl, rfl⟩, h'⟩⟩
  | unload idle =>
    exact ⟨rfl, rfl, hcpu, henter _, fun hk' => (enter_origin hk').imp (⟨_, ·, .rfl⟩)
      fun h' => ⟨_, _, .inr ⟨rfl, rfl⟩, h'⟩⟩
  | _ => exact ⟨rfl, rfl, hcpu, fun hk => ⟨_, hk, .rfl⟩, fun hk' => .inl ⟨_, hk', .rfl⟩⟩

/-- Where the tasks behind a step come from. -/
theorem Change.origin (hs : Sched s) (h : Change s e s') (hk : s'.tasks[t]? = some k') :
    (∃ k, s.tasks[t]? = some k ∧ Same k k') ∨
      (∃ c created k op, Does s e s' c t k op created ∧
        k' = op.onTask (s.cpus c).rdmsr s.dev s.ts k) ∨
      (∃ c u k j fn, s.current c = some (u, k, .create j fn) ∧
        k' = { prog := .thread fn, state := .new }) ∨
      ∃ c prog, (e = .ioctl c ∧ prog = .ioctl ∨ e = .unload c ∧ prog = .stop) ∧
        k' = { prog := prog, state := .running } := by
  rcases h.passive_or_exec hs with ⟨c, created, u, k, op, hd⟩ | h'
  · have hc := hd.current
    rw [hd.state] at hk
    rcases exec_cases hc (hs.current hc).1 hk with
      ⟨rfl, rfl⟩ | ⟨-, k₀, hk₀, rfl⟩ | ⟨-, -, j, fn, rfl, rfl⟩
    · exact .inr (.inl ⟨c, created, k, op, hd, .refl _⟩)
    · exact .inl ⟨k₀, hk₀, op.onThread_same s.ts t k₀⟩
    · exact .inr (.inr (.inl ⟨c, u, k, j, fn, hc, .refl _⟩))
  · rcases h'.origin hk with ⟨k, hk, hkept⟩ | ⟨c, prog, he, -, hk'⟩
    · exact .inl ⟨k, hk, hkept.toSame⟩
    · exact .inr (.inr (.inr ⟨c, prog, he, hk'⟩))

end Kernel

end BS.Lbr
