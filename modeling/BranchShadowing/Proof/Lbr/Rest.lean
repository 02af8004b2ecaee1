import BranchShadowing.Proof.Lbr.Threads

/-!
# The work of the module comes to its end

A task waits for nothing but the lock of the printer, and whoever holds that can go on
(`Kernel.Locked`): as long as there is work left, some task can go on
(`Kernel.quiet_of_stuck`). Every event makes only so much of it (`Kernel.work_act`): what a
task may still cost is its operations, the way to a CPU, and the same again for each thread
that it will create.
-/

namespace BS.Lbr

/-! ## What is left of a task -/

def Op.threads : Op → Nat
  | .create .. => 1
  | _ => 0

/-- What may still come of a task. -/
def Task.work (k : Task) : Nat :=
  k.left + (if k.prog.creates.isSome then 3 * min 4 ((k.left - 5) / 2) else 0) +
    if k.state = .running then 0 else 1

section Operations

variable {op : Op} {k : Task}

/-- A thread that is woken or bound does not run yet. -/
theorem Op.running_onThread {ts : Threads} {u : Nat}
    (h : (op.onThread ts u k).state = .running) : k.state = .running := by
  cases op with
  | wakeUp j =>
    rw [onThread] at h
    split at h
    · by_cases hnew : k.state = .new
      · rw [Task.wake_of_eq hnew] at h
        cases h
      · rwa [Task.wake_of_ne hnew] at h
    · exact h
  | bind j =>
    rw [onThread] at h
    split at h
    · rwa [Task.bind_state] at h
    · exact h
  | _ => exact h

theorem Op.onThread_work (op : Op) (ts : Threads) (u : Nat) (k : Task) :
    (op.onThread ts u k).work = k.work := by
  have hsame := op.onThread_same ts u k
  have hrun : (op.onThread ts u k).state = .running ↔ k.state = .running := by
    refine ⟨Op.running_onThread, fun h => ?_⟩
    rw [Op.onThread_of_awake op ts u (by rw [h]; decide), h]
  simp only [Task.work, hsame.left, hsame.prog, hrun]

theorem Op.newThreads_work (op : Op) (created : Bool) :
    ((op.newThreads created).map Task.work).sum ≤ 3 * op.threads := by
  cases op with
  | create j fn =>
    cases created with
    | false => exact Nat.zero_le _
    | true => cases fn <;> exact Nat.le_refl _
  | _ => exact Nat.zero_le _

/-- An operation takes one step off, and the work of a thread where it creates one. -/
theorem Op.onTask_work (rdmsr : Msrs) (st : Module) (ts : Threads)
    (hop : k.prog.ops[k.pc]? = some op) :
    (op.onTask rdmsr st ts k).work + 1 + 3 * op.threads ≤ k.work := by
  have hlt := (List.getElem?_eq_some_iff.mp hop).1
  have hnext := Op.lt_next st ts hop
  have hless : (op.onTask rdmsr st ts k).left + 1 ≤ k.left := by
    rw [Task.left, Task.left, Op.onTask_prog, Op.onTask_pc]
    omega
  simp only [Task.work, Op.onTask_prog, Op.onTask_state]
  by_cases hcreate : ∃ j fn, op = .create j fn
  · obtain ⟨j, fn, rfl⟩ := hcreate
    obtain ⟨hcreates, hj, hleft⟩ := create_op hop
    rw [hcreates, Kernel.left_onTask rfl, threads]
    simp only [Option.isSome_some, if_true]
    omega
  · have hthreads : op.threads = 0 := by
      cases op with
      | create j fn => exact absurd ⟨j, fn, rfl⟩ hcreate
      | _ => rfl
    rw [hthreads]
    split
    · omega
    · omega

end Operations

/-! ## What is left of all tasks -/

theorem work_set {tasks : List Task} {t : Nat} {k : Task} (k' : Task) (h : tasks[t]? = some k) :
    ((tasks.set t k').map Task.work).sum + k.work = (tasks.map Task.work).sum + k'.work := by
  induction tasks generalizing t with
  | nil => simp at h
  | cons k₀ tasks ih =>
    cases t with
    | zero =>
      obtain rfl : k₀ = k := Option.some.inj h
      simp only [List.set_cons_zero, List.map_cons, List.sum_cons]
      omega
    | succ t =>
      have := ih (t := t) (by simpa using h)
      simp only [List.set_cons_succ, List.map_cons, List.sum_cons]
      omega

theorem work_onThread (op : Op) (ts : Threads) (tasks : List Task) :
    (tasks.mapIdx fun u => op.onThread ts u).map Task.work = tasks.map Task.work := by
  refine List.ext_getElem? fun u => ?_
  rw [List.getElem?_map, List.getElem?_mapIdx, List.getElem?_map, Option.map_map]
  exact congrArg (tasks[u]?.map ·) (funext fun k => op.onThread_work ts u k)

namespace Kernel

variable {s s' : Kernel} {c c₀ t t₀ : Nat} {k k₀ : Task} {op : Op} {e : Event} {created : Bool}

def work (s : Kernel) : Nat := (s.tasks.map Task.work).sum

/-! ## What a step takes off -/

theorem work_enter (c : Nat) (prog : Prog) :
    (s.enter c prog).work = s.work + Task.work { prog := prog, state := .running } := by
  simp only [work, enter, List.map_append, List.map_singleton, List.sum_append,
    List.sum_singleton]

theorem work_exec (created : Bool) (hc : s.current c = some (t, k, op)) :
    (s.exec c t k op created).work + 1 ≤ s.work := by
  obtain ⟨-, hk, hop⟩ := current_iff.mp hc
  have hset := work_set (op.onTask (s.cpus c).rdmsr s.dev s.ts k) hk
  have hop' := Op.onTask_work (s.cpus c).rdmsr s.dev s.ts hop
  have hnew := op.newThreads_work created
  have hexec : (s.exec c t k op created).work =
      ((s.tasks.set t (op.onTask (s.cpus c).rdmsr s.dev s.ts k)).map Task.work).sum +
        ((op.newThreads created).map Task.work).sum := by
    rw [← work_onThread op s.ts, ← List.sum_append, ← List.map_append]
    rfl
  change _ ≤ (s.tasks.map Task.work).sum
  omega

theorem work_resume (hk : s.tasks[t]? = some k) (hready : k.state = .ready) :
    (s.resume c t k).work + 1 = s.work := by
  have hset := work_set { k with state := .running } hk
  have hwork : k.work = Task.work { k with state := .running } + 1 := by
    cases k
    cases hready
    rfl
  change (List.map Task.work (s.tasks.set t _)).sum + 1 = (s.tasks.map Task.work).sum
  omega

theorem work_pause (hk : s.tasks[t]? = some k) (hrun : k.state = .running) :
    (s.pause c t k).work = s.work + 1 := by
  have hset := work_set { k with state := .ready } hk
  have hwork : Task.work { k with state := .ready } = k.work + 1 := by
    cases k
    cases hrun
    rfl
  change (List.map Task.work (s.tasks.set t _)).sum = (s.tasks.map Task.work).sum + 1
  omega

/-- What goes on takes off one, and only what begins or sleeps adds to it. -/
theorem work_act (hs : Sched s) (e : Event) :
    (s.act e).work + (if s.advances e then 1 else 0) ≤ s.work + e.steps := by
  cases e with
  | branch c b =>
    simp only [act]
    split <;> exact Nat.le_refl _
  | read length => exact Nat.le_refl _
  | printk line => exact Nat.le_refl _
  | schedule c t =>
    cases hr : s.running c with
    | some u => simp [act, advances, hr]
    | none =>
      cases hk : s.tasks[t]? with
      | none => simp [act, advances, hr, hk]
      | some k =>
        by_cases h : k.state = .ready ∧ k.runsOn c
        · simpa [act, advances, hr, hk, h, Event.steps] using (work_resume (c := c) hk h.1).le
        · simp [act, advances, hr, hk, h]
  | step c created =>
    cases hc : s.current c with
    | none => simp [act, advances, hc]
    | some p =>
      cases hw : s.waits p.2.2 with
      | true => simp [act, advances, hc, hw]
      | false => simpa [act, advances, hc, hw, Event.steps] using work_exec created hc
  | sleep c =>
    simp only [act]
    split
    · rename_i t k op hc
      split
      · exact (work_pause (current_iff.mp hc).2.1 (hs.current hc).1).le
      · exact Nat.le_add_right ..
    · exact Nat.le_add_right ..
  | ioctl c =>
    by_cases hr : s.running c = none
    · simp only [act, hr, if_true, work_enter]
      exact Nat.le_refl _
    · simp [act, advances, hr]
  | unload c =>
    by_cases hr : s.running c = none
    · simp only [act, hr, if_true, work_enter]
      exact Nat.le_refl _
    · simp [act, advances, hr]

/-- The whole run. -/
theorem advanced_le (hs : Sched s) (es : List Event) :
    advanced es s + (s.run es).work ≤ s.work + (es.map Event.steps).sum := by
  induction es generalizing s with
  | nil => exact (Nat.zero_add _).le
  | cons e es ih =>
    have hrest := ih (hs.change (change s e))
    have hstep := work_act hs e
    rw [show s.run (e :: es) = (s.act e).run es from rfl, advanced, List.map_cons, List.sum_cons]
    omega

/-! ## The lock -/

/-- Who holds the lock is on a CPU, and prints. -/
def Locked (s : Kernel) : Prop :=
  ∀ t, s.lock = some t → ∃ c k, s.running c = some t ∧ s.tasks[t]? = some k ∧ k.prog = .ioctl ∧
    36 ≤ k.pc ∧ k.pc ≤ 70

theorem lock_op (hop : k.prog.ops[k.pc]? = some .lock) : k.prog = .ioctl ∧ k.pc = 35 := by
  obtain ⟨fn, hfn⟩ := exists_creates hop (by simp)
  rcases creator_op hfn hop with h | ⟨hp, -, -⟩
  · cases h
  · rw [hp] at hop
    exact ⟨hp, pc_of_lock hop⟩

/-- Who holds the lock may do its next operation. -/
theorem holder_op (hprog : k.prog = .ioctl) (hlo : 36 ≤ k.pc) (hhi : k.pc ≤ 70)
    (hop : k.prog.ops[k.pc]? = some op) :
    op.sleeps = false ∧ s.waits op = false ∧
      (op = .unlock ∨ k.pc < 70 ∧ ∀ st ts, op.next st ts k = k.pc + 1) := by
  have hlast (hne : op ≠ .unlock) : k.pc < 70 := by
    refine Nat.lt_of_le_of_ne hhi fun hpc => hne ?_
    rw [hprog, hpc] at hop
    exact (Option.some.inj hop).symm
  rw [hprog] at hop
  rcases prints_of_ioctl hlo (by omega) hop with rfl | ⟨i, rfl⟩ | rfl
  · exact ⟨rfl, rfl, .inr ⟨hlast (by decide), fun _ _ => rfl⟩⟩
  · exact ⟨rfl, rfl, .inr ⟨hlast (by simp), fun _ _ => rfl⟩⟩
  · exact ⟨rfl, rfl, .inl rfl⟩

theorem Locked.exec (h : Locked s) (hs : Sched s) (hd : Does s e s' c₀ t₀ k₀ op created) :
    Locked s' := by
  obtain ⟨hr₀, hk₀, hop⟩ := current_iff.mp hd.current
  have hown {t : Nat} (hlt : (op.onTask (s.cpus c₀).rdmsr s.dev s.ts k₀).prog = .ioctl)
      (hlo : 36 ≤ (op.onTask (s.cpus c₀).rdmsr s.dev s.ts k₀).pc)
      (hhi : (op.onTask (s.cpus c₀).rdmsr s.dev s.ts k₀).pc ≤ 70) (ht : t₀ = t) :
      ∃ c k, s'.running c = some t ∧ s'.tasks[t]? = some k ∧ k.prog = .ioctl ∧ 36 ≤ k.pc ∧
        k.pc ≤ 70 := by
    subst ht
    rw [hd.state]
    refine ⟨c₀, _, exec_running hr₀ ?_, exec_task created hd.current (hs.current hd.current).1, hlt,
      hlo, hhi⟩
    rw [ioctl_left hlt]
    omega
  intro t ht
  have hlock : s'.lock = if op = .lock then some t₀ else if op = .unlock then none else s.lock := by
    rw [hd.state]
    rfl
  rw [hlock] at ht
  split at ht
  · rename_i hop'
    subst hop'
    obtain ⟨hprog, hpc⟩ := lock_op hop
    have hpc' : (Op.lock.onTask (s.cpus c₀).rdmsr s.dev s.ts k₀).pc = 36 := congrArg (· + 1) hpc
    exact hown (by rw [Op.onTask_prog, hprog]) (by omega) (by omega) (Option.some.inj ht)
  split at ht
  · cases ht
  rename_i hunlock
  obtain ⟨c, k, hr, hk, hprog, hlo, hhi⟩ := h t ht
  rcases eq_or_ne c c₀ with rfl | hne
  · obtain rfl := Option.some.inj (hr₀.symm.trans hr)
    obtain rfl := Option.some.inj (hk₀.symm.trans hk)
    obtain ⟨-, -, he | ⟨hlt, hnext⟩⟩ := holder_op (s := s) hprog hlo hhi hop
    · exact absurd he hunlock
    · have hpc : (op.onTask (s.cpus c).rdmsr s.dev s.ts k₀).pc = k₀.pc + 1 := by
        rw [Op.onTask_pc, hnext]
      exact hown (by rw [Op.onTask_prog, hprog]) (by omega) (by omega) rfl
  · obtain ⟨hr', k', hk', hsame⟩ := (hd.elsewhere hs hne).task hr hk fun op hop =>
      (holder_op (s := s) hprog hlo hhi hop).1
    exact ⟨c, k', hr', hk', hsame.prog.trans hprog, by rwa [hsame.pc], by rwa [hsame.pc]⟩

theorem Locked.change (h : Locked s) (hs : Sched s) (hch : Change s e s') : Locked s' := by
  rcases hch.passive_or_exec hs with ⟨c, created, t, k, op, hd⟩ | hp
  · exact h.exec hs hd
  · intro t ht
    rw [hp.lock] at ht
    obtain ⟨c, k, hr, hk, hprog, hlo, hhi⟩ := h t ht
    obtain ⟨hr', k', hk', hsame⟩ := (hp.cpu c).task hr hk fun op hop =>
      (holder_op (s := s) hprog hlo hhi hop).1
    exact ⟨c, k', hr', hk', hsame.prog.trans hprog, by rwa [hsame.pc], by rwa [hsame.pc]⟩

/-! ## As long as there is work -/

/-- A task that is said to run is on a CPU. -/
def Placed (s : Kernel) : Prop :=
  ∀ (t : Nat) (k : Task), s.tasks[t]? = some k → k.state = .running → 0 < k.left →
    ∃ c, s.running c = some t

theorem Placed.enter (h : Placed s) (idle : s.running c = none) (prog : Prog) :
    Placed (s.enter c prog) := by
  intro t k hk hrun hleft
  rcases Nat.lt_or_ge t s.tasks.length with hlt | hge
  · rw [Kernel.enter, List.getElem?_append_left hlt] at hk
    obtain ⟨c', hc'⟩ := h t k hk hrun hleft
    have hne : c' ≠ c := by
      rintro rfl
      simp [idle] at hc'
    exact ⟨c', (Function.update_of_ne hne ..).trans hc'⟩
  · have hlen := (List.getElem?_eq_some_iff.mp hk).1
    rw [Kernel.enter, List.length_append, List.length_singleton] at hlen
    obtain rfl : t = s.tasks.length := by omega
    exact ⟨c, Function.update_self ..⟩

theorem Placed.exec (h : Placed s) (hs : Sched s) (created : Bool)
    (hc : s.current c = some (t, k, op)) : Placed (s.exec c t k op created) := by
  obtain ⟨hr, -, -⟩ := current_iff.mp hc
  have hkeep {c' u : Nat} (hr' : s.running c' = some u) (hne : u ≠ t) :
      (s.exec c t k op created).running c' = some u := by
    simp only [Kernel.exec]
    split
    · rw [Function.update_of_ne, hr']
      rintro rfl
      exact hne (Option.some.inj (hr'.symm.trans hr))
    · exact hr'
  intro u k' hk' hrun hleft
  rcases exec_cases hc (hs.current hc).1 hk' with
    ⟨rfl, rfl⟩ | ⟨hne, k₀, hk₀, rfl⟩ | ⟨-, -, j, fn, -, rfl⟩
  · exact ⟨c, exec_running hr (by omega)⟩
  · have hsame := op.onThread_same s.ts u k₀
    obtain ⟨c', hc'⟩ := h u k₀ hk₀ (Op.running_onThread hrun) (by rwa [← hsame.left])
    exact ⟨c', hkeep hc' hne⟩
  · cases hrun

/-- A task that is put in another state leaves the others where they are. -/
theorem Placed.set (h : Placed s) {running : Nat → Option Nat} {k' : Task}
    (hkeep : ∀ {c u : Nat}, s.running c = some u → u ≠ t → running c = some u)
    (hput : k'.state = .running → ∃ c, running c = some t) :
    Placed { s with running := running, tasks := s.tasks.set t k' } := by
  intro u k₁ hk hrun hleft
  rcases eq_or_ne u t with rfl | hne
  · have hlt : u < s.tasks.length := by
      have := (List.getElem?_eq_some_iff.mp hk).1
      rwa [List.length_set] at this
    rw [List.getElem?_set_self hlt] at hk
    obtain rfl := Option.some.inj hk
    exact hput hrun
  · rw [List.getElem?_set_ne hne.symm] at hk
    obtain ⟨c, hc⟩ := h u k₁ hk hrun hleft
    exact ⟨c, hkeep hc hne⟩

theorem Placed.change (h : Placed s) (hs : Sched s) (hch : Change s e s') : Placed s' := by
  cases hch with
  | none => exact h
  | branch user => exact h
  | read length => exact h
  | printk line => exact h
  | step created current free => exact h.exec hs created current
  | ioctl idle => exact h.enter idle _
  | unload idle => exact h.enter idle _
  | @schedule c t k idle task ready bound =>
    refine h.set (fun {c' u} hr _ => ?_) fun _ => ⟨c, Function.update_self ..⟩
    rw [Function.update_of_ne, hr]
    rintro rfl
    simp [idle] at hr
  | @sleep c t k op current sleeps =>
    refine h.set (fun {c' u} hr hne => ?_) fun hrun => by cases hrun
    rw [Function.update_of_ne, hr]
    rintro rfl
    exact hne (Option.some.inj (hr.symm.trans (current_iff.mp current).1))

/-- A task has a CPU that it may run on. -/
theorem exists_runsOn (k : Task) : ∃ c, k.runsOn c = true := by
  cases hb : k.bound with
  | some j => exact ⟨j, by simp [Task.runsOn, hb]⟩
  | none => exact ⟨0, by simp [Task.runsOn, hb]⟩

/-- Where no task can go on, no CPU has one: if one waited for the lock, who holds that could go
on. -/
theorem idle_of_stuck (hs : Sched s) (hl : Locked s) (h : ∀ e, s.advances e = false) (c : Nat) :
    s.running c = none := by
  have hcurrent {c t : Nat} {k : Task} (hr : s.running c = some t) (hk : s.tasks[t]? = some k)
      (hleft : 0 < k.left) : ∃ op, s.current c = some (t, k, op) ∧ s.waits op = true := by
    have hlt : k.pc < k.prog.ops.length := by
      rw [Task.left] at hleft
      omega
    have hc : s.current c = some (t, k, k.prog.ops[k.pc]) :=
      current_iff.mpr ⟨hr, hk, List.getElem?_eq_getElem hlt⟩
    refine ⟨_, hc, ?_⟩
    have := h (.step c true)
    rw [advances, hc] at this
    simpa using this
  rw [Option.eq_none_iff_forall_ne_some]
  intro t hr
  obtain ⟨k, hk, -, -, hleft⟩ := hs.task hr
  obtain ⟨op, -, hwaits⟩ := hcurrent hr hk hleft
  obtain ⟨-, hlock⟩ := of_decide_eq_true hwaits
  obtain ⟨t', ht'⟩ := Option.isSome_iff_exists.mp hlock
  obtain ⟨c', k', hr', hk', hprog, hlo, hhi⟩ := hl t' ht'
  obtain ⟨op', hc', hwaits'⟩ := hcurrent hr' hk' (by rw [ioctl_left hprog]; omega)
  rw [(holder_op hprog hlo hhi (current_iff.mp hc').2.2).2.1] at hwaits'
  cases hwaits'

/-- Where no task can go on, nothing is left to be done. -/
theorem quiet_of_stuck (hs : Sched s) (hp : Placed s) (hl : Locked s)
    (h : ∀ e, s.advances e = false) : Quiet s := by
  have hidle := idle_of_stuck hs hl h
  intro k hk hawake
  obtain ⟨t, ht⟩ := List.mem_iff_getElem?.mp hk
  by_contra hleft
  cases hstate : k.state with
  | new => exact hawake hstate
  | running =>
    obtain ⟨c, hc⟩ := hp t k ht hstate (by omega)
    simp [hidle c] at hc
  | ready =>
    obtain ⟨c, hc⟩ := exists_runsOn k
    have := h (.schedule c t)
    simp [advances, hidle c, ht, hstate, hc] at this

end Kernel

end BS.Lbr
