import BranchShadowing.Proof.Lbr.Threads

/-!
# When all threads have come to their end

The variables `ts1` to `ts4` are shared, and of two ioctls that overlap the one may wake
threads that the other has only created. Where none begins before the one before it has come
to its end, whatever turns the LBR of a CPU off or wants it on has yet to wake the thread of
that CPU, or has woken it (`Kernel.Comes`). So when nothing is left to be done, every
thread has done its work.
-/

namespace BS.Lbr

namespace Kernel

variable {s s' : Kernel} {c c₀ t t₀ u : Nat} {k k' k₀ : Task} {op : Op} {e : Event} {fn : ThreadFn}

/-! ## What is on its way -/

/-- Only threads are created without being woken. -/
def Fresh (s : Kernel) : Prop :=
  ∀ (t : Nat) (k : Task), s.tasks[t]? = some k → k.state = .new → k.prog.creates = none

theorem Fresh.change (hf : Fresh s) (hs : Sched s) (h : Change s e s') : Fresh s' := by
  intro t k' hk' hnew
  rcases h.origin hs hk' with ⟨k, hk, hsame⟩ | ⟨c, created, k, op, hd, rfl⟩ |
    ⟨c, u, k, j, fn, hc, rfl⟩ | ⟨c, prog, -, rfl⟩
  · rw [hsame.prog]
    exact hf t k hk (by_contra fun hne => (hsame.awake hne).1 hnew)
  · rw [Op.onTask_state, (hs.current hd.current).1] at hnew
    cases hnew
  · rfl
  · cases hnew

theorem fresh_run (cpus : Nat → Cpu) (dev : Module) (es : List Event) :
    Fresh ((load cpus dev).run es) := by
  have h : Sched ((load cpus dev).run es) ∧ Fresh ((load cpus dev).run es) := by
    refine run_induction (P := fun s => Sched s ∧ Fresh s)
      (fun s e _ h => ⟨h.1.change (change s e), h.2.change h.1 (change s e)⟩)
      ⟨sched_load cpus dev, fun t k hk hnew => ?_⟩
    obtain rfl := List.mem_singleton.mp (List.mem_of_getElem? hk)
    cases hnew
  exact h.2

/-- The registers of a CPU are as `fn` writes them, or a thread that does so is on its way:
it is awake, or it will be woken. -/
inductive Comes (fn : ThreadFn) (c : Nat) (s : Kernel) : Prop
  | set (debugctl : (s.cpus c).debugctl = fn.value)
      (select : (s.cpus c).select = fn.value ∨ Half fn c s)
  | thread {t : Nat} {k : Task} (task : s.tasks[t]? = some k) (prog : k.prog = .thread fn)
      (bound : k.bound = some c) (awake : k.state ≠ .new) (pc : k.pc = 0)
  | creator {t : Nat} {k : Task} (creating : Creating fn t k s) (left : 4 ≤ k.left + c)

/-- All that goes on is for `fn`, and no thread could not be created. -/
structure Working (fn : ThreadFn) (s : Kernel) : Prop where
  active : ∀ {t : Nat} {k : Task}, s.tasks[t]? = some k → k.state ≠ .new → 0 < k.left →
    k.prog.WorksFor fn
  created : ∀ {t : Nat} {k : Task}, Creating fn t k s → ∀ j < 4, k.left + 2 * j = 12 →
    (s.ts j).isSome
  comes : ∀ c < 4, Comes fn c s

/-! ## Passive steps -/

theorem Creating.passive (h : Creating fn t k s) (hp : Passive e s s') :
    ∃ k', Creating fn t k' s' ∧ k'.left = k.left := by
  obtain ⟨k', hk', hkept⟩ := hp.kept h.task
  exact ⟨k', ⟨hk', by rw [hkept.prog, h.creates], by rw [hkept.left]; exact h.left⟩, hkept.left⟩

theorem Comes.passive (h : Comes fn c s) (hp : Passive e s s') : Comes fn c s' := by
  cases h with
  | set debugctl select =>
    exact .set ((hp.cpu c).debugctl.trans debugctl)
      (select.imp ((hp.cpu c).select.trans ·) (·.elsewhere (hp.cpu c)))
  | thread task prog bound awake pc =>
    obtain ⟨k', hk', hkept⟩ := hp.kept task
    exact .thread hk' (hkept.prog.trans prog) (hkept.bound.trans bound)
      (fun hnew => awake (hkept.new.mp hnew)) (hkept.pc.trans pc)
  | creator creating left =>
    obtain ⟨k', hk', hleft⟩ := creating.passive hp
    exact .creator hk' (by omega)

theorem Working.passive (h : Working fn s) (hp : Passive e s s') (he : e.WorksFor fn) :
    Working fn s' := by
  refine ⟨fun {t k'} hk' hawake hleft => ?_, fun {t k'} hk' j hj hle => ?_,
    fun c hc => (h.comes c hc).passive hp⟩
  · rcases hp.origin hk' with ⟨k, hk, hkept⟩ | ⟨c, prog, ⟨rfl, rfl⟩ | ⟨rfl, rfl⟩, -, rfl⟩
    · rw [hkept.prog]
      exact h.active hk (fun hnew => hawake (hkept.new.mpr hnew)) (by rwa [hkept.left] at hleft)
    · exact .inl (congrArg some he.symm)
    · exact .inl (congrArg some he.symm)
  · rcases hk'.of_passive hp with ⟨k, hk, hkept⟩ | ⟨-, -, hleft⟩
    · rw [hp.ts]
      exact h.created hk j hj (by rwa [hkept.left] at hle)
    · omega

/-! ## Operations of a thread -/

section Operations

variable {created : Bool}

/-- The task that does something, and the others. -/
theorem exec_kept (created : Bool) (hc : s.current c₀ = some (t₀, k₀, op)) (hk : s.tasks[t]? = some k)
    (hawake : k.state ≠ .new) :
    (t = t₀ ∧ k = k₀) ∨ (s.exec c₀ t₀ k₀ op created).tasks[t]? = some k := by
  rcases eq_or_ne t t₀ with rfl | hne
  · exact .inl ⟨rfl, Option.some.inj (hk.symm.trans (current_iff.mp hc).2.1)⟩
  · have h := exec_other c₀ k₀ op created hne hk
    rw [Op.onThread_of_awake op s.ts t hawake] at h
    exact .inr h

theorem Creating.exec (h : Creating fn t k s) (hf : Fresh s) (created : Bool)
    (hc : s.current c₀ = some (t₀, k₀, op)) :
    (t = t₀ ∧ k = k₀) ∨ Creating fn t k (s.exec c₀ t₀ k₀ op created) := by
  refine (exec_kept created hc h.task fun hnew => ?_).imp_right (⟨·, h.creates, h.left⟩)
  have := hf t k h.task hnew
  rw [h.creates] at this
  cases this

/-- A thread that turns the LBR of its CPU on or off. -/
theorem Comes.exec_thread (h : Comes fn c s) (hf : Fresh s) (hs : Sched s)
    (hc : s.current c₀ = some (t₀, k₀, op)) (hprog : k₀.prog = .thread fn) :
    Comes fn c (s.exec c₀ t₀ k₀ op created) := by
  obtain ⟨-, -, hop⟩ := current_iff.mp hc
  have hon := (hs.current hc).2
  have hels (hne : c ≠ c₀) : Elsewhere c s (s.exec c₀ t₀ k₀ op created) := by
    obtain ⟨msr, edx, eax, rfl⟩ := thread_wrmsr hprog hop
    exact Does.elsewhere ⟨rfl, hc, rfl, rfl⟩ hs hne
  cases h with
  | set debugctl select =>
    rcases eq_or_ne c c₀ with rfl | hne
    · rcases onCpu_cases hop with ⟨hthread, -⟩ | ⟨hioctl, -⟩ | ⟨fn', hprog', hval⟩
      · rw [hprog] at hthread
        cases hthread
      · rw [hprog] at hioctl
        cases hioctl
      · obtain rfl := Prog.thread.inj (hprog'.symm.trans hprog)
        rcases hval with ⟨hpc, hval⟩ | ⟨-, hval⟩
        · exact .set (by rw [exec_cpu, hval]) (.inr (half_exec created hs hc hprog hpc))
        · exact .set (by rw [exec_cpu, hval]; exact debugctl) (.inl (by rw [exec_cpu, hval]))
    · exact .set ((hels hne).debugctl.trans debugctl)
        (select.imp ((hels hne).select.trans ·) (·.elsewhere (hels hne)))
  | thread task prog bound awake pc =>
    rcases exec_kept created hc task awake with ⟨rfl, rfl⟩ | h'
    · obtain rfl : c = c₀ := by simpa [Task.runsOn, bound] using hon
      rcases thread_op hprog hop with ⟨-, rfl⟩ | ⟨hpc, -⟩
      · refine .set ?_ (.inr (half_exec created hs hc hprog pc))
        rw [exec_cpu, Op.onCpu, value_append]
        rfl
      · omega
    · exact .thread h' prog bound awake pc
  | creator creating left =>
    rcases creating.exec hf created hc with ⟨rfl, rfl⟩ | h'
    · have := creating.creates
      rw [hprog] at this
      cases this
    · exact .creator h' left

/-! ## Operations of a program that creates threads -/

/-- No error ends it. -/
theorem Working.left_next (h : Working fn s) (ho : Orderly s)
    (hc : s.current c₀ = some (t₀, k₀, op)) (hcreates : k₀.prog.creates = some fn)
    (hop : AllOp fn k₀.left op) :
    (op.onTask (s.cpus c₀).rdmsr s.dev s.ts k₀).left = k₀.left - 1 := by
  have hcr := creating_of_current hc hcreates
  have hsome {j : Nat} (hj : j < 4) (hle : k₀.left + 2 * j ≤ 11) (hge : 4 ≤ k₀.left + j) :
      (s.ts j).isSome := by
    obtain ⟨u, hu, -⟩ := (ho.made hcr).bound hj hle hge
    rw [hu]
    rfl
  refine left_onTask ?_
  cases hop with
  | create => rfl
  | bind hj left_eq => exact if_pos (h.created hcr _ hj left_eq)
  | wakeUp hj left_eq => exact if_pos (hsome hj (by omega) (by omega))
  | unlessError left_eq =>
    have hno : s.ts.noError = true :=
      List.all_eq_true.mpr fun j hj => by
        have hj := List.mem_range.mp hj
        exact hsome hj (by omega) (by omega)
    rw [Op.next, if_pos hno]

/-- It goes on. -/
theorem exec_creating (created : Bool) (hs : Sched s) (hc : s.current c₀ = some (t₀, k₀, op))
    (hcreates : k₀.prog.creates = some fn)
    (hleft : 0 < (op.onTask (s.cpus c₀).rdmsr s.dev s.ts k₀).left) :
    Creating fn t₀ (op.onTask (s.cpus c₀).rdmsr s.dev s.ts k₀) (s.exec c₀ t₀ k₀ op created) :=
  ⟨exec_task created hc (hs.current hc).1, by rw [Op.onTask_prog, hcreates], hleft⟩

/-- The operations that create, bind and wake threads leave the registers alone. -/
theorem exec_set (created : Bool) (hs : Sched s) (hc : s.current c₀ = some (t₀, k₀, op))
    (free : s.waits op = false) (hcreates : k₀.prog.creates = some fn)
    (hid : ∀ cpu, op.onCpu cpu = cpu) (hdebugctl : (s.cpus c).debugctl = fn.value)
    (hselect : (s.cpus c).select = fn.value ∨ Half fn c s) :
    Comes fn c (s.exec c₀ t₀ k₀ op created) := by
  rcases eq_or_ne c c₀ with rfl | hne
  · refine .set (by rw [exec_cpu, hid]; exact hdebugctl) (.inl ?_)
    rw [exec_cpu, hid]
    refine hselect.resolve_right ?_
    rintro ⟨t, k, hr, hk, hprog, -⟩
    obtain ⟨hr₀, hk₀, -⟩ := current_iff.mp hc
    obtain rfl := Option.some.inj (hr.symm.trans hr₀)
    obtain rfl := Option.some.inj (hk.symm.trans hk₀)
    rw [hprog] at hcreates
    cases hcreates
  · have hels : Elsewhere c s (s.exec c₀ t₀ k₀ op created) :=
      Does.elsewhere ⟨rfl, hc, free, rfl⟩ hs hne
    exact .set (hels.debugctl.trans hdebugctl)
      (hselect.imp (hels.select.trans ·) (·.elsewhere hels))

theorem Comes.exec_creator (h : Comes fn c s) (hlt : c < 4) (hw : Working fn s) (ho : Orderly s)
    (hs : Sched s) (hc : s.current c₀ = some (t₀, k₀, op))
    (free : s.waits op = false) (hcreates : k₀.prog.creates = some fn) :
    Comes fn c (s.exec c₀ t₀ k₀ op created) := by
  have hcr := creating_of_current hc hcreates
  rcases creator_op hcreates (current_iff.mp hc).2.2 with hop | ⟨-, hskips, hop⟩
  · have hleft := hw.left_next ho hc hcreates hop
    cases h with
    | set debugctl select =>
      exact exec_set created hs hc free hcreates (fun cpu => by cases hop <;> rfl) debugctl select
    | thread task prog bound awake pc =>
      rcases exec_kept created hc task awake with ⟨rfl, rfl⟩ | h'
      · rw [prog] at hcreates
        cases hcreates
      · exact .thread h' prog bound awake pc
    | @creator t k creating left =>
      obtain rfl := ho.single creating hcr
      obtain rfl := Option.some.inj (creating.task.symm.trans hcr.task)
      by_cases hwake : op = .wakeUp c
      · subst hwake
        cases hop with
        | wakeUp hj left_eq =>
          obtain ⟨u, hu, hk⟩ := (ho.made hcr).bound hj (by omega) (by omega)
          have hk' := exec_new created hs hc hk rfl
          rw [Op.onThread, if_pos hu] at hk'
          exact .thread hk' (by rw [Task.wake_prog]) (by rw [Task.wake_bound]) (Task.wake_state _)
            (by rw [Task.wake_pc])
      · have hle : 5 ≤ k.left + c := by
          cases hop with
          | @wakeUp j hj left_eq =>
            have hne : j ≠ c := fun he => hwake (he ▸ rfl)
            omega
          | _ => omega
        exact .creator (exec_creating created hs hc hcreates (by omega)) (by omega)
  · have hleft := left_dump (s.cpus c₀).rdmsr s.dev s.ts hskips hop
    exact .creator (exec_creating created hs hc hcreates (by omega)) (by omega)

/-! ## All operations -/

/-- The operation is of a program for `fn`. -/
theorem Working.worksFor (h : Working fn s) (hs : Sched s)
    (hc : s.current c₀ = some (t₀, k₀, op)) : k₀.prog.WorksFor fn := by
  obtain ⟨-, hk₀, hop⟩ := current_iff.mp hc
  have hlt := (List.getElem?_eq_some_iff.mp hop).1
  refine h.active hk₀ ?_ (by rw [Task.left]; omega)
  rw [(hs.current hc).1]
  decide

theorem Working.exec (h : Working fn s) (hf : Fresh s) (ho : Orderly s) (hs : Sched s)
    (hc : s.current c₀ = some (t₀, k₀, op)) (free : s.waits op = false) :
    Working fn (s.exec c₀ t₀ k₀ op true) := by
  obtain ⟨-, hk₀, hop⟩ := current_iff.mp hc
  have hworks := h.worksFor hs hc
  refine ⟨fun {t k'} hk' hawake hleft => ?_, fun {t k'} hk' j hj hle => ?_, fun c hlt => ?_⟩
  · rcases exec_cases hc (hs.current hc).1 hk' with ⟨rfl, rfl⟩ | ⟨-, k, hk, rfl⟩ | ⟨-, -, j, fn', -, rfl⟩
    · rw [Op.onTask_prog]
      exact hworks
    · have hsame := op.onThread_same s.ts t k
      rw [hsame.prog]
      rw [hsame.left] at hleft
      rcases Op.awake_onThread hawake with hawake₁ | ⟨j, rfl, hts⟩
      · exact h.active hk hawake₁ hleft
      · rcases hworks with hcreates | hthread
        · rcases creator_op hcreates hop with hall | ⟨-, -, he | he⟩
          · cases hall with
            | wakeUp hj left_eq =>
              have hwoken := (ho.made (creating_of_current hc hcreates)).woken hj left_eq hts
              rw [Option.some.inj (hk.symm.trans hwoken)]
              exact .inr rfl
          · cases he
          · cases he
        · obtain ⟨msr, edx, eax, he⟩ := thread_wrmsr hthread hop
          cases he
    · exact absurd rfl hawake
  · rcases hk'.of_exec hs hc with ⟨rfl, hcreates, rfl⟩ | ⟨k, hk, hne, hleft⟩
    · rcases creator_op hcreates hop with hall | ⟨-, hskips, hdump⟩
      · have hleft := h.left_next ho hc hcreates hall
        rw [hleft] at hle
        cases hall with
        | @create j' hj' left_eq =>
          obtain rfl : j' = j := by omega
          show (Function.update s.ts j' (some s.tasks.length) j').isSome
          rw [Function.update_self]
          rfl
        | _ => omega
      · have := left_dump (s.cpus c₀).rdmsr s.dev s.ts hskips hdump
        omega
    · rcases hworks with hcreates | hthread
      · exact absurd (ho.single hk (creating_of_current hc hcreates)) hne
      · obtain ⟨msr, edx, eax, rfl⟩ := thread_wrmsr hthread hop
        exact h.created hk j hj (by omega)
  · rcases hworks with hcreates | hprog
    · exact (h.comes c hlt).exec_creator hlt h ho hs hc free hcreates
    · exact (h.comes c hlt).exec_thread hf hs hc hprog

end Operations

/-! ## Runs -/

theorem Working.change (h : Working fn s) (hf : Fresh s) (hs : Sound s) (hch : Change s e s')
    (he : e.WorksFor fn) (hcreated : ∀ c, e ≠ .step c false) : Working fn s' := by
  rcases hch.passive_or_exec hs.sched with ⟨c, created, t, k, op, hd⟩ | hp
  · rw [hd.state]
    cases created with
    | true => exact h.exec hf hs.orderly hs.sched hd.current hd.free
    | false => exact absurd hd.event (hcreated c)
  · exact h.passive hp he

/-- A run in which every thread that is wanted is created. -/
theorem Working.run {es : List Event} (h : Working fn s) (hf : Fresh s) (hs : Sound s)
    (hserial : Serial es s) (hes : ∀ e ∈ es, e.WorksFor fn) (hcreated : ∀ c, .step c false ∉ es) :
    Working fn (s.run es) := by
  have hrun : (Sound (s.run es) ∧ Fresh (s.run es)) ∧ Working fn (s.run es) := by
    refine hserial.keeps (P := fun s => (Sound s ∧ Fresh s) ∧ Working fn s)
      (fun s e he hfree h => ?_) ⟨⟨hs, hf⟩, h⟩
    have hch := Kernel.change s e
    exact ⟨⟨h.1.1.act hfree, h.1.2.change h.1.1.sched hch⟩,
      h.2.change h.1.2 h.1.1 hch (hes e he) fun c hc => hcreated c (hc ▸ he)⟩
  exact hrun.2

theorem Quiet.idle (hq : Quiet s) (hs : Sched s) (c : Nat) : s.running c = none := by
  rw [Option.eq_none_iff_forall_ne_some]
  intro t hr
  obtain ⟨k, hk, hrun, -, hleft⟩ := hs.task hr
  have := hq k (List.mem_of_getElem? hk) (by rw [hrun]; decide)
  omega

theorem Quiet.not_creating (hq : Quiet s) (hf : Fresh s) : ¬ Creating fn t k s := by
  intro h
  have hleft := hq k (List.mem_of_getElem? h.task) fun hnew => by
    have := hf t k h.task hnew
    rw [h.creates] at this
    cases this
  have := h.left
  omega

/-- Nothing comes any more. -/
theorem Working.quiet (h : Working fn s) (hs : Sched s) (hf : Fresh s) (hq : Quiet s)
    (hc : c < 4) : (s.cpus c).debugctl = fn.value ∧ (s.cpus c).select = fn.value := by
  cases h.comes c hc with
  | set debugctl select =>
    refine ⟨debugctl, select.resolve_right ?_⟩
    rintro ⟨t, k, hr, -⟩
    rw [hq.idle hs c] at hr
    cases hr
  | thread task prog bound awake pc =>
    have := hq _ (List.mem_of_getElem? task) awake
    rw [thread_left prog, pc] at this
    omega
  | creator creating left => exact absurd creating (hq.not_creating hf)

theorem working_load (cpus : Nat → Cpu) (dev : Module) : Working .enableLBR (load cpus dev) := by
  have hstart {t : Nat} {k : Task} (hk : (load cpus dev).tasks[t]? = some k) :
      k = { prog := .start, state := .ready } :=
    List.mem_singleton.mp (List.mem_of_getElem? hk)
  refine ⟨fun hk _ _ => ?_, fun hk j _ hle => ?_, fun c _ => ?_⟩
  · rw [hstart hk]
    exact .inl rfl
  · rw [hstart hk.task] at hle
    exact absurd (show 13 + 2 * j = 12 from hle) (by omega)
  · exact .creator (t := 0) ⟨rfl, rfl, by decide⟩ (show 4 ≤ 13 + c by omega)

/-- From the loading on, the LBR is wanted on. -/
theorem working_run (cpus : Nat → Cpu) (dev : Module) {es : List Event}
    (hserial : Serial es (load cpus dev)) (hes : ∀ c, .unload c ∉ es)
    (hcreated : ∀ c, .step c false ∉ es) : Working .enableLBR ((load cpus dev).run es) :=
  (working_load cpus dev).run (fresh_run cpus dev []) (sound_load cpus dev) hserial
    (fun _ he => worksFor_of_loaded hes he) hcreated

/-- If no ioctl begins before the one before it has come to its end, then when all have come to
their end, the LBR is on and filtered on the four CPUs that have a thread. -/
theorem quiet_on (cpus : Nat → Cpu) (dev : Module) {es : List Event}
    (hserial : Serial es (load cpus dev)) (hes : ∀ c, .unload c ∉ es)
    (hcreated : ∀ c, .step c false ∉ es) (hq : Quiet ((load cpus dev).run es)) (hc : c < 4) :
    (((load cpus dev).run es).cpus c).debugctl = 1 ∧
      (((load cpus dev).run es).cpus c).select = 1 :=
  (working_run cpus dev hserial hes hcreated).quiet (sched_run cpus dev es)
    (fresh_run cpus dev es) hq hc

/-- All that is ready comes to a CPU, in pairs of a CPU and a thread. -/
def threads (ps : List (Nat × Nat)) : List Event :=
  ps.flatMap fun p => [.schedule p.1 p.2, .step p.1 true, .step p.1 true]

/-- The module is loaded on the first CPU, and has its four threads run. -/
def loading : List Event :=
  .schedule 0 0 :: List.replicate 13 (.step 0 true) ++ threads [(0, 1), (1, 2), (2, 3), (3, 4)]

/-- An ioctl on the sixth CPU comes while the threads of the loading still run. -/
theorem quiet_on_sixth :
    let es := .schedule 0 0 :: List.replicate 13 (.step 0 true) ++
      .ioctl 5 :: List.replicate 85 (.step 5 true) ++
      threads [(0, 1), (1, 2), (2, 3), (3, 4), (0, 6), (1, 7), (2, 8), (3, 9)]
    (((load (fun _ => emptyCpu) emptyModule).run es).cpus 0).debugctl = 1 ∧
      (((load (fun _ => emptyCpu) emptyModule).run es).cpus 0).select = 1 :=
  quiet_on (fun _ => emptyCpu) emptyModule (by decide +kernel) (by simp [threads])
    (by simp [threads]) (by decide +kernel) (by decide)

/-- Of two ioctls that overlap, the one on the first CPU is about to wake its threads when the
other creates the first of its own: that is woken before it is bound, and runs on the seventh
CPU. In the end the LBR of the first CPU is off, and that of the seventh is on. -/
example :
    let s := (load (fun _ => { emptyCpu with debugctl := 0 }) emptyModule).run (loading ++
      .ioctl 0 :: List.replicate 81 (.step 0 true) ++ .ioctl 5 :: List.replicate 73 (.step 5 true) ++
      List.replicate 4 (.step 0 true) ++ threads [(6, 11), (1, 7), (2, 8), (3, 9)] ++
      List.replicate 12 (.step 5 true) ++ threads [(1, 12), (2, 13), (3, 14)])
    s.Quiet ∧ (s.cpus 0).debugctl = 0 ∧ (s.cpus 6).debugctl = 1 := by
  decide +kernel

/-! ## Unloading -/

/-- Unloading begins when all else has come to its end. -/
theorem working_unload (hs : Sched s) (hf : Fresh s) (hq : Quiet s) (hr : s.running c₀ = none) :
    Working .disableLBR (s.act (.unload c₀)) := by
  have hact : s.act (.unload c₀) = s.enter c₀ .stop := if_pos hr
  have htask {t : Nat} {k : Task} (hk : (s.act (.unload c₀)).tasks[t]? = some k)
      (hawake : k.state ≠ .new) (hleft : 0 < k.left) : k = { prog := .stop, state := .running } := by
    rw [hact] at hk
    rcases enter_origin hk with hold | ⟨-, hnew⟩
    · have := hq k (List.mem_of_getElem? hold) hawake
      omega
    · exact hnew
  have hf' := hf.change hs (Kernel.change s (.unload c₀))
  refine ⟨fun hk hawake hleft => ?_, fun {t k} hk j _ hle => ?_, fun c _ => ?_⟩
  · rw [htask hk hawake hleft]
    exact .inl rfl
  · have hawake : k.state ≠ .new := fun hnew => by
      have := hf' t k hk.task hnew
      rw [hk.creates] at this
      cases this
    rw [htask hk.task hawake hk.left] at hle
    exact absurd (show 13 + 2 * j = 12 from hle) (by omega)
  · have hk : (s.act (.unload c₀)).tasks[s.tasks.length]? =
        some { prog := .stop, state := .running } := by
      rw [hact, enter, List.getElem?_concat_length]
    exact .creator ⟨hk, rfl, by decide⟩ (show 4 ≤ 13 + c by omega)

/-- The LBR of a CPU without threads is as it was, or off. -/
theorem high_run (cpus : Nat → Cpu) (dev : Module) {es : List Event}
    (hserial : Serial es (load cpus dev)) (hc : 4 ≤ c) :
    (((load cpus dev).run es).cpus c).debugctl = (cpus c).debugctl ∨
      (((load cpus dev).run es).cpus c).debugctl = 0 := by
  have h : Sound ((load cpus dev).run es) ∧
      ((((load cpus dev).run es).cpus c).debugctl = (cpus c).debugctl ∨
        (((load cpus dev).run es).cpus c).debugctl = 0) := by
    refine hserial.keeps (P := fun s => Sound s ∧
      ((s.cpus c).debugctl = (cpus c).debugctl ∨ (s.cpus c).debugctl = 0))
      (fun s e _ hfree h => ⟨h.1.act hfree, ?_⟩) ⟨sound_load cpus dev, .inl rfl⟩
    rcases (Kernel.change s e).high h.1 hc with h' | h'
    · rw [h']
      exact h.2
    · exact .inr h'
  exact h.2

end Kernel

end BS.Lbr
