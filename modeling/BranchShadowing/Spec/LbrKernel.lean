import BranchShadowing.Impl.Lbr.Tools
import BranchShadowing.Impl.RunEnclaveJne
import BranchShadowing.Spec.LbrStats

/-!
# The LBR device at work

CPUs that retire branches, and the kernel that runs the module on them. Tasks are not taken
off a CPU in the kernel, except where they sleep, in `kthread_create` and `kthread_bind`; in
between any CPU may do its next step (`Kernel.act`), branches of interrupts may retire on any
of them, and anyone may print.

Open, release and write, which do nothing, are left out. A read of the device is one step, and a
thread that has ended stays in the list.
-/

namespace BS.Lbr

/-- `ts` are the variables `ts1` to `ts4`, and `lock` is the task that holds the lock of the
printer. Of what was printed, `dmesg` are the lines: a record, or none where `run_once` would
find no record. `log` is what has ever been recorded on a CPU. -/
structure Kernel where
  cpus : Nat → Cpu
  running : Nat → Option Nat
  tasks : List Task
  ts : Threads
  lock : Option Nat
  dev : Module
  dmesg : List (Option LbrReader.Line)
  log : Nat → List Branch

inductive Event
  /-- A branch retires. -/
  | branch (cpu : Nat) (b : Branch)
  /-- The CPU goes on with a task that is ready. -/
  | schedule (cpu task : Nat)
  /-- The next operation of the task on the CPU; `created` is for those that create a thread. -/
  | step (cpu : Nat) (created : Bool)
  | sleep (cpu : Nat)
  | ioctl (cpu : Nat)
  | read (length : Nat)
  | unload (cpu : Nat)
  /-- Somebody else prints a line. -/
  | printk (line : Option LbrReader.Line)
  deriving DecidableEq, Repr

/-- The task may sleep there. -/
def Op.sleeps : Op → Bool
  | .create .. | .bind _ => true
  | _ => false

/-- A task begins. -/
def Event.begins : Event → Bool
  | .ioctl _ | .unload _ => true
  | _ => false

/-- How often tasks go on because of an event: the one that it begins at each of its operations,
and the four threads of that one, which come to a CPU and have two operations each; one that
sleeps comes back to a CPU. -/
def Event.steps : Event → Nat
  | .ioctl _ => deviceIoctlOps.length + 4 * 3
  | .unload _ => (allThreads .disableLBR).length + 4 * 3
  | .sleep _ => 1
  | _ => 0

namespace Kernel

/-- The module has been loaded, up to `all_enable_LBR`. -/
def load (cpus : Nat → Cpu) (dev : Module) : Kernel where
  cpus := cpus
  running _ := none
  tasks := [{ prog := .start, state := .ready }]
  ts _ := none
  lock := none
  dev := dev
  dmesg := []
  log _ := []

/-- The task on a CPU, and its next operation. -/
def current (s : Kernel) (c : Nat) : Option (Nat × Task × Op) := do
  let t ← s.running c
  let k ← s.tasks[t]?
  let op ← k.prog.ops[k.pc]?
  return (t, k, op)

/-- The lock is taken. -/
def waits (s : Kernel) (op : Op) : Bool := op = .lock ∧ s.lock.isSome

def retire (s : Kernel) (c : Nat) (b : Branch) : Kernel :=
  { s with
    cpus := Function.update s.cpus c ((s.cpus c).retire b)
    log := if (s.cpus c).records b then Function.update s.log c (s.log c ++ [b]) else s.log }

def resume (s : Kernel) (c t : Nat) (k : Task) : Kernel :=
  { s with
    running := Function.update s.running c (some t)
    tasks := s.tasks.set t { k with state := .running } }

def pause (s : Kernel) (c t : Nat) (k : Task) : Kernel :=
  { s with
    running := Function.update s.running c none
    tasks := s.tasks.set t { k with state := .ready } }

def exec (s : Kernel) (c t : Nat) (k : Task) (op : Op) (created : Bool) : Kernel :=
  let rdmsr := (s.cpus c).rdmsr
  let k' := op.onTask rdmsr s.dev s.ts k
  { s with
    cpus := Function.update s.cpus c (op.onCpu (s.cpus c))
    running := if k'.left = 0 then Function.update s.running c none else s.running
    tasks := (s.tasks.set t k').mapIdx (fun u => op.onThread s.ts u) ++ op.newThreads created
    ts := op.onTs created s.tasks.length s.ts
    lock := if op = .lock then some t else if op = .unlock then none else s.lock
    dev := op.onModule rdmsr k s.dev
    dmesg := s.dmesg ++ op.prints s.dev s.ts }

def enter (s : Kernel) (c : Nat) (prog : Prog) : Kernel :=
  { s with
    running := Function.update s.running c (some s.tasks.length)
    tasks := s.tasks ++ [{ prog := prog, state := .running }] }

/-- What cannot happen changes nothing. While a task is on a CPU, no branch that ends in user
space retires there. -/
def act (s : Kernel) : Event → Kernel
  | .branch c b => if s.running c = none ∨ b.endsInKernel then s.retire c b else s
  | .schedule c t =>
    match s.running c, s.tasks[t]? with
    | none, some k => if k.state = .ready ∧ k.runsOn c then s.resume c t k else s
    | _, _ => s
  | .step c created =>
    match s.current c with
    | some (t, k, op) => if s.waits op then s else s.exec c t k op created
    | none => s
  | .sleep c =>
    match s.current c with
    | some (t, k, op) => if op.sleeps then s.pause c t k else s
    | none => s
  | .ioctl c => if s.running c = none then s.enter c .ioctl else s
  | .read length => { s with dev := (deviceRead length s.dev).2 }
  | .unload c => if s.running c = none then s.enter c .stop else s
  | .printk line => { s with dmesg := s.dmesg ++ [line] }

def run (events : List Event) (s : Kernel) : Kernel := events.foldl act s

/-! ## What the module should see to -/

/-- The task of an ioctl has turned the LBR off, and done no more. -/
def TurnedOff (s : Kernel) (t : Nat) : Prop := ∃ k, s.tasks[t]? = some k ∧ k.pc = 1

/-- The task has begun. -/
def Began (s : Kernel) (t : Nat) : Prop := ∃ k, s.tasks[t]? = some k ∧ 1 ≤ k.pc

/-- The task has come past its dump. -/
def Dumped (s : Kernel) (t : Nat) : Prop :=
  ∃ k, s.tasks[t]? = some k ∧ k.left ≤ (allThreads .enableLBR).length

/-- The buffer or its index is used. -/
def touches (s : Kernel) : Event → Prop
  | .read _ => True
  | .step c _ => ∃ t k op, s.current c = some (t, k, op) ∧ (op = .readNext ∨ op = .resetIndex)
  | _ => False

/-- A line is printed that `run_once` takes for a record. -/
def printsRecord (s : Kernel) : Event → Prop
  | .printk line => line.isSome
  | .step c _ => ∃ t k i, s.current c = some (t, k, .printRecord i)
  | _ => False

/-- Every step of a run is so. -/
def Along (p : Kernel → Event → Prop) : List Event → Kernel → Prop
  | [], _ => True
  | e :: es, s => p s e ∧ Along p es (s.act e)

/-- In a run, what `p` says is done by no other task. -/
def OnlyBy (p : Kernel → Event → Prop) (t : Nat) : List Event → Kernel → Prop :=
  Along fun s e => p s e → ∃ c created, e = .step c created ∧ s.running c = some t

/-- In a run, no other task uses the buffer. -/
def Undisturbed (t : Nat) (es : List Event) (s : Kernel) : Prop := OnlyBy touches t es s

/-- The loading, every ioctl and the unloading have come to their end; their threads need not. -/
def Free (s : Kernel) : Prop := ∀ k ∈ s.tasks, k.prog.isThread = false → k.left = 0

instance (s : Kernel) : Decidable s.Free :=
  inferInstanceAs (Decidable (∀ k ∈ s.tasks, k.prog.isThread = false → k.left = 0))

/-- In a run, no ioctl and no unloading begins before the one before it has come to its end. -/
def Serial : List Event → Kernel → Prop := Along fun s e => e.begins → s.Free

/-- All that was ever woken has come to its end. -/
def Quiet (s : Kernel) : Prop := ∀ k ∈ s.tasks, k.state ≠ .new → k.left = 0

instance (s : Kernel) : Decidable s.Quiet :=
  inferInstanceAs (Decidable (∀ k ∈ s.tasks, k.state ≠ .new → k.left = 0))

instance decidableAlong (p : Kernel → Event → Prop) [∀ s e, Decidable (p s e)] :
    (es : List Event) → (s : Kernel) → Decidable (Along p es s)
  | [], _ => inferInstanceAs (Decidable True)
  | e :: es, s =>
    have := decidableAlong p es (s.act e)
    inferInstanceAs (Decidable (p s e ∧ Along p es (s.act e)))

instance (es : List Event) (s : Kernel) : Decidable (Serial es s) :=
  inferInstanceAs (Decidable (Along (fun s e => e.begins → s.Free) es s))

/-- A task goes on: it comes to a CPU, or does its next operation. -/
def advances (s : Kernel) : Event → Bool
  | .schedule c t =>
    (s.running c).isNone && (s.tasks[t]?).any fun k => k.state = .ready ∧ k.runsOn c
  | .step c _ => (s.current c).any fun x => !s.waits x.2.2
  | _ => false

/-- How often tasks go on in a run. -/
def advanced : List Event → Kernel → Nat
  | [], _ => 0
  | e :: es, s => (if s.advances e then 1 else 0) + advanced es (s.act e)

/-- Interrupts may still come here, as the thread has not filtered yet what it has enabled. -/
def Unfiltered (s : Kernel) (c : Nat) : Prop :=
  ∃ t k, s.running c = some t ∧ s.tasks[t]? = some k ∧ k.prog = .thread .enableLBR ∧ k.pc = 1

/-- `dmesg | tail -n 40` -/
def tail (s : Kernel) : List (Option LbrReader.Line) := s.dmesg.drop (s.dmesg.length - 40)

end Kernel

/-! ## A measurement -/

/-- The last of the branches that is at this address. -/
def lastAt (src : BitVec 64) (branches : List Branch) : Option Branch :=
  (branches.filter fun b => b.address = src).getLast?

/-- What the statistics take from the branch that was found. -/
def measured {K : Type*} [Field K] (stats : LbrStats K) : Option Branch → LbrStats K
  | some b => stats.addMeasurement b.mispredicted b.cycles
  | none => stats

/-! ## What the script sees -/

open RunEnclaveJne

/-- What `run_once` says when it reads the messages of the kernel. -/
def Kernel.runOnce? (s : Kernel) (addr : String) (victimInput : Int) : Option Result :=
  RunEnclaveJne.runOnce? addr victimInput ((s.tail.filterMap id).map LbrReader.Line.logged)

/-- What the script sees of a branch. -/
def Branch.line (b : Branch) : LogLine := ⟨hex b.address, b.cycles.toNat, b.mispredicted⟩

/-- Those that come directly behind one that `p` holds of, and of which it does not hold. -/
def behind {α : Type*} (p : α → Bool) (l : List α) : List α :=
  ((l.zip l.tail).filter fun x => p x.1 && !p x.2).map Prod.snd

/-- What there is to say of some lines: of the last at this address, and of the last that comes
directly behind one at this address. -/
def observed (addr : String) (victimInput : Int) (lines : List LogLine) : Result :=
  let last := (lines.filter fun l => l.addr = addr).getLast?
  { input := victimInput
    hit := last.any fun l => !l.miss
    notFound := last.isNone
    cycles := last.elim (-1) fun l => l.cycles
    fcycles := (behind (fun l => l.addr = addr) lines).getLast?.elim (-1) fun l => l.cycles }

end BS.Lbr
