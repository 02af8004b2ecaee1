import BranchShadowing.Impl.Lbr.Stats
import BranchShadowing.Spec.X86.Lbr

/-!
# The kernel code of the LBR device

The functions of `lbr_tools.h`, `lbr_tools.c` and `lbr_dumper.c` that run in the kernel, as
the operations they go through (`Op`); other tasks and other CPUs may come between any two
of them. What the kernel threads, the loading and unloading of the module and an ioctl run is
a `Prog`.

A record is read in one operation. Of `start_function` and `end_function` it is their call of
`all_enable_LBR` and `all_disable_LBR`. A message that is not about a record is printed
without its text.
-/

namespace BS.Lbr

/-- The functions that are given to `kthread_create`. -/
inductive ThreadFn
  | enableLBR
  | disableLBR
  deriving DecidableEq, Repr

inductive Op
  | wrmsr (msr : Int) (edx eax : BitVec 32)
  /-- `if (lbr_data != NULL)`, around some operations -/
  | unlessNull (ops : Nat)
  /-- The first two lines of `read_lbr`. -/
  | readLbrTos
  | readNext
  /-- `spin_lock_irqsave(&printer)` -/
  | lock
  /-- The `printk` of the CPU, around those of the records. -/
  | printCpu
  | printRecord (i : Nat)
  | unlock
  | resetIndex
  /-- `kthread_create`, into the `k`-th of the variables `ts1` to `ts4` -/
  | create (k : Nat) (fn : ThreadFn)
  /-- `kthread_bind` of this variable to the CPU `k` -/
  | bind (k : Nat)
  /-- `if` none of the variables `IS_ERR`, around some operations, with the `printk` in the
  other case. -/
  | unlessError (ops : Nat)
  /-- `wake_up_process` -/
  | wakeUp (k : Nat)
  deriving DecidableEq, Repr

/-! ## The functions -/

def lbrEnableInline : List Op := [.wrmsr msrIa32Debugctlmsr 0 1]
def lbrDisableInline : List Op := [.wrmsr msrIa32Debugctlmsr 0 0]
def lbrFilterInline (edx eax : BitVec 32) : List Op := [.wrmsr msrLbrSelect edx eax]

def enableLBROps : List Op := lbrEnableInline ++ lbrFilterInline 0 1
def disableLBROps : List Op := lbrDisableInline ++ lbrFilterInline 0 0

def ThreadFn.ops : ThreadFn → List Op
  | .enableLBR => enableLBROps
  | .disableLBR => disableLBROps

/-- `read_lbr`. -/
def readLbrOps : List Op := .readLbrTos :: List.replicate 32 .readNext

/-- `dump_LBR`. -/
def dumpLBROps : List Op :=
  readLbrOps ++ [.lock, .printCpu] ++ (List.range lbrCount).map .printRecord ++ [.printCpu, .unlock]

/-- `all_enable_LBR` and `all_disable_LBR`. -/
def allThreads (fn : ThreadFn) : List Op :=
  [.create 0 fn, .bind 0, .create 1 fn, .bind 1, .create 2 fn, .bind 2, .create 3 fn, .bind 3,
    .unlessError 4, .wakeUp 0, .wakeUp 1, .wakeUp 2, .wakeUp 3]

def deviceIoctlOps : List Op :=
  lbrDisableInline ++ .unlessNull dumpLBROps.length :: dumpLBROps ++
    .resetIndex :: allThreads .enableLBR

/-- What runs in the kernel. -/
inductive Prog
  | start
  | ioctl
  | thread (fn : ThreadFn)
  | stop
  deriving DecidableEq, Repr

def Prog.isThread : Prog → Bool
  | .thread _ => true
  | _ => false

def Prog.ops : Prog → List Op
  | .start => allThreads .enableLBR
  | .ioctl => deviceIoctlOps
  | .thread fn => fn.ops
  | .stop => allThreads .disableLBR

/-! ## Tasks -/

inductive TaskState
  /-- created, but never woken -/
  | new
  | ready
  | running
  deriving DecidableEq, Repr

/-- A program that has come to operation `pc`, with `i` and `o` of `read_lbr`, and the CPU that
it is bound to. -/
structure Task where
  prog : Prog
  pc : Nat := 0
  state : TaskState
  bound : Option Nat := none
  i : Int := 0
  o : Nat := 0
  deriving DecidableEq, Repr

/-- The operations that are left. -/
def Task.left (k : Task) : Nat := k.prog.ops.length - k.pc

/-- A thread that is bound runs there, all else anywhere. -/
def Task.runsOn (k : Task) (cpu : Nat) : Bool := k.bound.all (· == cpu)

/-- `kthread_bind`, which warns of a thread that has been woken and leaves it as it is. -/
def Task.bind (k : Task) (cpu : Nat) : Task :=
  if k.state = .new then { k with bound := some cpu } else k

/-- `wake_up_process`. -/
def Task.wake (k : Task) : Task := if k.state = .new then { k with state := .ready } else k

/-- The threads that `ts1` to `ts4` point to, none where `kthread_create` has failed. -/
abbrev Threads := Nat → Option Nat

def Threads.noError (ts : Threads) : Bool := (List.range 4).all fun j => (ts j).isSome

/-! ## What an operation does -/

def Op.onCpu : Op → Cpu → Cpu
  | .wrmsr msr edx eax, c => c.wrmsr msr (edx ++ eax)
  | _, c => c

/-- What it does to the globals of the module, with the registers it reads and the task that
it is of. -/
def Op.onModule (rdmsr : Msrs) (k : Task) : Op → Module → Module
  | .readNext, st =>
    { st with lbrData := st.lbrData.map fun data => (Lbr.readNext rdmsr (data, k.i, k.o)).1 }
  | .resetIndex, st => { st with lbrDataIndex := 0 }
  | _, st => st

/-- Where the task goes on. An error that is bound or woken is dereferenced, which ends the
task. -/
def Op.next (st : Module) (ts : Threads) (k : Task) : Op → Nat
  | .unlessNull ops => k.pc + 1 + if st.lbrData.isSome then 0 else ops
  | .unlessError ops => k.pc + 1 + if ts.noError then 0 else ops
  | .bind j | .wakeUp j => if (ts j).isSome then k.pc + 1 else k.prog.ops.length
  | _ => k.pc + 1

def Op.onTask (rdmsr : Msrs) (st : Module) (ts : Threads) (op : Op) (k : Task) : Task :=
  let k := { k with pc := op.next st ts k }
  match op with
  | .readLbrTos => { k with i := Lbr.readLbrTos rdmsr, o := lbrCount - 1 }
  | .readNext => { k with i := (k.i + 1).tmod lbrCount, o := (k.o + 1) % lbrCount }
  | _ => k

/-- What it does to the thread `t`. -/
def Op.onThread (ts : Threads) (t : Nat) : Op → Task → Task
  | .bind j, k => if ts j = some t then k.bind j else k
  | .wakeUp j, k => if ts j = some t then k.wake else k
  | _, k => k

/-- The threads that it creates, if that is possible. -/
def Op.newThreads (created : Bool) : Op → List Task
  | .create _ fn => if created then [{ prog := .thread fn, state := .new }] else []
  | _ => []

/-- What it does to the variables, where a new thread is `t`. -/
def Op.onTs (created : Bool) (t : Nat) : Op → Threads → Threads
  | .create j _, ts => Function.update ts j (if created then some t else none)
  | _, ts => ts

/-- The lines that it prints. -/
def Op.prints (st : Module) (ts : Threads) : Op → List (Option LbrReader.Line)
  | .printCpu => [none]
  | .printRecord i =>
    st.lbrData.toList.map fun data => some (LbrReader.record (fun x => (data x).value) i).printed
  | .unlessError _ => if ts.noError then [] else [none]
  | _ => []

end BS.Lbr
