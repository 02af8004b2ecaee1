import BranchShadowing.Spec.LbrKernel
import BranchShadowing.Spec.Shadow.BranchShadow

/-!
# A measurement with a shadow

A shadow is called on a CPU whose LBR is on. The branches that it takes retire there, in
between and behind them a few others, and then `finish_attack` calls the ioctl
(`Measurement`).
-/

namespace BS.Attack

open Lbr Lbr.Kernel ShadowCode ShadowCode.BranchShadow
open Machine (Executed)

/-- Whether the branch at the source of the shadow is taken. -/
def jumps (input : BitVec 32) : Builder → Bool
  | .jne => input.toNat % 2 = 1
  | .jmp | .jmpRev => true

/-- The shadow lies in the lower half of an address space of 48 bits. -/
def Low (r : Setup) : Prop :=
  ∀ i ∈ r.finalized.shadow.segments,
    (r.finalized.shadow.getPos i).toNat + (r.finalized.shadow.heap i).getSize.toNat ≤ 2 ^ 47

instance (r : Setup) : Decidable (Low r) :=
  inferInstanceAs (Decidable (∀ i ∈ r.finalized.shadow.segments,
    (r.finalized.shadow.getPos i).toNat + (r.finalized.shadow.heap i).getSize.toNat ≤ 2 ^ 47))

/-- Of the branches executed, all in the lower half of the address space, exactly one lies at
`src`, and at most three are behind it. -/
def OneAt (src : Ptr) (taken : Bool) (es : List Executed) : Prop :=
  (∀ x ∈ es, x.pos.toNat < 2 ^ 47) ∧
    ∃ es₁ e es₂, es = es₁ ++ e :: es₂ ∧ e.pos = src ∧ e.taken = taken ∧ es₂.length ≤ 3 ∧
      ∀ x ∈ es₁ ++ es₂, x.pos ≠ src

/-- The record of a branch that ends in user space. -/
structure RecordOf (e : Executed) (b : Branch) : Prop where
  src : b.src = e.pos
  dst : b.dst = e.goes
  user : b.endsInKernel = false

/-- What retires are the branches that were taken. -/
def Retired (es : List Executed) (bs : List Branch) : Prop :=
  List.Forall₂ RecordOf (es.filter Executed.taken) bs

/-- A branch that ends in user space, on this CPU. -/
def userBranch (c : Nat) : Event → Option Branch
  | .branch c' b => if c' = c ∧ b.endsInKernel = false then some b else none
  | _ => none

/-- The CPU goes to a task of the kernel, or on with one. -/
def inKernel (c : Nat) : Event → Bool
  | .schedule c' _ | .step c' _ | .sleep c' | .ioctl c' | .unload c' => c' == c
  | _ => false

/-- The LBR of a CPU in user space is on, and filtered. -/
structure On (c : Nat) (s : Kernel) : Prop where
  debugctl : (s.cpus c).debugctl = 1
  select : (s.cpus c).select = 1
  idle : s.running c = none

def atAddress (src : Ptr) (bs : List Branch) : List Branch := bs.filter fun b => b.address = src

/-- From `s` on, the CPU stays in user space in `es`, where the branches `bs` of the shadow
retire, and at most 28 others that are not at its source; then an ioctl dumps in `es'`, and
nobody else uses the buffer. -/
structure Measurement (c : Nat) (src : Ptr) (executed : List Executed) (s : Kernel)
    (es es' : List Event) (bs : List Branch) : Prop where
  user : ∀ e ∈ es, inKernel c e = false
  retired : Retired executed bs
  among : bs.Sublist (es.filterMap (userBranch c))
  few : (es.filterMap (userBranch c)).length ≤ bs.length + 28
  others : (atAddress src (es.filterMap (userBranch c))).length = (atAddress src bs).length
  undisturbed : (s.run (es ++ [.ioctl c])).Undisturbed (s.run es).tasks.length es'
  dumped : (s.run (es ++ .ioctl c :: es')).Dumped (s.run es).tasks.length

/-- From its ioctl on, no other task prints records in `es`, and no more than 40 lines are
printed at all. -/
structure Legible (c : Nat) (s : Kernel) (es : List Event) : Prop where
  only : (s.act (.ioctl c)).OnlyBy printsRecord s.tasks.length es
  few : ((s.act (.ioctl c)).run es).dmesg.length ≤ s.dmesg.length + 40

end BS.Attack
