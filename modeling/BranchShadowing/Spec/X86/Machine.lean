import BranchShadowing.Framework.Mem
import BranchShadowing.Framework.Trace

/-!
# A machine that runs bytes

The instructions that the shadows and the slide are made of, decoded from the bytes at an
address (`decode`), and what they do (`Instr.exec`). The stack of return addresses lies
apart from the memory that is executed.
-/

namespace BS.Machine

abbrev Addr := BitVec 64

/-- The instructions, with the addresses that the direct jumps go to. -/
inductive Instr
  | nop
  | ret
  | jmp (target : Addr)
  | jne (target : Addr)
  /-- `jmp *disp(reg)` -/
  | jmpMem (reg : Nat) (disp : BitVec 64)
  | testEaxEax
  | andEax (imm : BitVec 32)
  | movEax (imm : BitVec 32)
  /-- `mov (reg), %eax` -/
  | loadEax (reg : Nat)
  | movabs (reg : Nat) (imm : BitVec 64)
  deriving DecidableEq, Repr

/-- The address behind a jump of `len` bytes at `a`, and its displacement from there. -/
def jumpTo (a : Addr) (len : Nat) {w : Nat} (disp : BitVec w) : Addr :=
  a + BitVec.ofNat 64 len + disp.signExtend 64

/-- The instruction at an address, from the bytes there, and its length. -/
def decode (a : Addr) : List Byte → Option (Instr × Nat)
  | 0x90 :: _ => some (.nop, 1)
  | 0xc3 :: _ => some (.ret, 1)
  | 0xeb :: d :: _ => some (.jmp (jumpTo a 2 d), 2)
  | 0x75 :: d :: _ => some (.jne (jumpTo a 2 d), 2)
  | 0xe9 :: d₀ :: d₁ :: d₂ :: d₃ :: _ =>
    some (.jmp (jumpTo a 5 (BitVec.ofNat 32 (ofLE [d₀, d₁, d₂, d₃]))), 5)
  | 0x85 :: 0xc0 :: _ => some (.testEaxEax, 2)
  | 0x83 :: 0xe0 :: i :: _ => some (.andEax (i.signExtend 32), 3)
  | 0xb8 :: i₀ :: i₁ :: i₂ :: i₃ :: _ =>
    some (.movEax (BitVec.ofNat 32 (ofLE [i₀, i₁, i₂, i₃])), 5)
  | 0x41 :: 0x8b :: 0x06 :: _ => some (.loadEax 14, 3)
  | 0x41 :: 0xff :: 0x65 :: d :: _ => some (.jmpMem 13 (d.signExtend 64), 4)
  | 0x49 :: op :: i₀ :: i₁ :: i₂ :: i₃ :: i₄ :: i₅ :: i₆ :: i₇ :: _ =>
    if op &&& 0xf8 = 0xb8 then
      some (.movabs (8 + (op &&& 7).toNat)
        (BitVec.ofNat 64 (ofLE [i₀, i₁, i₂, i₃, i₄, i₅, i₆, i₇])), 10)
    else none
  | _ => none

/-- The longest of these instructions. -/
def maxLength : Nat := 10

/-- `regs` are r8 to r15. -/
structure State where
  rip : Addr
  eax : BitVec 32
  zf : Bool
  regs : Nat → BitVec 64
  stack : List Addr
  mem : Mem Byte

/-- The number of `n` bytes at an address. -/
def State.load (s : State) (a : Addr) (n : Nat) : Nat := ofLE (s.mem.read a.toNat n)

/-- What an instruction does that is followed by one at `next`. -/
def Instr.exec (next : Addr) (s : State) : Instr → Option State
  | nop => some { s with rip := next }
  | ret =>
    match s.stack with
    | [] => none
    | p :: stack => some { s with rip := p, stack := stack }
  | jmp target => some { s with rip := target }
  | jne target => some { s with rip := if s.zf then next else target }
  | jmpMem reg disp => some { s with rip := BitVec.ofNat 64 (s.load (s.regs reg + disp) 8) }
  | testEaxEax => some { s with rip := next, zf := s.eax = 0 }
  | andEax imm => some { s with rip := next, eax := s.eax &&& imm, zf := s.eax &&& imm = 0 }
  | movEax imm => some { s with rip := next, eax := imm }
  | loadEax reg => some { s with rip := next, eax := BitVec.ofNat 32 (s.load (s.regs reg) 4) }
  | movabs reg imm => some { s with rip := next, regs := Function.update s.regs reg imm }

def Instr.isBranch : Instr → Bool
  | ret | jmp _ | jne _ | jmpMem .. => true
  | _ => false

/-- An instruction executed: where, whether it jumped, and where it went. -/
structure Executed where
  pos : Addr
  instr : Instr
  taken : Bool
  goes : Addr
  deriving DecidableEq, Repr

/-- Whether an instruction jumps. -/
def Instr.taken (s : State) : Instr → Bool
  | jne _ => !s.zf
  | i => i.isBranch

def step (s : State) : Option (List Executed × State) := do
  let (i, n) ← decode s.rip (s.mem.read s.rip.toNat maxLength)
  let s' ← i.exec (s.rip + BitVec.ofNat 64 n) s
  return ([⟨s.rip, i, i.taken s, s'.rip⟩], s')

def system : System State Executed := ⟨step⟩

/-- The branch instructions among those executed, whether they jumped or not. -/
def branches (es : List Executed) : List Executed := es.filter fun e => e.instr.isBranch

/-- From `s` the machine comes to a state that, with the branch instructions executed on
the way, satisfies `Q`. -/
def Runs (s : State) (Q : List Executed → State → Prop) : Prop :=
  ∃ n es s', system.StepsIn n s es s' ∧ Q (branches es) s'

/-- The bytes lie at an address, and not beyond the end of memory. -/
structure Holds (m : Mem Byte) (a : Addr) (l : List Byte) : Prop where
  read : m.read a.toNat l.length = l
  fits : a.toNat + l.length ≤ 2 ^ 64

end BS.Machine
