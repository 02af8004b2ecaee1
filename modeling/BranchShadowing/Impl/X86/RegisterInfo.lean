import BranchShadowing.Impl.X86.Instr

/-!
# X86RegisterInfo

The registers that the allocator may not use (`getReservedRegs`), with what the
function is asked for given as fields, and the callee-saved registers.
-/

namespace BS.X86

/-- What `getReservedRegs` asks of a function and its target: `baseClobbered` is
whether the calling convention clobbers the base register. -/
structure FrameInfo where
  is64Bit : Bool
  hasFP : Bool
  hasBasePointer : Bool
  baseClobbered : Bool
  hasAVX512 : Bool
  deriving DecidableEq, Repr

/-- A register with its sub-registers (`MCSubRegIterator` from the 64-bit one). -/
def subRegs (g : GPR) : List Reg :=
  [.r64 g, .r32 g, .r16 g, .r8 g] ++ if g ∈ [.rax, .rcx, .rdx, .rbx] then [.r8h g] else []

/-- `getX86SubSuperRegister(getBaseRegister(), 64)`: the base register is RBX or EBX,
in 32-bit mode ESI. -/
def basePtr (MF : FrameInfo) : GPR := if MF.is64Bit then .rbx else .rsi

/-- `X86RegisterInfo::getReservedRegs`; `none` is its fatal error. -/
def getReservedRegs (MF : FrameInfo) : Option (List Reg) :=
  if MF.hasBasePointer ∧ MF.baseClobbered then none
  else some (
    subRegs .rsp ++ [.ssp] ++ [.rip, .eip, .ip] ++
    (if MF.hasFP then subRegs .rbp else []) ++
    (if MF.hasBasePointer then subRegs (basePtr MF) else []) ++
    [.cs, .ss, .ds, .es, .fs, .gs] ++
    (List.range 8).map .st ++
    (if !MF.is64Bit then
      [.r8 .rsi, .r8 .rdi, .r8 .rbp, .r8 .rsp] ++
      [.r8, .r9, .r10, .r11, .r12, .r13, .r14, .r15].flatMap subRegs ++
      (List.range 8).flatMap fun n => [.xmm (8 + n), .ymm (8 + n), .zmm (8 + n)]
    else []) ++
    (if !MF.is64Bit ∨ !MF.hasAVX512 then
      (List.range 16).flatMap fun n => [.xmm (16 + n), .ymm (16 + n), .zmm (16 + n)]
    else []) ++
    -- reserved for the branch conversion
    [.r64 .r13, .r32 .r13, .r16 .r13, .r8 .r13, .r64 .r14, .r32 .r14, .r16 .r14, .r8 .r14])

/-- `CSR_64`. -/
def csr64 : List GPR := [.rbx, .r12, .r13, .r14, .r15, .rbp]

end BS.X86
