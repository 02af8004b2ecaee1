import BranchShadowing.Impl.Lbr.Reader

/-!
# What the LBR device is for

User space gets what a dump has written, and nothing else (`Load.FromDump`): after
an ioctl the reads deliver the snapshot that was dumped, again and again
(`Delivers`), so that `read_lbr` rebuilds the array of the kernel (`Rebuilds`).
-/

namespace BS.Lbr

/-! ## Runs -/

/-- What is copied to user space in a run. -/
def copied : List Call → Module → List Load
  | [], _ => []
  | call :: calls, st => (call.run st).1 ++ copied calls (call.run st).2

/-- The reads of a run: the length asked for, and the bytes delivered. -/
def reads : List Call → Module → List (Nat × List (Option Byte))
  | [], _ => []
  | .read length :: calls, st =>
    (length, (deviceRead length st).1.map Load.value) :: reads calls (deviceRead length st).2
  | call :: calls, st => reads calls (call.run st).2

/-- A byte inside the buffer, written by a dump. -/
def Load.FromDump : Load → Prop
  | .buffer index c => index < lbrDataSize ∧ c.dumped = true
  | .null _ => False

/-- Nothing is read, other than nothing, unless the buffer is allocated and has been
dumped before. -/
def ReadsAfterDump (kmalloc : Option (Mem Byte)) (calls : List Call) : Prop :=
  ∀ before length after, calls = before ++ .read length :: after → 0 < length →
    kmalloc.isSome ∧ ∃ rdmsr, .ioctl rdmsr ∈ before

/-! ## Snapshots -/

/-- What a dump leaves in the buffer. -/
def snapshot (rdmsr : Msrs) : List LbrData :=
  (List.range lbrCount).map fun o =>
    let i := (fun i : Int => (i + 1).tmod lbrCount)^[(o + 1) % lbrCount] (readLbrTos rdmsr)
    readLbrEntry rdmsr (msrLbrNhmFrom + i) (msrLbrNhmTo + i) i

/-- The bytes of `D`, delivered in order again and again: `outs` are the reads, each with
the length asked for. -/
structure Delivers (D : List Byte) (outs : List (Nat × List (Option Byte))) : Prop where
  inOrder : ∀ i < (outs.flatMap Prod.snd).length,
    (outs.flatMap Prod.snd)[i]? = some D[i % D.length]?
  length : ∀ (k len : Nat) out, outs[k]? = some (len, out) →
    out.length = min len (D.length - ((outs.take k).flatMap Prod.snd).length % D.length)

/-! ## The user's array -/

open LbrReader in
/-- `n` calls of `read_lbr`. -/
def readLbrs (malloc : Option (Mem Byte)) : Nat → LbrReader × Module → Option (LbrReader × Module)
  | 0, s => some s
  | n + 1, s => (readLbr malloc s.1 s.2).bind (readLbrs malloc n)

/-- A record of the kernel, as the user names its fields. -/
def LbrData.toUser (d : LbrData) : LbrReader.LbrData where
  msrf := d.msrf
  msrt := d.msrt
  axf := d.axf
  dxf := d.dxf
  axt := d.axt
  dxt := d.dxt
  infoA := d.infoA
  infoD := d.infoD

/-- However often `read_lbr` is called, it leaves `records` in the user's array. -/
def Rebuilds (records : List LbrData) (dev : Module) : Prop :=
  ∀ n malloc r, 1 ≤ r.fdLbr → (r.lbrData.or malloc).isSome →
    ∃ r' dev' data, readLbrs malloc (n + 1) (r, dev) = some (r', dev') ∧ r'.lbrData = some data ∧
      (List.range LbrReader.lbrCount).map (LbrReader.record data) = records.map LbrData.toUser

end BS.Lbr
