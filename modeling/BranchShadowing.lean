import BranchShadowing.Framework.Trace
import BranchShadowing.Framework.Layout
import BranchShadowing.Impl.X86.Instr
import BranchShadowing.Impl.X86.Function
import BranchShadowing.Spec.X86.Semantics
import BranchShadowing.Impl.BranchConversion
import BranchShadowing.Proof.BranchConversion.Basic
import BranchShadowing.Proof.BranchConversion.Lanes
import BranchShadowing.Proof.BranchConversion.Terminator
import BranchShadowing.Proof.BranchConversion.Block
import BranchShadowing.Proof.BranchConversion.Walk
import BranchShadowing.Proof.BranchConversion.Accept
import BranchShadowing.Spec.BranchConversion
import BranchShadowing.Proof.BranchConversion.Execution
import BranchShadowing.Proof.BranchConversion.Shape
import BranchShadowing.Proof.BranchConversion.Preservation
import BranchShadowing.Proof.BranchConversion.Output
import BranchShadowing.Proof.BranchConversion.Completeness
import BranchShadowing.Impl.X86.RegisterInfo
import BranchShadowing.Proof.BranchConversion.Untouched
import BranchShadowing.Proof.BranchConversion.CalleeSaved
import BranchShadowing.Proof.BranchConversion.Reserved
import BranchShadowing.Framework.Marks
import BranchShadowing.Proof.BranchConversion.Leakage
import BranchShadowing.Proof.BranchConversion.TiedOperands
import BranchShadowing.Proof.BranchConversion.Endings
import BranchShadowing.Framework.Mem
import BranchShadowing.Impl.Lbr.Dumper
import BranchShadowing.Impl.Lbr.Reader
import BranchShadowing.Proof.Lbr.Dumper
import BranchShadowing.Proof.Lbr.Reader
import BranchShadowing.Framework.Variance
import BranchShadowing.Impl.RunEnclaveJne
import BranchShadowing.Spec.RunEnclaveJne
import BranchShadowing.Framework.Mask
import BranchShadowing.Impl.Shadow.AlignedMem
import BranchShadowing.Impl.Shadow.Segment
import BranchShadowing.Impl.Shadow.Shadow
import BranchShadowing.Proof.RunEnclaveJne
import BranchShadowing.Proof.Shadow.Alias
import BranchShadowing.Impl.Shadow.BpuUtils
import BranchShadowing.Proof.Shadow.BpuUtils
import BranchShadowing.Proof.Shadow.Encoding
import BranchShadowing.Impl.Lbr.Stats
import BranchShadowing.Proof.BranchConversion.LaneInvariant
import BranchShadowing.Proof.Lbr.MiniStatistics
import BranchShadowing.Proof.Lbr.Stats
import BranchShadowing.Proof.RunOrder
import BranchShadowing.Proof.Shadow.Packing
import BranchShadowing.Proof.BranchConversion.Visits
import BranchShadowing.Impl.Shadow.BranchShadow
import BranchShadowing.Proof.Shadow.BranchShadow
import BranchShadowing.Proof.Shadow.Layouts
import BranchShadowing.Proof.Shadow.Setup
import BranchShadowing.Proof.BranchConversion.Landing
import BranchShadowing.Proof.BranchConversion.Dummies
import BranchShadowing.Proof.BranchConversion.Cfg
import BranchShadowing.Proof.Lbr.Rest
import BranchShadowing.Proof.Lbr.Script
import BranchShadowing.Proof.Attack
import BranchShadowing.Proof.RunTest
