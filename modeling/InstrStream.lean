import InstrStream.Builder
import InstrStream.Registry.Standard
import InstrStream.Sample.FixedByte
import InstrStream.Proofs.Chain
import InstrStream.Proofs.X86.FrameExpansion
import InstrStream.Proofs.X86.Labels
import InstrStream.Proofs.X86.Decoder
import InstrStream.Proofs.X86.EncodeDecode
import InstrStream.Proofs.X86.Meaning
import InstrStream.Proofs.X86.Placement
import InstrStream.Proofs.X86.Outcome
import InstrStream.Proofs.X86.MachineCode
import InstrStream.Proofs.X86.Redecoding
import InstrStream.Proofs.X86.EncodingFailure
import InstrStream.Proofs.X86.LabelProtocol
import InstrStream.Proofs.X86.FramedList
import InstrStream.Proofs.X86.ControlPaths
import InstrStream.Proofs.X86.StackBalance
import InstrStream.Proofs.Ownership
import InstrStream.Proofs.Appending
import InstrStream.Proofs.X86.AssembledProgram
import InstrStream.Proofs.X86.Retargeting
import InstrStream.Proofs.X86.Renaming
import InstrStream.Proofs.Configuring
import InstrStream.Proofs.X86.StorageIndependence
import InstrStream.Proofs.PoolArray
import InstrStream.Proofs.X86.Diagnostics
import InstrStream.Proofs.X86.SilentRecords
import InstrStream.Proofs.Finality
import InstrStream.Proofs.X86.Atomicity
import InstrStream.Proofs.X86.AssembledListing
import InstrStream.Proofs.X86.StrayBranches
import InstrStream.Proofs.X86.Reassembly
import InstrStream.Proofs.X86.ReportedRecords
import InstrStream.Proofs.X86.Constants
import InstrStream.Proofs.X86.Grammar
import InstrStream.Proofs.X86.SharedLabels
import InstrStream.Proofs.X86.LabelHistory
import InstrStream.Proofs.X86.FiniteLists
import InstrStream.Proofs.X86.OperandPlaces
import InstrStream.Proofs.ForeignHandles
import InstrStream.Proofs.CheckedAccess
import InstrStream.Proofs.X86.CheckedAssembly
