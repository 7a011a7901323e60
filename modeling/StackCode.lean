import StackCode.Assembler
import StackCode.Bytes.Hex
import StackCode.Bytes.LittleEndian
import StackCode.Bytes.Overwrite
import StackCode.Code.Emission
import StackCode.Code.Error
import StackCode.Code.Frame
import StackCode.Code.Module
import StackCode.Code.Operation
import StackCode.Code.Placement
import StackCode.Code.Selection
import StackCode.Compile
import StackCode.Dataflow.Marks
import StackCode.Dataflow.OperandStack
import StackCode.Dataflow.Solver
import StackCode.Decimal.Notation
import StackCode.Decimal.Shortest
import StackCode.Deployment.Basic
import StackCode.Deployment.Recorder
import StackCode.Diagnostic
import StackCode.Digest.Sha256
import StackCode.Disassembly.Basic
import StackCode.Disassembly.Text
import StackCode.Fault
import StackCode.Features
import StackCode.Fingerprint
import StackCode.Image.Decoder
import StackCode.Image.Descriptor
import StackCode.Image.Header
import StackCode.Image.Token
import StackCode.Instr.Basic
import StackCode.Instr.Mnemonic
import StackCode.Instr.Text
import StackCode.Link.Basic
import StackCode.Link.Linker
import StackCode.Opcode.Basic
import StackCode.Opcode.Encoding
import StackCode.Operator
import StackCode.Program.Basic
import StackCode.Program.Binding
import StackCode.Program.Chain
import StackCode.Proofs.Agreement
import StackCode.Proofs.Assembler.Flags
import StackCode.Proofs.Assembler.Sessions
import StackCode.Proofs.Assembler.WellFormed
import StackCode.Proofs.Code.Accesses
import StackCode.Proofs.Code.BranchForms
import StackCode.Proofs.Code.BranchLayout
import StackCode.Proofs.Code.Capabilities
import StackCode.Proofs.Code.Compiled
import StackCode.Proofs.Code.ControlFlow
import StackCode.Proofs.Code.Convention
import StackCode.Proofs.Code.Depths
import StackCode.Proofs.Code.Emitted
import StackCode.Proofs.Code.FrameSlots
import StackCode.Proofs.Code.Frames
import StackCode.Proofs.Code.InRange
import StackCode.Proofs.Code.Known
import StackCode.Proofs.Code.Limits
import StackCode.Proofs.Code.Listing
import StackCode.Proofs.Code.Outcome
import StackCode.Proofs.Code.Placed
import StackCode.Proofs.Code.Renaming
import StackCode.Proofs.Code.Returns
import StackCode.Proofs.Code.RoundTrip
import StackCode.Proofs.Code.Selected
import StackCode.Proofs.Code.SlotEffects
import StackCode.Proofs.Dataflow.Fixpoint
import StackCode.Proofs.Dataflow.Lockstep
import StackCode.Proofs.Dataflow.Marks
import StackCode.Proofs.Dataflow.Reached
import StackCode.Proofs.Dataflow.Schedules
import StackCode.Proofs.Dataflow.VisitCounts
import StackCode.Proofs.Dataflow.Worklist
import StackCode.Proofs.Deployment.Gating
import StackCode.Proofs.Deployment.LoadOrder
import StackCode.Proofs.Deployment.Loading
import StackCode.Proofs.Disassembly.Exact
import StackCode.Proofs.Disassembly.Format
import StackCode.Proofs.Disassembly.Written
import StackCode.Proofs.Endings
import StackCode.Proofs.Image.Codec
import StackCode.Proofs.Image.Faithful
import StackCode.Proofs.Link.Acyclic
import StackCode.Proofs.Link.Changes
import StackCode.Proofs.Link.ContentAddress
import StackCode.Proofs.Link.Cycles
import StackCode.Proofs.Link.Finished
import StackCode.Proofs.Link.FixupPlaces
import StackCode.Proofs.Link.Fixups
import StackCode.Proofs.Link.History
import StackCode.Proofs.Link.Linked
import StackCode.Proofs.Link.Marks
import StackCode.Proofs.Link.Naming
import StackCode.Proofs.Link.Outcome
import StackCode.Proofs.Link.Patched
import StackCode.Proofs.Link.References
import StackCode.Proofs.Link.Search
import StackCode.Proofs.Link.WholeSets
import StackCode.Proofs.Program.Binding
import StackCode.Proofs.Program.Renaming
import StackCode.Proofs.Program.Safety
import StackCode.Proofs.Program.Structure
import StackCode.Proofs.Sequencing
import StackCode.Proofs.Types.Additions
import StackCode.Proofs.Types.Built
import StackCode.Proofs.Types.Canonical
import StackCode.Proofs.Types.Carried
import StackCode.Proofs.Types.Classes
import StackCode.Proofs.Types.Coherent
import StackCode.Proofs.Types.Containment
import StackCode.Proofs.Types.ExactLayouts
import StackCode.Proofs.Types.Exhaustion
import StackCode.Proofs.Types.Extension
import StackCode.Proofs.Types.Failures
import StackCode.Proofs.Types.Interned
import StackCode.Proofs.Types.Known
import StackCode.Proofs.Types.Layouts
import StackCode.Proofs.Types.Levels
import StackCode.Proofs.Types.Lookup
import StackCode.Proofs.Types.Nested
import StackCode.Proofs.Types.Placed
import StackCode.Proofs.Types.Renaming
import StackCode.Proofs.Types.Towers
import StackCode.Proofs.Types.Trees
import StackCode.Proofs.Typing.Addresses
import StackCode.Proofs.Typing.Calls
import StackCode.Proofs.Typing.Certificate
import StackCode.Proofs.Typing.Counts
import StackCode.Proofs.Typing.Heights
import StackCode.Proofs.Typing.Joins
import StackCode.Proofs.Typing.Known
import StackCode.Proofs.Typing.Order
import StackCode.Proofs.Typing.Outcome
import StackCode.Proofs.Typing.Paths
import StackCode.Proofs.Typing.Renaming
import StackCode.Proofs.Typing.Resolved
import StackCode.Proofs.Typing.Rules
import StackCode.Proofs.Typing.Simulation
import StackCode.Proofs.Typing.Termination
import StackCode.Proofs.Typing.Verified
import StackCode.Proofs.Typing.VisitOrder
import StackCode.Types.Basic
import StackCode.Types.Interning
import StackCode.Types.Table
import StackCode.Typing.Error
import StackCode.Typing.Merge
import StackCode.Typing.Transfer
import StackCode.Typing.Verify
