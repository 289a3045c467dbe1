import Stratagem.Assembly.Step
import Stratagem.Bytes.Writer
import Stratagem.Main
import Stratagem.Term.Writer
import Stratagem.Proofs.Program.Meaning
import Stratagem.Proofs.Program.NormalForm
import Stratagem.Proofs.Program.EvaluationOrder
import Stratagem.Proofs.Program.NormalMeaning
import Stratagem.Proofs.Program.Hygiene
import Stratagem.Proofs.Program.Declarations
import Stratagem.Proofs.Bytes.RoundTrip
import Stratagem.Proofs.ClassFile.PoolGrowth
import Stratagem.Proofs.ClassFile.PoolInvariant
import Stratagem.Proofs.ClassFile.RoundTrip
import Stratagem.Proofs.Code.Layout
import Stratagem.Proofs.Code.Action
import Stratagem.Proofs.Code.Typing
import Stratagem.Proofs.Code.Flow
import Stratagem.Proofs.ClassFile.DepthSafety
import Stratagem.Proofs.ClassFile.Acceptance
import Stratagem.Proofs.Jvm.Descriptor
import Stratagem.Proofs.Jvm.Codec
import Stratagem.Proofs.Assembly.Locals
import Stratagem.Proofs.Assembly.Soundness
import Stratagem.Proofs.Assembly.Emission
import Stratagem.Proofs.Assembly.Operands
import Stratagem.Proofs.Assembly.Calls
import Stratagem.Proofs.Lowering.Code
import Stratagem.Proofs.Lowering.Machine
import Stratagem.Proofs.Lowering.Simulation
import Stratagem.Proofs.Assembly.Chart
import Stratagem.Proofs.Assembly.Finished
import Stratagem.Proofs.ClassFile.WellTyped
import Stratagem.Proofs.Code.Calls
import Stratagem.Proofs.Lowering.Names
import Stratagem.Proofs.Lowering.Typing
import Stratagem.Proofs.Assembly.Classes
import Stratagem.Proofs.Assembly.Measure
import Stratagem.Proofs.Assembly.Moves
import Stratagem.Proofs.Assembly.Effects
import Stratagem.Proofs.Assembly.Discipline
import Stratagem.Proofs.Assembly.Verified
import Stratagem.Proofs.Assembly.Agreement
import Stratagem.Proofs.Lowering.Methods
import Stratagem.Proofs.Lowering.Members
import Stratagem.Proofs.Lowering.Compilation
import Stratagem.Proofs.Lowering.Failures
import Stratagem.Proofs.ClassFile.Lossless
import Stratagem.Proofs.Jvm.Fidelity
import Stratagem.Proofs.Jvm.MethodDescriptor
import Stratagem.Proofs.Term.Grammar
import Stratagem.Proofs.Term.Derivation
import Stratagem.Proofs.Term.Acceptance
import Stratagem.Proofs.Binary.Rounding
import Stratagem.Proofs.Binary.Shortest
import Stratagem.Proofs.Term.Literals
import Stratagem.Proofs.Term.Writing
import Stratagem.Proofs.Bytes.Exactness
import Stratagem.Proofs.ClassFile.Canonical
import Stratagem.Proofs.Program.ClassNames
import Stratagem.Proofs.Storage.Files
import Stratagem.Lowering.Workers
import Stratagem.Proofs.Lowering.Distinct
import Stratagem.Proofs.Lowering.Dependence
import Stratagem.Proofs.Lowering.Workers
import Stratagem.Proofs.Assembly.NullChecks
import Stratagem.Proofs.Lowering.Writing
import Stratagem.Proofs.Lowering.NullChecks
import Stratagem.Proofs.Assembly.Faults
import Stratagem.Proofs.Lowering.Execution
import Stratagem.Proofs.Assembly.Outline
import Stratagem.Proofs.Lowering.Inventory
import Stratagem.Proofs.Lowering.Forwarding
import Stratagem.Proofs.Lowering.OneObject
import Stratagem.Proofs.Bytes.Texts
import Stratagem.Proofs.Assembly.Lines
import Stratagem.Proofs.Assembly.Access
import Stratagem.Proofs.Assembly.Jumps
import Stratagem.Proofs.Assembly.Requests
import Stratagem.Proofs.Assembly.Widths
import Stratagem.Proofs.Storage.Placement
import Stratagem.Proofs.Term.RealLiterals
import Stratagem.Proofs.Term.Canonical
import Stratagem.Proofs.Assembly.FrameTable
import Stratagem.Proofs.Assembly.Balance
import Stratagem.Proofs.Assembly.Parameters
import Stratagem.Proofs.Assembly.Entries
import Stratagem.Proofs.Assembly.Fillers
import Stratagem.Proofs.Assembly.Frames
import Stratagem.Proofs.Program.Symbols
import Stratagem.Proofs.Code.Decoding
import Stratagem.Proofs.Bytes.Deferred
import Stratagem.Proofs.Jvm.Locality
