import ScriptVM.Binary.Arith
import ScriptVM.Binary.Basic
import ScriptVM.ByteReader
import ScriptVM.CodeBuffer
import ScriptVM.Compile
import ScriptVM.Constant
import ScriptVM.Decimal.Layout
import ScriptVM.Decimal.Reader
import ScriptVM.Decimal.Shortest
import ScriptVM.Error
import ScriptVM.Fragment
import ScriptVM.Heap.Access
import ScriptVM.Heap.Basic
import ScriptVM.Heap.Collect
import ScriptVM.Heap.Environment
import ScriptVM.Heap.Inspect
import ScriptVM.Heap.Map
import ScriptVM.Heap.Traversal
import ScriptVM.Heap.View
import ScriptVM.Image
import ScriptVM.Instruction
import ScriptVM.Kind
import ScriptVM.Listing
import ScriptVM.Machine.Basic
import ScriptVM.Machine.Run
import ScriptVM.Machine.Step
import ScriptVM.MapKey
import ScriptVM.Native
import ScriptVM.Num
import ScriptVM.Object
import ScriptVM.Opcode
import ScriptVM.Operand
import ScriptVM.Operator
import ScriptVM.Progression
import ScriptVM.Proofs.Arena
import ScriptVM.Proofs.Codec
import ScriptVM.Proofs.Collection
import ScriptVM.Proofs.Conduct
import ScriptVM.Proofs.Correspondence
import ScriptVM.Proofs.Emission
import ScriptVM.Proofs.Erasure
import ScriptVM.Proofs.Evaluation
import ScriptVM.Proofs.Execution
import ScriptVM.Proofs.Faults
import ScriptVM.Proofs.Growth
import ScriptVM.Proofs.Integrity
import ScriptVM.Proofs.Lockstep
import ScriptVM.Proofs.Pairing
import ScriptVM.Proofs.Parallel
import ScriptVM.Proofs.Simulation
import ScriptVM.Proofs.Startup
import ScriptVM.Proofs.Translation
import ScriptVM.Proofs.Transparency
import ScriptVM.Proofs.Views
import ScriptVM.Scope
import ScriptVM.Settings
import ScriptVM.Stream
import ScriptVM.Table
import ScriptVM.Text.Quoted
import ScriptVM.Tree
import ScriptVM.Value
import ScriptVM.Proofs.Discipline
import ScriptVM.Proofs.History
import ScriptVM.Proofs.RoundTrip
import ScriptVM.Proofs.Spending
import ScriptVM.Proofs.Streams
import ScriptVM.Proofs.Frames
import ScriptVM.Proofs.Safety
import ScriptVM.Proofs.Constants
import ScriptVM.Proofs.Operations
import ScriptVM.Proofs.Acceptance
import ScriptVM.Proofs.Folding
import ScriptVM.Proofs.Exhaustion
import ScriptVM.Proofs.Effects
import ScriptVM.Proofs.Sight
import ScriptVM.Proofs.Scoping
import ScriptVM.Proofs.Following
import ScriptVM.Proofs.Lineage
import ScriptVM.Proofs.Lawfulness
import ScriptVM.Proofs.Constancy
import ScriptVM.Proofs.Header
import ScriptVM.Proofs.Refinement
import ScriptVM.Proofs.Magnitudes
import ScriptVM.Proofs.Equality
import ScriptVM.Proofs.Rules
import ScriptVM.Proofs.Judging
import ScriptVM.Proofs.Checking
import ScriptVM.Proofs.Limits
import ScriptVM.Proofs.Assembly
import ScriptVM.Proofs.ShortCircuit
import ScriptVM.Proofs.Mentions
import ScriptVM.Proofs.Recording
import ScriptVM.Proofs.Capturing
import ScriptVM.Proofs.Promotion
import ScriptVM.Proofs.Rounding
import ScriptVM.Proofs.Ordering
import ScriptVM.Proofs.Progressions
import ScriptVM.Proofs.Indexing
import ScriptVM.Proofs.Walks
import ScriptVM.Proofs.RangeViews
import ScriptVM.Proofs.KeyKeeping
import ScriptVM.Proofs.MapLiterals
import ScriptVM.Proofs.Cursors
import ScriptVM.Proofs.Overflow
import ScriptVM.Proofs.Bindings
import ScriptVM.Proofs.Termination
