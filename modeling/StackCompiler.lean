import StackCompiler.CommandLine.Arguments
import StackCompiler.CommandLine.Host
import StackCompiler.CommandLine.Run
import StackCompiler.Machine.Interchange
import StackCompiler.Main
import StackCompiler.Program
import StackCompiler.Report.Diagnostic
import StackCompiler.Report.Listing
import StackCompiler.SymbolMap
import StackCompiler.Tree.Document
import StackCompiler.Proofs.Term.Chain
import StackCompiler.Proofs.Term.Numbering
import StackCompiler.Proofs.Term.Unfolding
import StackCompiler.Proofs.Term.Parents
import StackCompiler.Proofs.Term.Spine
import StackCompiler.Proofs.Lowering.Expression
import StackCompiler.Proofs.Lowering.Statement
import StackCompiler.Proofs.Lowering.Scope
import StackCompiler.Proofs.Lowering.Program
import StackCompiler.Proofs.Lowering.Outcome
import StackCompiler.Proofs.Lowering.Labels
import StackCompiler.Proofs.Blocks
import StackCompiler.Proofs.CallFrames
import StackCompiler.Proofs.Execution
import StackCompiler.Proofs.Semantics
import StackCompiler.Proofs.Preservation
import StackCompiler.Proofs.StackShape
import StackCompiler.Proofs.Balance
import StackCompiler.Proofs.FrameLayout
import StackCompiler.Proofs.Number.Exact
import StackCompiler.Proofs.Addressing
import StackCompiler.Proofs.SlotTracking
import StackCompiler.Proofs.FrameClearance
import StackCompiler.Proofs.Static.Check
import StackCompiler.Proofs.Static.Statement
import StackCompiler.Proofs.Static.Acceptance
import StackCompiler.Proofs.Positions.Alike
import StackCompiler.Proofs.Positions.Independence
import StackCompiler.Proofs.Diagnostics.Place
import StackCompiler.Proofs.Diagnostics.Blame
import StackCompiler.Proofs.Diagnostics.Lowering
import StackCompiler.Proofs.Diagnostics.Soundness
import StackCompiler.Proofs.Number.Rounding
import StackCompiler.Proofs.Number.Reading
import StackCompiler.Proofs.Machine.Reading
import StackCompiler.Proofs.Machine.Colours
import StackCompiler.Proofs.Listing.Lines
import StackCompiler.Proofs.Listing.ReadBack
import StackCompiler.Proofs.Listing.Links
import StackCompiler.Proofs.FallThrough
import StackCompiler.Proofs.DefinitionOrder
import StackCompiler.Proofs.StackEffect
import StackCompiler.Proofs.FunctionIsolation
import StackCompiler.Proofs.SlotReservation
import StackCompiler.Proofs.FrameBound
