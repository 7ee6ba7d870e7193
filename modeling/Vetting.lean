import Vetting.Format.Read
import Vetting.Json.Printer
import Vetting.Manifest.WellFormed
import Vetting.Manifest.InPlace
import Vetting.ValueTree.InPlace
import Vetting.Plan.InPlace
import Vetting.Plan.EdgeList
import Vetting.Rule.Catalogue
import Vetting.Run.Validation
import Vetting.Run.Tokens
import Vetting.Run.InPlace
import Vetting.Proofs.Fallible
import Vetting.Proofs.Json.Parts
import Vetting.Proofs.Manifest.Arena
import Vetting.Proofs.Manifest.InPlace
import Vetting.Proofs.Manifest.Position
import Vetting.Proofs.ValueTree.Confined
import Vetting.Proofs.ValueTree.Growth
import Vetting.Proofs.ValueTree.Placement
import Vetting.Proofs.ValueTree.Unfolded
import Vetting.Proofs.ValueTree.Termination
import Vetting.Proofs.Plan.Check
import Vetting.Proofs.Manifest.WellFormed
import Vetting.Proofs.Plan.Dependencies
import Vetting.Proofs.Plan.Setup
import Vetting.Proofs.Plan.Making
import Vetting.Proofs.Plan.Accumulation
import Vetting.Proofs.Plan.EdgeList
import Vetting.Proofs.Plan.Cycles
import Vetting.Proofs.Run.Reference
import Vetting.Proofs.Run.Settling
import Vetting.Proofs.Run.Steps
import Vetting.Proofs.Run.Waves
import Vetting.Proofs.Run.Regular
import Vetting.Proofs.Run.Discipline
import Vetting.Proofs.Run.Progress
import Vetting.Proofs.Run.Unwinding
import Vetting.Proofs.Run.Clock
import Vetting.Proofs.Run.Outcome
import Vetting.Proofs.Run.Cancellation
import Vetting.Proofs.Run.Earliest
import Vetting.Proofs.Run.Iterations
import Vetting.Proofs.Run.Schedule
import Vetting.Proofs.Run.Timing
import Vetting.Proofs.Run.WaveTimes
import Vetting.Proofs.Run.Tokens
import Vetting.Proofs.Run.Isolation
import Vetting.Proofs.Run.Reporting
import Vetting.Proofs.Run.LeastSettling
import Vetting.Proofs.Run.Ledger
import Vetting.Proofs.Plan.Projection
import Vetting.Proofs.Plan.Shape
import Vetting.Proofs.Manifest.Stability
import Vetting.Proofs.Manifest.Ancestry
import Vetting.Proofs.Manifest.Borrowing
import Vetting.Proofs.Manifest.References
import Vetting.Proofs.Plan.Faults
import Vetting.Proofs.ValueTree.InPlace
import Vetting.Proofs.ValueTree.DepthFirst
import Vetting.Proofs.ValueTree.Policies
import Vetting.Proofs.ValueTree.Shrinking
import Vetting.Proofs.ValueTree.ContextFree
