import CallTrace.CommandLine.Report
import CallTrace.Main
import CallTrace.Proofs.Degradations
import CallTrace.Proofs.EventLimit
import CallTrace.Proofs.Expression.RoundTrip
import CallTrace.Proofs.Filling
import CallTrace.Proofs.ListForest
import CallTrace.Proofs.Locals
import CallTrace.Proofs.Parser.Bodies
import CallTrace.Proofs.Probes
import CallTrace.Proofs.Reconstruction
import CallTrace.Proofs.Scopes
import CallTrace.Proofs.Statement.RoundTrip
import CallTrace.Proofs.Termination
import CallTrace.Proofs.Token.RoundTrip
import CallTrace.Proofs.ValueSemantics
import CallTrace.Proofs.WellFormed
import CallTrace.Proofs.LineShift
import CallTrace.Proofs.CallTree
import CallTrace.Proofs.Targets
import CallTrace.Proofs.Results
import CallTrace.Proofs.WindowedReplay
import CallTrace.Proofs.StepProbes
import CallTrace.Proofs.LoopLines
import CallTrace.Proofs.References
import CallTrace.Proofs.Integers
import CallTrace.Proofs.FormattedOutput
import CallTrace.Proofs.DriverGaps
import CallTrace.Proofs.Gathering
import CallTrace.Proofs.Visibility
import CallTrace.Proofs.Heap.Separation
import CallTrace.Proofs.TextInputs
