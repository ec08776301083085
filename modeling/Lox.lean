import Lox.Main
import Lox.Proofs.Parsing.Steps
import Lox.Proofs.Evaluation.Primitives
import Lox.Environment
import Lox.Syntax.Outline
import Lox.Proofs.Parsing.Modes
import Lox.Proofs.Parsing.Acceptance
import Lox.Proofs.Scoping.Simulation
import Lox.Proofs.Scoping.Jumps
import Lox.Proofs.Scoping.Searching
import Lox.Proofs.Parsing.Enclosing
import Lox.Proofs.Sessions.Rejecting
import Lox.Proofs.Sessions.Restoring
import Lox.Proofs.Sessions.Joining
import Lox.Proofs.Layout.Running
import Lox.Proofs.Receivers.Soundness
import Lox.Proofs.Renaming.Programs
import Lox.Proofs.Sessions.CallDepth
import Lox.Proofs.CommandLine.Exiting
import Lox.Proofs.Reachability.Calls
import Lox.Proofs.Resolution.Exactness
import Lox.Proofs.Scanning.Partition
import Lox.Proofs.Scanning.RoundTrip
import Lox.Proofs.Recovery.Progress
import Lox.Proofs.Recovery.Joining
import Lox.Proofs.Locations.Reporting
import Lox.Proofs.Spans.Exactness
import Lox.Proofs.CommandLine.Reading
import Lox.Proofs.CommandLine.Configuring
import Lox.Proofs.Diagnostic.Rendering
import Lox.Proofs.Sessions.Echoing
import Lox.Proofs.Increments.Programs
