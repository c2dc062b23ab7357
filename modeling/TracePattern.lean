import TracePattern.Assertion
import TracePattern.Captures.Json
import TracePattern.Captures.Shelf
import TracePattern.Config
import TracePattern.Json.Reader
import TracePattern.Pool.Desk
import TracePattern.Proofs.Family.Groups
import TracePattern.Proofs.Isolation
import TracePattern.Proofs.Thread.Run
import TracePattern.Record.Json
import TracePattern.Roster
import TracePattern.Script
import TracePattern.Sink
import TracePattern.Wait
import TracePattern.Wire
import TracePattern.Proofs.Erasure
import TracePattern.Proofs.Family.Share
import TracePattern.Proofs.Place
import TracePattern.Proofs.Pool.Archive
import TracePattern.Proofs.Report.Ends
import TracePattern.Proofs.Report.Visits
import TracePattern.Proofs.Report.Collect
import TracePattern.Proofs.Pool.Moves
import TracePattern.Proofs.Pool.Books
import TracePattern.Proofs.Pool.Retention
import TracePattern.Proofs.Digits
import TracePattern.Proofs.Double.Nearest
import TracePattern.Proofs.Double.RoundTrip
import TracePattern.Proofs.Time.Calendar
import TracePattern.Proofs.Time.RoundTrip
import TracePattern.Proofs.Value.Plain
import TracePattern.Proofs.Value.RoundTrip
import TracePattern.Proofs.Value.Wire
import TracePattern.Proofs.Broadcast
import TracePattern.Proofs.Encounter.Captures
import TracePattern.Proofs.Growth
import TracePattern.Proofs.Memory.Afresh
import TracePattern.Proofs.Memory.Seeded
import TracePattern.Proofs.Flattening.Run
import TracePattern.Proofs.Value.Symbol
import TracePattern.Proofs.Defect
import TracePattern.Proofs.Captures.Drawers
import TracePattern.Proofs.Stack
import TracePattern.Proofs.Verdict
