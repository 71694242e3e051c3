import TemporalGraph.Compiler.Template
import TemporalGraph.Concurrent
import TemporalGraph.Config.Environment
import TemporalGraph.Document.File
import TemporalGraph.Proofs.Concurrent.Completion
import TemporalGraph.Proofs.Instant.Reading
import TemporalGraph.Proofs.Plan.Construction
import TemporalGraph.Proofs.Plan.Forward
import TemporalGraph.Proofs.Plan.Maintenance
import TemporalGraph.Proofs.Plan.Redirection
import TemporalGraph.Proofs.Plan.RootMatch
import TemporalGraph.Proofs.Plan.Widening
import TemporalGraph.Proofs.Plan.WindowFilter
import TemporalGraph.Proofs.Regex.Spans
import TemporalGraph.Proofs.Runner.Audit
import TemporalGraph.Proofs.Runner.Versions
import TemporalGraph.Proofs.Schema.LinkNames
import TemporalGraph.Proofs.Schema.Refusal
import TemporalGraph.Proofs.Schema.RoundTrip
import TemporalGraph.Proofs.Schema.SecondPass
import TemporalGraph.Proofs.Schema.Sharing
import TemporalGraph.Proofs.Timeline.Change
import TemporalGraph.Proofs.Timeline.ReadInstant
import TemporalGraph.Proofs.VersionedSchema.Dispatch
import TemporalGraph.Proofs.VersionedSchema.Policy
import TemporalGraph.Regex.Replace
import TemporalGraph.Runner
import TemporalGraph.Session.Factory
