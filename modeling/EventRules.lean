import EventRules.Main
import EventRules.Proofs.Chain.Extremes
import EventRules.Proofs.Chain.HitRate
import EventRules.Proofs.Chain.Slicing
import EventRules.Proofs.Chain.Sliding
import EventRules.Proofs.Lowering.Branching
import EventRules.Proofs.Lowering.Ownership
import EventRules.Proofs.Lowering.Pipelines
import EventRules.Proofs.Lowering.Strictness
import EventRules.Proofs.Matching.Clearing
import EventRules.Proofs.Matching.Composition
import EventRules.Proofs.Matching.Constants
import EventRules.Proofs.Matching.Diagnosis
import EventRules.Proofs.Matching.Folding
import EventRules.Proofs.Matching.Locality
import EventRules.Proofs.Matching.Parameters
import EventRules.Proofs.Matching.Progress
import EventRules.Proofs.Matching.Ranges
import EventRules.Proofs.Matching.Rejection
import EventRules.Proofs.Matching.Resolution
import EventRules.Proofs.Matching.Restarting
import EventRules.Proofs.Matching.Stacking
import EventRules.Proofs.Monitor.Counting
import EventRules.Proofs.Monitor.Waiting
import EventRules.Proofs.Rule.Driving
import EventRules.Proofs.Rule.Grouping
import EventRules.Proofs.Rule.Interchange
import EventRules.Proofs.Rule.Lexemes
import EventRules.Proofs.Rule.RoundTrip
import EventRules.Proofs.Rule.Spacing
import EventRules.Proofs.Rule.Speculation
import EventRules.Proofs.Run.Verdicts
import EventRules.Proofs.Number.Rounding
import EventRules.Proofs.Number.Exactness
import EventRules.Proofs.Number.Notation
import EventRules.Proofs.Number.Wholes
import EventRules.Proofs.Value.Comparing
import EventRules.Proofs.Chain.Summing
import EventRules.Proofs.Value.Calculating
import EventRules.Proofs.Exchange.Definitions
import EventRules.Proofs.Lowering.Stages
import EventRules.Proofs.Run.Preserving
import EventRules.Proofs.Arrow.Calls
import EventRules.Proofs.Arrow.Advancing
import EventRules.Proofs.Json.Pieces
import EventRules.Proofs.Json.Values
import EventRules.Proofs.Exchange.Lines
import EventRules.Proofs.Json.Printing
import EventRules.Proofs.Number.Finiteness
import EventRules.Proofs.Json.Holding
import EventRules.Proofs.Exchange.Replay
import EventRules.Proofs.Rule.Recognition
