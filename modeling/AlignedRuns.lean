import AlignedRuns.Description
import AlignedRuns.Diagnosis
import AlignedRuns.History
import AlignedRuns.IndexMap.Neighbours
import AlignedRuns.Tampering
import AlignedRuns.Proofs.Cuts
import AlignedRuns.Proofs.Entries
import AlignedRuns.Proofs.Holdings
import AlignedRuns.Proofs.Canonical
import AlignedRuns.Proofs.Requests
import AlignedRuns.Proofs.Batches
import AlignedRuns.Proofs.Reachability
import AlignedRuns.Proofs.Restoring
import AlignedRuns.Proofs.Coverage
import AlignedRuns.Proofs.Diagnosis
import AlignedRuns.Proofs.Acceptance
import AlignedRuns.Proofs.RequestLaws
import AlignedRuns.Proofs.Vacancy
import AlignedRuns.Proofs.Capacity
import AlignedRuns.Proofs.Tilings
import AlignedRuns.Proofs.Endings
import AlignedRuns.Proofs.Replay
import AlignedRuns.Proofs.Settlement
import AlignedRuns.Proofs.Lines
import AlignedRuns.Proofs.Accounts
import AlignedRuns.Proofs.Parameters
import AlignedRuns.Proofs.Detection
import AlignedRuns.Proofs.Placement
import AlignedRuns.Proofs.BatchPlacement
import AlignedRuns.Proofs.FreeGaps
import AlignedRuns.Proofs.BatchRelease
import AlignedRuns.Proofs.Shape
import AlignedRuns.Proofs.Carving
import AlignedRuns.Proofs.Merging
import AlignedRuns.Proofs.Sweep
import AlignedRuns.Proofs.Clashes
import AlignedRuns.Proofs.Boundaries
import AlignedRuns.Proofs.Strays
import AlignedRuns.Proofs.Ink
import AlignedRuns.Proofs.Descriptions
import AlignedRuns.Proofs.Edits
import AlignedRuns.Proofs.Walks
import AlignedRuns.Proofs.PastTheEnd
import AlignedRuns.Proofs.SizeCounts
import AlignedRuns.Proofs.Words
