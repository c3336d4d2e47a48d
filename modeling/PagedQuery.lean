import PagedQuery.Json.OperatorForm
import PagedQuery.Plan
import PagedQuery.Reference
import PagedQuery.Sample
import PagedQuery.RunFile.Session
import PagedQuery.Storage.Listing
import PagedQuery.Proofs.RunReading
import PagedQuery.Proofs.RunRoundTrip
import PagedQuery.Proofs.ActAnswers
import PagedQuery.Proofs.CursorPages
import PagedQuery.Proofs.FieldOrder
import PagedQuery.Proofs.StableOrder
import PagedQuery.Proofs.KeyOrder
import PagedQuery.Proofs.LaneMerge
import PagedQuery.Proofs.Paging
import PagedQuery.Proofs.RunNames
import PagedQuery.Proofs.StoredRuns
import PagedQuery.Proofs.RunGeneration
import PagedQuery.Proofs.MergePasses
import PagedQuery.Proofs.ExternalSort
import PagedQuery.Proofs.LongPages
import PagedQuery.Proofs.BandJoin
import PagedQuery.Proofs.SortMergeJoin
import PagedQuery.Proofs.CallHistories
import PagedQuery.Proofs.WorkingFolders
import PagedQuery.Proofs.JoinFolders
import PagedQuery.Proofs.PageMachine
import PagedQuery.Proofs.TypedRows
import PagedQuery.Proofs.OperatorFeeds
import PagedQuery.Proofs.AggregateFeed
import PagedQuery.Proofs.JoinFeed
import PagedQuery.Proofs.OpeningFaults
import PagedQuery.Proofs.PlanMachine
import PagedQuery.Proofs.PlanAnswers
import PagedQuery.Proofs.Reopening
import PagedQuery.Proofs.ClosedOperators
import PagedQuery.Proofs.RetriedOpening
import PagedQuery.Proofs.PackedPages
import PagedQuery.Proofs.PackedOperators
import PagedQuery.Proofs.PlacedRows
import PagedQuery.Proofs.PlacedPairs
import PagedQuery.Proofs.MergeCounters
import PagedQuery.Proofs.DistinctRows
import PagedQuery.Proofs.ColumnFolds
import PagedQuery.Proofs.AggregateAnswers
import PagedQuery.Proofs.CutRuns
import PagedQuery.Proofs.FieldOrderLaws
import PagedQuery.Proofs.NumericOrder
import PagedQuery.Proofs.BoundedPages
import PagedQuery.Proofs.RunningSums
import PagedQuery.Proofs.AggregateInputs
import PagedQuery.Proofs.FailedReads
import PagedQuery.Proofs.LocalScans
import PagedQuery.Proofs.PackedBlocks
import PagedQuery.Proofs.QualifiedNames
import PagedQuery.Proofs.GroupMerge
import PagedQuery.Proofs.HashedFields
import PagedQuery.Proofs.TrackedRuns
import PagedQuery.Proofs.PendingBands
