import WeightedStore.Attribute.Basic
import WeightedStore.Attribute.DataType
import WeightedStore.Attribute.Instances
import WeightedStore.Binary.Arithmetic
import WeightedStore.Binary.Format
import WeightedStore.Bytes.Decoder
import WeightedStore.Bytes.Fault
import WeightedStore.Bytes.Field
import WeightedStore.Bytes.Scalar
import WeightedStore.Command.Arguments
import WeightedStore.Command.CsvRow
import WeightedStore.Command.Failure
import WeightedStore.Command.Run
import WeightedStore.Command.Search
import WeightedStore.Decimal.Fixed
import WeightedStore.Decimal.Numeral
import WeightedStore.Decimal.Shortest
import WeightedStore.Files.Change
import WeightedStore.Files.Fault
import WeightedStore.Files.Path
import WeightedStore.Files.System
import WeightedStore.Files.Tree
import WeightedStore.Index.Basic
import WeightedStore.Index.Description
import WeightedStore.Index.Error
import WeightedStore.Index.Hash
import WeightedStore.Index.HashRange
import WeightedStore.Index.Range
import WeightedStore.Json.Basic
import WeightedStore.Json.Printer
import WeightedStore.Json.Reader
import WeightedStore.Json.Record
import WeightedStore.Main
import WeightedStore.Neighborhood.Basic
import WeightedStore.Neighborhood.Columns
import WeightedStore.Neighborhood.Group
import WeightedStore.Neighborhood.Order
import WeightedStore.Neighborhood.Sampling
import WeightedStore.Node.Error
import WeightedStore.Node.Features
import WeightedStore.Node.Offsets
import WeightedStore.Node.Record
import WeightedStore.Query.Condition
import WeightedStore.Query.Operator
import WeightedStore.Random.Draw
import WeightedStore.Selection.Basic
import WeightedStore.Selection.Buckets
import WeightedStore.Selection.Cut
import WeightedStore.Selection.Listing
import WeightedStore.Selection.Span
import WeightedStore.Shard.Catalog
import WeightedStore.Shard.Config
import WeightedStore.Text.Blank
import WeightedStore.Text.Integer
import WeightedStore.Text.Pieces
import WeightedStore.Weighted.Alias
import WeightedStore.Weighted.Bisect
import WeightedStore.Weighted.Pool
import WeightedStore.Weighted.Running
import WeightedStore.Proofs.Selection.Runs
import WeightedStore.Proofs.Index.RangeOrder
import WeightedStore.Proofs.Query.Operands
import WeightedStore.Proofs.Index.RangeSearch
import WeightedStore.Proofs.Index.RangeAlgebra
import WeightedStore.Proofs.Index.RangeMerge
import WeightedStore.Proofs.Bytes.Records
import WeightedStore.Proofs.Selection.Labels
import WeightedStore.Proofs.Index.HashOrder
import WeightedStore.Proofs.Binary.Rounding
import WeightedStore.Proofs.Decimal.ReadBack
import WeightedStore.Proofs.Attribute.Labels
import WeightedStore.Proofs.Index.HashSearch
import WeightedStore.Proofs.Index.HashAlgebra
import WeightedStore.Proofs.Attribute.Keyed
import WeightedStore.Proofs.Index.BucketMerge
import WeightedStore.Proofs.Index.HashMerge
import WeightedStore.Proofs.Attribute.Storage
import WeightedStore.Proofs.Index.Segments
import WeightedStore.Proofs.Index.Concatenation
import WeightedStore.Proofs.Index.Invariants
import WeightedStore.Proofs.Index.RoundTrip
import WeightedStore.Proofs.Index.RangeTotals
import WeightedStore.Proofs.Index.RangeReload
import WeightedStore.Proofs.Index.MergedWeights
import WeightedStore.Proofs.Query.Keys
import WeightedStore.Proofs.Index.Contributions
import WeightedStore.Proofs.Index.Histories
import WeightedStore.Proofs.Index.HashRangeSearch
import WeightedStore.Proofs.Binary.Amounts
import WeightedStore.Proofs.Weighted.Totals
import WeightedStore.Proofs.Binary.Comparison
import WeightedStore.Proofs.Node.Offsets
import WeightedStore.Proofs.Node.Records
import WeightedStore.Proofs.Node.StoredColumns
import WeightedStore.Proofs.Neighborhood.Built
import WeightedStore.Proofs.Neighborhood.Consistency
import WeightedStore.Proofs.Node.RoundTrip
import WeightedStore.Proofs.Neighborhood.Merging
import WeightedStore.Proofs.Weighted.Checked
import WeightedStore.Proofs.Neighborhood.Flat
import WeightedStore.Proofs.Neighborhood.FlatMerging
import WeightedStore.Proofs.Neighborhood.FlatSampling
import WeightedStore.Proofs.Node.FlatFeatures
import WeightedStore.Proofs.Node.InRange
import WeightedStore.Proofs.Binary.Errors
import WeightedStore.Proofs.Weighted.Sums
import WeightedStore.Proofs.Weighted.Leftover
import WeightedStore.Proofs.Weighted.Shares
import WeightedStore.Proofs.Weighted.Answers
import WeightedStore.Proofs.Weighted.Outcomes
import WeightedStore.Proofs.Neighborhood.Requests
import WeightedStore.Proofs.Neighborhood.StableMerging
import WeightedStore.Proofs.Neighborhood.Heaviest
import WeightedStore.Proofs.Neighborhood.Attempts
import WeightedStore.Proofs.Neighborhood.Sampled
import WeightedStore.Proofs.Weighted.Weightless
import WeightedStore.Proofs.Neighborhood.GivingUp
import WeightedStore.Proofs.Selection.Sampling
import WeightedStore.Proofs.Index.Parts
import WeightedStore.Proofs.Shard.Partition
import WeightedStore.Proofs.Index.Refusals
import WeightedStore.Proofs.Index.Mismatches
import WeightedStore.Proofs.Attribute.ReadBack
import WeightedStore.Proofs.Query.Lists
import WeightedStore.Proofs.Index.ListSearch
import WeightedStore.Bytes.Sequence
import WeightedStore.Proofs.Bytes.Sequence
import WeightedStore.Proofs.Bytes.Failures
import WeightedStore.Proofs.Index.KeySearch
import WeightedStore.Proofs.Weighted.Landing
import WeightedStore.Proofs.Weighted.Settlings
import WeightedStore.Proofs.Node.ColumnLists
import WeightedStore.Proofs.Neighborhood.Faults
import WeightedStore.Proofs.Command.BuildRange
