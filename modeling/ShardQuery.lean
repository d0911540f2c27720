import ShardQuery.Proofs.Fetch.Lossless
import ShardQuery.Proofs.Merge.Duplicates
import ShardQuery.Proofs.Merge.Partitions
import ShardQuery.Proofs.Merge.Shards
import ShardQuery.Proofs.Merge.Staging
import ShardQuery.Proofs.Operator.Arithmetic
import ShardQuery.Proofs.Operator.ArrivalOrder
import ShardQuery.Proofs.Operator.Collecting
import ShardQuery.Proofs.Operator.Notes
import ShardQuery.Proofs.Operator.Resumption
import ShardQuery.Proofs.Operator.SortedGroups
import ShardQuery.Proofs.Operator.Sorting
import ShardQuery.Proofs.Operator.Sums
import ShardQuery.Proofs.Plan.Aggregates
import ShardQuery.Proofs.Plan.Evaluation
import ShardQuery.Proofs.Plan.Json
import ShardQuery.Proofs.Session.Capacity
import ShardQuery.Proofs.Session.Chains
import ShardQuery.Proofs.Session.Counters
import ShardQuery.Proofs.Session.Defects
import ShardQuery.Proofs.Session.Distinct
import ShardQuery.Proofs.Session.History
import ShardQuery.Proofs.Session.Independence
import ShardQuery.Proofs.Session.Naming
import ShardQuery.Proofs.Session.Ranking
import ShardQuery.Proofs.Session.Refusal
import ShardQuery.Proofs.Session.Retry
import ShardQuery.Proofs.Session.RowLimits
import ShardQuery.Proofs.Session.Sizing
import ShardQuery.Proofs.Session.Transparency
import ShardQuery.Proofs.Value.Hashing
import ShardQuery.Proofs.Value.Preorder
import ShardQuery.Session.Direct
import ShardQuery.Session.Schedule
