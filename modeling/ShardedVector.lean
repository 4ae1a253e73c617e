import ShardedVector.Binary32
import ShardedVector.Binary64.Basic
import ShardedVector.Binary64.OfInt
import ShardedVector.Binary64.Scientific
import ShardedVector.Collective
import ShardedVector.Config
import ShardedVector.Decimal.Basic
import ShardedVector.Decimal.Scientific
import ShardedVector.Decimal.Shortest
import ShardedVector.Error
import ShardedVector.Factory
import ShardedVector.Ensemble.Basic
import ShardedVector.Ensemble.Settle
import ShardedVector.LittleEndian
import ShardedVector.Mailbox
import ShardedVector.Merge
import ShardedVector.Partition.Basic
import ShardedVector.Partition.Explicit
import ShardedVector.Program.Answer
import ShardedVector.Program.Command
import ShardedVector.Program.Exec
import ShardedVector.Reduction
import ShardedVector.Rehearsal
import ShardedVector.Routine
import ShardedVector.Scalar.Basic
import ShardedVector.Scalar.Promotion
import ShardedVector.Shard.Arithmetic
import ShardedVector.Shard.Basic
import ShardedVector.Shard.Edit
import ShardedVector.Shard.Gather
import ShardedVector.Shard.Reduction
import ShardedVector.Shard.Text
import ShardedVector.Slots
import ShardedVector.Storage.Backend
import ShardedVector.Storage.Basic
import ShardedVector.Storage.Blocked
import ShardedVector.Storage.Contiguous
import ShardedVector.Storage.Counted
import ShardedVector.Storage.Edit
import ShardedVector.Timing.Desk
import ShardedVector.Timing.Registry
import ShardedVector.Timing.Sample
import ShardedVector.Timing.Timer
import ShardedVector.Timing.Wrapper
import ShardedVector.Wire
import ShardedVector.Proofs.Ensemble.Conclusion
import ShardedVector.Proofs.Ensemble.Conversation
import ShardedVector.Proofs.Collective.Round
import ShardedVector.Proofs.Collective.Exchange
import ShardedVector.Proofs.Collective.Root
import ShardedVector.Proofs.Collective.Sequence
import ShardedVector.Proofs.Partition.Balanced
import ShardedVector.Proofs.Wire.Format
import ShardedVector.Proofs.Collective.Records
import ShardedVector.Proofs.Partition.Claims
import ShardedVector.Proofs.Partition.Owners
import ShardedVector.Proofs.Storage.Blocks
import ShardedVector.Proofs.Storage.Entries
import ShardedVector.Proofs.Shard.Spread
import ShardedVector.Proofs.Shard.Gather
import ShardedVector.Proofs.Shard.Redistribute
import ShardedVector.Proofs.Shard.Mirror
import ShardedVector.Proofs.Program.Refinement
import ShardedVector.Proofs.Collective.Oversized
import ShardedVector.Proofs.Collective.Leftovers
import ShardedVector.Proofs.Merge.Heap
import ShardedVector.Proofs.Merge.IndexSet
import ShardedVector.Proofs.Shard.SumEntries
import ShardedVector.Proofs.Storage.Alike
import ShardedVector.Proofs.Storage.Remembered
import ShardedVector.Proofs.Ensemble.Ends
import ShardedVector.Proofs.Collective.Settles
import ShardedVector.Proofs.Shard.InPlace
import ShardedVector.Proofs.Shard.WellFormed
import ShardedVector.Proofs.Shard.Guarded
import ShardedVector.Proofs.Shard.Reachable
import ShardedVector.Proofs.Shard.Refusal
import ShardedVector.Proofs.Program.Refusal
import ShardedVector.Proofs.Shard.Verdict
import ShardedVector.Proofs.Mailbox.Threads
import ShardedVector.Proofs.Ensemble.Marks
import ShardedVector.Proofs.Collective.Rendezvous
import ShardedVector.Proofs.Shard.Attendance
import ShardedVector.Proofs.Shard.Aged
import ShardedVector.Proofs.Shard.Summary
import ShardedVector.Proofs.Binary64.Extremum
import ShardedVector.Proofs.Shard.Extrema
import ShardedVector.Proofs.Binary64.Nearest
import ShardedVector.Proofs.Scalar.Promotion
import ShardedVector.Proofs.Ensemble.Answers
import ShardedVector.Proofs.Collective.Faults
import ShardedVector.Proofs.Shard.Faults
import ShardedVector.Proofs.Shard.GatherOnZero
import ShardedVector.Proofs.Shard.Target
import ShardedVector.Proofs.Timing.Registry
import ShardedVector.Proofs.Timing.Calls
import ShardedVector.Proofs.Timing.Ledger
import ShardedVector.Proofs.Timing.Readers
import ShardedVector.Proofs.Ensemble.Logs
import ShardedVector.Proofs.Shard.Noted
import ShardedVector.Proofs.Program.Timings
import ShardedVector.Proofs.Storage.Requests
import ShardedVector.Proofs.Storage.Refusal
import ShardedVector.Proofs.Storage.Places
