/-
# Answers to commands

Each command is answered by each rank.  `Answer` lists the forms that an answer can take; a
refused command is answered by its error.
-/
import ShardedVector.Program.Command
import ShardedVector.Shard.Text

namespace ShardedVector

/-! ## 1. Descriptions -/

/-- What can be asked of every vector. -/
structure ShardInfo where
  backend : Backend
  bound : Bool
  size : Nat
  localSize : Nat
  range : Span
  capabilities : Capabilities
  seat : Seat
deriving DecidableEq

/-- The part of a storage that only its backend has: the length of an array, a count of
accesses, a number of blocks. -/
inductive BackendDetail where
  | length (n : Nat)
  | state (count : UInt64)
  | blocks (n : Nat)
deriving DecidableEq

/-- A partition as one rank sees it, with answers to what was asked. -/
structure PartitionInfo where
  size : Nat
  range : Span
  localSize : Nat
  rankCount : Nat
  owners : Option (List (Option Nat))
  owns : Option (List Bool)
  ranges : Option (List Span)
deriving DecidableEq

/-! ## 2. Answers -/

inductive Answer where
  | nothing
  | flag (value : Bool)
  | flags (values : List Bool)
  | text (value : String)
  | entry (value : Option Binary64)
  | entries (values : List Binary64)
  | number (value : Binary64)
  /-- A number found by comparison, whose sign does not count if it is zero. -/
  | extremum (value : Binary64)
  | buffers (values : List Bytes)
  | rows (values : Rows)
  | info (info : ShardInfo)
  | localInfo (info : ShardInfo) (entries : List Binary64)
  | backendDetail (detail : BackendDetail)
  | partition (info : Option PartitionInfo)
  | factory (backend : Backend) (seat : Seat)
  | refused (error : Error)
  | invalidConfig
  /-- The command names a slot that holds nothing. -/
  | noSlot (name : String)
deriving DecidableEq

/-! ## 3. Asking a partition, a storage and a shard -/

def Partition.info (p : Partition) (q : PartitionQuestion) : PartitionInfo where
  size := p.size.toNat
  range := p.localRange
  localSize := p.localSize
  rankCount := p.rankCount
  owners := q.indices.map fun is => is.map p.ownerOf?
  owns := q.indices.map fun is => is.map p.owns
  ranges := q.ranks.map fun rs => rs.map p.rangeOf

def Storage.detail : Storage → BackendDetail
  | .dense a => .length a.size
  | .petsc a => .state a.state
  | .tpetra b => .blocks b.blockCount

namespace Shard

def info (v : Shard) : ShardInfo where
  backend := v.backend
  bound := v.isBound
  size := v.size.toNat
  localSize := v.localSize
  range := v.localRange
  capabilities := v.capabilities
  seat := v.seat

/-- The answer to a question about a shard. -/
def ask (v : Shard) : Question → Answer
  | .info => .info v.info
  | .entries => .entries v.toList
  | .owns indices => .flags (indices.map v.owns)
  | .describe verbose => .text (v.describe verbose)
  | .debug => .text v.debugText
  | .backendDetail => .backendDetail v.storage.detail
  | .partition question => .partition (v.layout.map fun p => p.info question)
  | .entry i => .entry (v.storage.entry? i)
  | .view =>
    match v.storage.view with
    | .ok entries => .entries entries
    | .error e => .refused e

end Shard

end ShardedVector
