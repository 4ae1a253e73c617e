/-
# Programs over named vectors

A program is a list of commands that every rank of a group runs in the same order, each rank
with its own operands.  Commands name the vectors, partitions and factories they work on; `Row`
is the payload of the collectives that carry records.
-/
import ShardedVector.Config
import ShardedVector.Reduction
import ShardedVector.Scalar.Basic
import ShardedVector.Shard.Arithmetic
import ShardedVector.Shard.Edit

namespace ShardedVector

/-! ## 1. Operands -/

/-- A row of records of one of three types. -/
inductive Row where
  | words (items : List UInt64)
  | entries (items : List Binary64)
  | spans (items : List Span)
deriving DecidableEq

/-- Several rows of records of one type. -/
inductive Rows where
  | words (rows : List (List UInt64))
  | entries (rows : List (List Binary64))
  | spans (rows : List (List Span))
deriving DecidableEq

/-- What is asked about a partition beside its sizes: the owners of some indices, and the
ranges of some ranks. -/
structure PartitionQuestion where
  indices : Option (List UInt64)
  ranks : Option (List Nat)
deriving DecidableEq

/-- What is asked about a vector. -/
inductive Question where
  | info
  | entries
  | owns (indices : List UInt64)
  | describe (verbose : Bool)
  | debug
  | backendDetail
  | partition (question : PartitionQuestion)
  | entry (i : Nat)
  | view
deriving DecidableEq

/-- Where the settings of a vector of one process come from. -/
inductive Maker where
  | factory (slot : String)
  | backend (name : String)
deriving DecidableEq

/-! ## 2. Commands -/

inductive Command where
  -- making vectors and factories
  | makeEmpty (v backend : String)
  | makeOfSize (v : String) (n : UInt64) (backend : String)
  | copy (v w : String)
  | initSize (v : String) (n : UInt64)
  | init (v : String) (claim : Span)
  | drop (v : String)
  | factoryOfConfig (f : String) (config : Document)
  | factoryOfBackend (f backend : String)
  | create (f v : String) (n : Option UInt64)
  | makeLocal (t : String) (maker : Maker) (n : Option UInt64) (fill : Option Binary64)
  -- asking
  | ask (v : String) (question : Question)
  | localInfo (t : String)
  | sameLayout (v w : String)
  | sameLayoutLocal (v t : String)
  -- partitions
  | partition (p : String) (n : UInt64) (question : PartitionQuestion)
  | partitionExplicit (p : String) (claim : Span) (question : PartitionQuestion)
  | samePartition (p q : String)
  | redistribute (v p : String)
  -- local entries
  | edit (v : String) (change : LocalEdit)
  | assign (v w : String)
  | axpy (v w : String) (a : Binary64)
  | apply (v mode : String)
  -- arithmetic
  | combineAssign (v : String) (sign : Sign) (w : String)
  | numberAssign (v : String) (sign : Sign) (x : Binary64)
  | scalarAssign (v : String) (sign : Sign) (s : Scalar)
  | combine (v w : String) (sign : Sign) (u : String)
  | scalarRight (v w : String) (sign : Sign) (s : Scalar)
  | scalarLeft (v : String) (s : Scalar) (sign : LeftSign) (w : String)
  -- reductions
  | sum (v : String)
  | min (v : String)
  | max (v : String)
  | norm (v kind : String)
  | inner (v w : String)
  | sumEntries (v : String) (indices : List UInt64)
  -- gathering
  | gather (v : String) (indices : List UInt64)
  | gatherOnZero (v : String)
  | gatherIntoLocal (v t : String) (indices : List UInt64)
  | gatherInto (v w : String) (indices : List UInt64)
  -- plain collectives
  | allGather (tag : Tag) (buffer : Bytes)
  | allToAll (tag : Tag) (buffers : List Bytes)
  | gatherTo (tag : Tag) (root : Nat) (buffer : Bytes)
  | barrier (tag : Tag)
  | allGatherRow (tag : Tag) (row : Row)
  | gatherRowTo (tag : Tag) (root : Nat) (row : Row)
  | allToAllRows (tag : Tag) (rows : Rows)
  | reduceAll (tag : Tag) (op : Reduction) (x : Binary64)

end ShardedVector
