/-
# One rank's share of a distributed vector

A distributed vector is an array of entries under global indices, cut among the ranks of a
group.  A `Shard` is the share of one rank: its seat in the group, the partition of the
indices, and the storage of its own entries.  A shard without a partition is unbound; it holds
no entries and counts as a vector of size zero.

An instrumented shard times its conversations: every one of them ends with a note of the task
it was.
-/
import ShardedVector.Partition.Explicit
import ShardedVector.Storage.Basic

namespace ShardedVector

structure Shard where
  seat : Seat
  layout : Option Partition
  storage : Storage
  instrumented : Bool
deriving DecidableEq

namespace Shard

/-! ## 1. Making -/

/-- An unbound shard. -/
def unbound (seat : Seat) (backend : Backend) : Shard :=
  ⟨seat, none, .create backend 0, true⟩

/-- The same shard, laid out by a partition and full of zeros. -/
def bind (v : Shard) (p : Partition) : Shard :=
  { v with layout := some p, storage := v.storage.reset p.localSize }

/-- Lays the vector out evenly, full of zeros. -/
def initSize (v : Shard) (n : UInt64) : Shard := v.bind (.balanced v.seat n)

/-- A vector of `n` zeros, laid out evenly. -/
def ofSize (seat : Seat) (n : UInt64) (backend : Backend) : Shard :=
  (unbound seat backend).initSize n

/-- Notes an interval of a task at the end of an attempt, on an instrumented shard. -/
def timed {α : Type} (v : Shard) (task : String) (a : Attempt α) : Attempt α :=
  if v.instrumented then a.timed task else a

def partitionTask : String := "la: create partition"

/-- Lays the vector out by the ranges that the ranks claim, full of zeros.  Every rank takes
part; when the claims are refused the shard stays as it is. -/
def init (v : Shard) (claim : Span) : Attempt Shard := do
  let p ← v.timed partitionTask (Partition.explicit v.seat claim)
  return v.bind p

/-- A copy of the shard. -/
def copy (v : Shard) : Shard := { v with storage := v.storage.copy }

/-! ## 2. Asking -/

def backend (v : Shard) : Backend := v.storage.backend

def capabilities (v : Shard) : Capabilities := v.storage.capabilities

def isBound (v : Shard) : Bool := v.layout.isSome

/-- The number of entries on all ranks. -/
def size (v : Shard) : UInt64 :=
  match v.layout with
  | some p => p.size
  | none => 0

/-- The number of entries on this rank. -/
def localSize (v : Shard) : Nat := v.storage.size

/-- The global indices on this rank. -/
def localRange (v : Shard) : Span :=
  match v.layout with
  | some p => p.localRange
  | none => ⟨0, 0⟩

/-- Whether a global index is on this rank. -/
def owns (v : Shard) (index : UInt64) : Bool :=
  match v.layout with
  | some p => p.owns index
  | none => false

/-- The rank on which a global index is. -/
def ownerOf? (v : Shard) (index : UInt64) : Option Nat :=
  match v.layout with
  | some p => p.ownerOf? index
  | none => none

/-- The entries on this rank, in order. -/
def toList (v : Shard) : List Binary64 := v.storage.toList

/-- Whether every rank has the same range in both vectors; an unbound vector has the layout of
every vector of size zero. -/
def sameLayout (v w : Shard) : Bool :=
  match v.layout, w.layout with
  | some p, some q => p.sameLayout q
  | none, none => true
  | some p, none | none, some p => decide (p.size = 0)

/-- Sizes that must match across the group. -/
def checkGlobalSize (op : Operation) (expected found : UInt64) : Except Error Unit :=
  if expected = found then .ok ()
  else .error (.dimensionMismatch op expected.toNat found.toNat)

/-- Layouts that must match: first the sizes are compared, then the ranges. -/
def checkLayout (v w : Shard) (op : Operation) : Except Error Unit := do
  checkGlobalSize op v.size w.size
  if v.sameLayout w then .ok () else .error (.incompatibleLayout op)

/-! ## 3. Taking over entries -/

/-- The shard with another storage, if it was not refused. -/
def withStorage (v : Shard) (outcome : Except Error Storage) : Except Error Shard :=
  match outcome with
  | .ok storage => .ok { v with storage := storage }
  | .error e => .error e

/-- Takes over the entries of a vector of the same layout. -/
def assign (v w : Shard) : Except Error Shard := do
  v.checkLayout w .assign
  v.withStorage (v.storage.setLocal w.toList)

/-- Adds a multiple of a vector of the same layout. -/
def axpy (v : Shard) (a : Binary64) (w : Shard) : Except Error Shard := do
  v.checkLayout w .axpy
  v.withStorage (v.storage.axpy a w.storage)

/-- Ends a round of changes: every rank waits for every rank. -/
def apply (v : Shard) (_mode : ApplyMode) : Attempt Unit := Collective.barrier v.seat .apply

end Shard

end ShardedVector
