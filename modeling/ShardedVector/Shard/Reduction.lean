/-
# Numbers that summarise a vector

Each rank reduces its own entries, and the ranks fold their local results in rank order, so
that every rank obtains the same bits.  A norm may leave something to remember in the storage;
the shard that comes with it is the same vector.
-/
import ShardedVector.Merge
import ShardedVector.Shard.Basic

namespace ShardedVector

/-! ## 1. Sets of indices -/

/-- Inserts an index into an ascending list, unless it is there. -/
def insertIndex (i : UInt64) : List UInt64 → List UInt64
  | [] => [i]
  | j :: rest =>
    if i < j then i :: j :: rest else if i = j then j :: rest else j :: insertIndex i rest

/-- The ascending list of the indices that occur in a list. -/
def indexSet (indices : List UInt64) : List UInt64 := indices.foldr insertIndex []

namespace Shard

/-! ## 2. Reductions over all entries -/

def sum (v : Shard) : Attempt Binary64 :=
  Collective.reduceAll v.seat .reduce .sum v.storage.localSum

/-- The least entry; infinity if there is none. -/
def min (v : Shard) : Attempt Binary64 :=
  Collective.reduceAll v.seat .reduce .min v.storage.localMin

/-- The largest entry; minus infinity if there is none. -/
def max (v : Shard) : Attempt Binary64 :=
  Collective.reduceAll v.seat .reduce .max v.storage.localMax

/-- How the local parts of a norm are combined. -/
def normReduction : Norm → Reduction
  | .l1 | .l2 => .sum
  | .linf => .max

/-- What makes a norm of the combined parts. -/
def finishNorm : Norm → Binary64 → Binary64
  | .l2, x => x.sqrt
  | .l1, x | .linf, x => x

/-- A norm of the vector, and the shard that remembers its part of it. -/
def norm (v : Shard) (k : Norm) : Attempt Binary64 × Shard :=
  let (x, storage) := v.storage.normPartial k
  (do
    let total ← Collective.reduceAll v.seat .reduce (normReduction k) x
    return finishNorm k total,
   { v with storage := storage })

/-- The inner product with a vector of the same layout. -/
def inner (v w : Shard) : Attempt Binary64 := do
  Attempt.ofExcept (v.checkLayout w .inner)
  let x ← Attempt.ofExcept (v.storage.localDot w.storage)
  Collective.reduceAll v.seat .reduce .sum x

/-! ## 3. Reductions over some entries -/

/-- The entries on this rank whose index is in a list, in the order of the list. -/
def entriesAt (v : Shard) (indices : List UInt64) : List Binary64 :=
  (indices.filter v.owns).filterMap fun i =>
    v.storage.entry? (i - v.localRange.start).toNat

/-- Refuses the first index of a list that is out of range. -/
def checkIndices (v : Shard) (indices : List UInt64) : Except Error Unit :=
  match indices.find? fun i => decide (v.size ≤ i) with
  | some i => .error (.indexOutOfRange i.toNat v.size.toNat)
  | none => .ok ()

/-- The sum of the entries whose index occurs in the list of some rank, each taken once: the
ascending lists of all ranks are merged, and repetitions are dropped. -/
def sumEntries (v : Shard) (indices : List UInt64) : Attempt Binary64 := do
  Attempt.ofExcept (v.checkIndices indices)
  let lists ← Collective.allGatherRecords v.seat .sumEntries (indexSet indices)
  let x := Binary64.sum (v.entriesAt (mergeAll lists).eraseReps)
  Collective.reduceAll v.seat .reduce .sum x

end Shard

end ShardedVector
