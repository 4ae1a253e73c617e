/-
# Who owns which part of the index space

A `Partition` cuts the global indices `0 … n - 1` into one contiguous range for each rank of
a group, in rank order.  Every rank keeps the whole table of offsets: the start of each range
and, at the end, `n`.  So the owner of an index and the comparison of two layouts are found
without asking anybody, and come out the same on every rank.  A range may be empty, and then
two neighbouring offsets are equal.

`Partition.balanced` cuts evenly: the ranges have the length `n / size`, and the lowest
`n % size` ranks hold one index more.
-/
import ShardedVector.Routine
import ShardedVector.Wire

namespace ShardedVector

/-! ## 1. The even cut -/

/-- The range of `rank` when `n` indices are cut evenly among `size` ranks; a group without
ranks counts as one of a single rank. -/
def balancedRange (rank size : Nat) (n : UInt64) : Span :=
  let parts := UInt64.ofNat (Nat.max size 1)
  let r := UInt64.ofNat rank
  let block := n / parts
  let rest := n % parts
  let start := r * block + (if r ≤ rest then r else rest)
  ⟨start, start + block + (if r < rest then 1 else 0)⟩

/-! ## 2. Partitions -/

/-- A partition as one rank sees it: its own rank, the start of every range, and the number
of all indices. -/
structure Partition where
  rank : Nat
  offsets : List UInt64
deriving DecidableEq

namespace Partition

/-- The even cut of `n` indices among the ranks of a group. -/
def balanced (me : Seat) (n : UInt64) : Partition :=
  ⟨me.rank, me.ranks.map (fun r => (balancedRange r me.size n).start) ++ [n]⟩

/-- How many indices there are. -/
def size (p : Partition) : UInt64 := p.offsets.getLast?.getD 0

/-- The range of a rank; a rank outside the group has an empty one. -/
def rangeOf (p : Partition) (rank : Nat) : Span :=
  match p.offsets[rank]?, p.offsets[rank + 1]? with
  | some start, some stop => ⟨start, stop⟩
  | _, _ => ⟨0, 0⟩

/-- The range of the own rank. -/
def localRange (p : Partition) : Span := p.rangeOf p.rank

/-- How many indices the own rank holds. -/
def localSize (p : Partition) : Nat := (p.localRange.stop - p.localRange.start).toNat

/-- How many ranks share the indices. -/
def rankCount (p : Partition) : Nat := p.offsets.length - 1

/-- Whether the own rank holds an index. -/
def owns (p : Partition) (index : UInt64) : Bool :=
  decide (p.localRange.start ≤ index ∧ index < p.localRange.stop)

/-- The rank that holds an index.  Of the ranges that start at or before the index the last
one holds it: the ones before it end where it starts. -/
def ownerOf? (p : Partition) (index : UInt64) : Option Nat :=
  if p.size ≤ index then none
  else some ((p.offsets.takeWhile fun o => decide (o ≤ index)).length - 1)

/-- Whether every rank has the same range in both. -/
def sameLayout (p q : Partition) : Bool := decide (p.offsets = q.offsets)

end Partition

/-- The indices of a range in ascending order. -/
def Span.indices (r : Span) : List UInt64 :=
  (List.range' r.start.toNat (r.stop.toNat - r.start.toNat)).map UInt64.ofNat

end ShardedVector
