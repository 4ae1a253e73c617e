/-
# Partitions from claimed ranges

Each rank claims a range of its own choice.  The claims of all ranks are exchanged, and every
rank checks the same list: taken in rank order they must follow each other from index `0`
without a gap and without an overlap.  So either every rank obtains the same table of offsets
or every rank is refused for the same fault.
-/
import ShardedVector.Collective
import ShardedVector.Partition.Basic

namespace ShardedVector.Partition

/-- The starts of ranges that follow each other from `expected`, and at the end where the last
one stops.  The first fault wins; of one range it is tested first whether it is reversed, then
whether it begins too early, then whether it begins too late. -/
def offsetsFrom (rank : Nat) (expected : UInt64) : List Span → Except Error (List UInt64)
  | [] => .ok [expected]
  | r :: rest =>
    let start := r.start.toNat
    let stop := r.stop.toNat
    if r.stop < r.start then .error (.invalidLayout (.reversed rank start stop))
    else if r.start < expected then
      .error (.invalidLayout (.overlap rank start stop expected.toNat))
    else if expected < r.start then
      .error (.invalidLayout (.gap rank expected.toNat start))
    else match offsetsFrom (rank + 1) r.stop rest with
      | .ok offsets => .ok (r.start :: offsets)
      | .error e => .error e

/-- The partition that the claims of the ranks of a group make. -/
def ofClaims (me : Seat) (claims : List Span) : Except Error Partition :=
  if claims.length = me.size then
    match offsetsFrom 0 0 claims with
    | .ok offsets => .ok ⟨me.rank, offsets⟩
    | .error e => .error e
  else .error (.invalidLayout (.count me.size claims.length))

/-- Claims a range for this rank; every rank of the group takes part. -/
def explicit (me : Seat) (claim : Span) : Attempt Partition := do
  let claims ← Collective.allGatherRecords me .partition [claim]
  Attempt.ofExcept (ofClaims me claims.flatten)

end ShardedVector.Partition
