/-
# Reductions of one number per rank

The three ways in which a group combines one number of each rank.  A reduction is a left
fold in rank order from its identity, so every rank that folds the same numbers obtains the
same bits.
-/
import ShardedVector.Binary64.Basic

namespace ShardedVector

inductive Reduction where
  | sum
  | min
  | max
deriving DecidableEq

namespace Reduction

/-- What an empty fold gives. -/
def identity : Reduction → Binary64
  | sum => .zero
  | min => .infinity
  | max => .negativeInfinity

def combine : Reduction → Binary64 → Binary64 → Binary64
  | sum => Binary64.add
  | min => Binary64.min
  | max => Binary64.max

/-- The left fold of a list from the identity. -/
def fold (op : Reduction) (xs : List Binary64) : Binary64 := xs.foldl op.combine op.identity

end Reduction

end ShardedVector
