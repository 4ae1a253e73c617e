/-
# Arithmetic of distributed vectors

Vectors are combined entry by entry.  In place, both must have the same layout.  Out of place,
the result has the layout of the left operand, and a right operand of another layout is first
brought into it by a conversation of all ranks.

A scalar operand is promoted first; one that is turned away leaves everything as it is.
Subtraction adds the negated scalar and division multiplies by the reciprocal.
-/
import ShardedVector.Scalar.Promotion
import ShardedVector.Shard.Gather

namespace ShardedVector

/-- The four operations. -/
inductive Sign where
  | plus
  | minus
  | times
  | dividedBy
deriving DecidableEq

/-- The operations that have a scalar on the left. -/
inductive LeftSign where
  | plus
  | minus
  | times
deriving DecidableEq

namespace Sign

/-- The name of the operation out of place. -/
def operation : Sign → Operation
  | plus => .plus
  | minus => .minus
  | times => .times
  | dividedBy => .dividedBy

/-- The name of the operation in place. -/
def assignOperation : Sign → Operation
  | plus => .plusAssign
  | minus => .minusAssign
  | times => .timesAssign
  | dividedBy => .dividedByAssign

/-- The operation on local entries. -/
def combine : Sign → Storage → Storage → Except Error Storage
  | plus, y, x => y.add x
  | minus, y, x => y.axpy .negativeOne x
  | times, y, x => y.multiply x
  | dividedBy, y, x => y.divide x

/-- The operation of local entries with a number on the right. -/
def combineNumber : Sign → Storage → Binary64 → Storage
  | plus, y, a => y.shift a
  | minus, y, a => y.shift (-a)
  | times, y, a => y.scale a
  | dividedBy, y, a => y.scale a.reciprocal

end Sign

namespace Shard

/-! ## 1. Vector with vector -/

/-- Combines in place with a vector of the same layout. -/
def combineAssign (v : Shard) (sign : Sign) (w : Shard) : Except Error Shard := do
  v.checkLayout w sign.assignOperation
  v.withStorage (sign.combine v.storage w.storage)

/-- The combination of two vectors of the same size, laid out like the left one. -/
def combine (v : Shard) (sign : Sign) (w : Shard) : Attempt Shard := do
  Attempt.ofExcept (checkGlobalSize sign.operation v.size w.size)
  if v.sameLayout w then
    Attempt.ofExcept (v.copy.withStorage (sign.combine v.copy.storage w.storage))
  else match v.layout with
    | none => throw (.incompatibleLayout sign.operation)
    | some layout => do
      let values ← w.redistribute layout
      Attempt.ofExcept (v.copy.withStorage (sign.combine v.copy.storage (.ofList values)))

/-! ## 2. Vector with number -/

/-- Combines in place with a number. -/
def combineNumberAssign (v : Shard) (sign : Sign) (a : Binary64) : Shard :=
  { v with storage := sign.combineNumber v.storage a }

/-- Combines in place with a scalar. -/
def combineScalarAssign (v : Shard) (sign : Sign) (s : Scalar) : Except Error Shard := do
  let a ← s.promote
  return v.combineNumberAssign sign a

/-- The combination of a vector with a scalar on its right. -/
def combineScalar (v : Shard) (sign : Sign) (s : Scalar) : Except Error Shard :=
  v.copy.combineScalarAssign sign s

/-- A scalar minus the vector: the vector times minus one, and then the scalar added. -/
def subtractFrom (v : Shard) (s : Scalar) : Except Error Shard := do
  let a ← s.promote
  let negated := v.copy.combineNumberAssign .times .negativeOne
  return negated.combineNumberAssign .plus a

/-- The combination of a vector with a scalar on its left. -/
def combineScalarLeft (v : Shard) (sign : LeftSign) (s : Scalar) : Except Error Shard :=
  match sign with
  | .plus => v.combineScalar .plus s
  | .minus => v.subtractFrom s
  | .times => v.combineScalar .times s

end Shard

end ShardedVector
