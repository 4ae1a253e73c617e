/-
# Binary64 words in scientific notation

An entry is shown with six places after the point, rounded from its exact value, a tie to
the even digit: `1.000000e0`, `-5.000000e-1`.
-/
import ShardedVector.Binary64.Basic
import ShardedVector.Decimal.Scientific

namespace ShardedVector.Binary64

/-- The places that `scientificText` shows. -/
def shownPlaces : Nat := 6

/-- The word in scientific notation.  A zero keeps its sign, a NaN shows none. -/
def scientificText (x : Binary64) : String :=
  if x.isNaN then "NaN"
  else
    let sign := if x.isNegative then "-" else ""
    if x.isInfinite then sign ++ "inf"
    else if x.isZero then sign ++ Decimal.scientificZero shownPlaces
    else sign ++ Decimal.scientific shownPlaces x.scaledMagnitude unitsPerOne

end ShardedVector.Binary64
