/-
# The shortest decimal inside an interval

A number of a binary format stands for every real that rounds to it.  The shortest decimal
that reads back is found on the grids of one, two, three, … digits: a grid holds a decimal
inside the interval exactly when one of the two grid points beside the number is inside.
The first grid with a hit wins, and of two hits the nearer one.
-/
import ShardedVector.Decimal.Basic

namespace ShardedVector.Decimal

/-- A positive number `value / unit` with the reals that round to it: those less than
`below / unit` below and `above / unit` above it, both ends included when `closed`. -/
structure Interval where
  value : Nat
  unit : Nat
  below : Nat
  above : Nat
  closed : Bool

/-- The decimal `coefficient * 10 ^ power`. -/
structure Number where
  coefficient : Nat
  power : Int
deriving DecidableEq

namespace Interval

/-- Whether a distance stays within a bound of the interval. -/
def within (i : Interval) (distance bound : Nat) : Bool :=
  if i.closed then decide (distance ≤ bound) else decide (distance < bound)

/-- The point of the grid of `digits` digits that reads back, if one does.  Of two points
equally near the upper one is taken. -/
def onGrid? (i : Interval) (digits : Nat) : Option Number :=
  let power := exponent i.value i.unit - (digits - 1 : Nat)
  let (up, down) := shift (-power)
  let value := i.value * up
  let unit := i.unit * down
  let low := value / unit
  let toLow := value - low * unit
  let toHigh := (low + 1) * unit - value
  let lowFits := i.within toLow (i.below * up)
  let highFits := i.within toHigh (i.above * up)
  if highFits && (!lowFits || decide (toHigh ≤ toLow)) then some ⟨low + 1, power⟩
  else if lowFits then some ⟨low, power⟩
  else none

/-- The shortest decimal of at most `most` digits that reads back. -/
def shortest? (i : Interval) (most : Nat) : Option Number :=
  (List.range most).findSome? fun n => i.onGrid? (n + 1)

end Interval

/-- The digits of a decimal without the zeros at their end. -/
def Number.digits (d : Number) : List Char :=
  ((Nat.toDigits 10 d.coefficient).reverse.dropWhile (· = '0')).reverse

/-- The exponent of the first digit. -/
def Number.exponent (d : Number) : Int := d.power + (width d.coefficient - 1 : Nat)

end ShardedVector.Decimal
