/-
# Binary32 words

A number of the 32-bit interchange format takes no part in vector arithmetic; it is shown
when it is turned away.  It is written with the fewest digits that read back: positional
from `10 ^ -4` up to `10 ^ 16` with at least one place after the point, and with an exponent
outside of that.
-/
import ShardedVector.Decimal.Scientific
import ShardedVector.Decimal.Shortest

namespace ShardedVector

/-- A number of the 32-bit interchange format, as its bits. -/
structure Binary32 where
  bits : UInt32
deriving DecidableEq

namespace Binary32

/-! ## 1. Fields -/

def isNegative (x : Binary32) : Bool := decide (0x80000000 ≤ x.bits.toNat)

/-- The word without its sign bit. -/
def magnitude (x : Binary32) : Nat := x.bits.toNat % 0x80000000

/-- The magnitude of the infinities; a NaN lies above it. -/
def infiniteMagnitude : Nat := 0x7f800000

def isNaN (x : Binary32) : Bool := decide (infiniteMagnitude < x.magnitude)

def isInfinite (x : Binary32) : Bool := decide (x.magnitude = infiniteMagnitude)

def isZero (x : Binary32) : Bool := decide (x.magnitude = 0)

def exponentField (x : Binary32) : Nat := x.magnitude / 0x800000

def significand (x : Binary32) : Nat :=
  let fraction := x.magnitude % 0x800000
  if x.exponentField = 0 then fraction else fraction + 0x800000

/-- The reals that round to the absolute value of a finite word, in units of `2 ^ -151`.
The gap to the next word is four steps wide; below a power of two it is half as wide.  The
ends belong to the word with the even significand. -/
def interval (x : Binary32) : Decimal.Interval :=
  let step := Nat.pow 2 (x.exponentField - 1)
  { value := 4 * x.significand * step
    unit := Nat.pow 2 151
    below := if x.magnitude % 0x800000 = 0 ∧ 1 < x.exponentField then step else 2 * step
    above := 2 * step
    closed := decide (x.significand % 2 = 0) }

/-! ## 2. Text -/

/-- Nine digits always suffice for this format. -/
def mostDigits : Nat := 9

/-- Digits in positional notation, the first of them at `10 ^ exponent`. -/
def positional (digits : List Char) (exponent : Int) : String :=
  if exponent < 0 then
    "0." ++ String.ofList (List.replicate (exponent.natAbs - 1) '0' ++ digits)
  else
    let whole := exponent.natAbs + 1
    let integer := digits.take whole ++ List.replicate (whole - digits.length) '0'
    let fraction := digits.drop whole
    String.ofList integer ++ "." ++ (if fraction = [] then "0" else String.ofList fraction)

/-- A positive decimal in this format's notation. -/
def decimalText (d : Decimal.Number) : String :=
  if -4 ≤ d.exponent ∧ d.exponent < 16 then positional d.digits d.exponent
  else Decimal.pointed d.digits ++ "e" ++ Decimal.exponentText d.exponent

/-- The word with the fewest digits that read back. -/
def text (x : Binary32) : String :=
  if x.isNaN then "NaN"
  else
    let sign := if x.isNegative then "-" else ""
    if x.isInfinite then sign ++ "inf"
    else if x.isZero then sign ++ "0.0"
    else match x.interval.shortest? mostDigits with
      | some d => sign ++ decimalText d
      | none => sign

end Binary32

end ShardedVector
