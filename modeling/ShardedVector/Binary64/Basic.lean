/-
# Binary64 words

The entries of a vector are words of the 64-bit binary interchange format: one sign bit,
eleven exponent bits and 52 fraction bits.  A word is kept as its bits, so equality tells
the two zeros and every NaN apart; the numeric comparisons `lt`, `le` and `eq` do not.

Fields are read by division and remainder, so that every fact about them is a fact about
natural numbers:

* `key` orders the numbers as the integers do (`lt_iff_key`): the magnitude, counted from
  zero towards the infinities, with the sign in front;
* `scaled` is the exact value of a finite word in units of `2 ^ -1074`, the least positive
  number of the format.

The four operations and the square root round to nearest, ties to even.  What they do with
NaNs is fixed here and not left to the machine: an operand that is a NaN is the result, the
left one first, and an operation without a NaN operand that has no value gives `indefinite`.
-/
namespace ShardedVector

/-- A number of the 64-bit binary interchange format, as its bits. -/
structure Binary64 where
  bits : UInt64
deriving DecidableEq

namespace Binary64

/-! ## 1. Constants -/

/-- Positive zero. -/
def zero : Binary64 := ⟨0⟩

/-- Negative zero, the neutral element of addition: `-0 + x` is `x` also for `x = -0`. -/
def negativeZero : Binary64 := ⟨0x8000000000000000⟩

def one : Binary64 := ⟨0x3ff0000000000000⟩

def negativeOne : Binary64 := ⟨0xbff0000000000000⟩

def infinity : Binary64 := ⟨0x7ff0000000000000⟩

def negativeInfinity : Binary64 := ⟨0xfff0000000000000⟩

/-- The quiet NaN with a clear sign and no payload: what stands for a missing number. -/
def nan : Binary64 := ⟨0x7ff8000000000000⟩

/-- The quiet NaN with the sign set: what an operation without a value delivers. -/
def indefinite : Binary64 := ⟨0xfff8000000000000⟩

instance : Inhabited Binary64 := ⟨zero⟩

/-! ## 2. Fields -/

/-- The sign bit. -/
def isNegative (x : Binary64) : Bool := decide (0x8000000000000000 ≤ x.bits.toNat)

/-- The word without its sign bit.  It grows with the absolute value. -/
def magnitude (x : Binary64) : Nat := x.bits.toNat % 0x8000000000000000

/-- The magnitude of the infinities; a NaN lies above it. -/
def infiniteMagnitude : Nat := 0x7ff0000000000000

def isNaN (x : Binary64) : Bool := decide (infiniteMagnitude < x.magnitude)

def isInfinite (x : Binary64) : Bool := decide (x.magnitude = infiniteMagnitude)

def isFinite (x : Binary64) : Bool := decide (x.magnitude < infiniteMagnitude)

/-- Either zero. -/
def isZero (x : Binary64) : Bool := decide (x.magnitude = 0)

/-- The eleven exponent bits. -/
def exponentField (x : Binary64) : Nat := x.magnitude / 0x10000000000000

/-- The fraction bits, below the leading one of a normal number. -/
def significand (x : Binary64) : Nat :=
  let fraction := x.magnitude % 0x10000000000000
  if x.exponentField = 0 then fraction else fraction + 0x10000000000000

/-- The absolute value of a finite word in units of `2 ^ -1074`. -/
def scaledMagnitude (x : Binary64) : Nat := x.significand * Nat.pow 2 (x.exponentField - 1)

/-- The value of a finite word in units of `2 ^ -1074`; both zeros give `0`. -/
def scaled (x : Binary64) : Int :=
  if x.isNegative then -(x.scaledMagnitude : Int) else x.scaledMagnitude

/-- How many units of `scaled` make one. -/
def unitsPerOne : Nat := Nat.pow 2 1074

/-- The place of a number in the order of the format: both zeros at `0`, the numbers above
and below counted away from it, the infinities last. -/
def key (x : Binary64) : Int := if x.isNegative then -(x.magnitude : Int) else x.magnitude

/-! ## 3. Comparison

A comparison with a NaN is false. -/

def lt (x y : Binary64) : Bool := !x.isNaN && !y.isNaN && decide (x.key < y.key)

def le (x y : Binary64) : Bool := !x.isNaN && !y.isNaN && decide (x.key ≤ y.key)

/-- Equality as numbers: the zeros are equal, a NaN equals nothing. -/
def eq (x y : Binary64) : Bool := !x.isNaN && !y.isNaN && decide (x.key = y.key)

theorem lt_iff_key {x y : Binary64} :
    lt x y = true ↔ x.isNaN = false ∧ y.isNaN = false ∧ x.key < y.key := by
  simp [lt, and_assoc]

/-- The smaller number.  A NaN gives way to the other operand; of two equal numbers the
left one is kept. -/
def min (x y : Binary64) : Binary64 := if x.isNaN then y else if lt y x then y else x

/-- The larger number.  A NaN gives way to the other operand; of two equal numbers the left
one is kept. -/
def max (x y : Binary64) : Binary64 := if x.isNaN then y else if lt x y then y else x

/-! ## 4. Signs

Sign operations work on the bits and leave the payload of a NaN alone. -/

/-- The word with its sign bit cleared. -/
def abs (x : Binary64) : Binary64 := ⟨x.bits % 0x8000000000000000⟩

/-- The word with its sign bit turned: adding `2 ^ 63` modulo `2 ^ 64` changes no other. -/
def neg (x : Binary64) : Binary64 := ⟨x.bits + 0x8000000000000000⟩

theorem isNegative_abs (x : Binary64) : x.abs.isNegative = false := by
  have := Nat.mod_lt x.bits.toNat (show 0 < 0x8000000000000000 by decide)
  simp only [isNegative, abs, UInt64.toNat_mod, decide_eq_false_iff_not, Nat.not_le]
  exact this

theorem magnitude_neg (x : Binary64) : x.neg.magnitude = x.magnitude := by
  simp only [neg, magnitude, UInt64.toNat_add, UInt64.reduceToNat]
  omega

/-! ## 5. Arithmetic -/

/-- A NaN as an operation passes it on: the top fraction bit set. -/
def quiet (x : Binary64) : Binary64 :=
  if x.bits.toNat / 0x8000000000000 % 2 = 0 then ⟨x.bits + 0x0008000000000000⟩ else x

/-- The machine number with these bits. -/
def toFloat (x : Binary64) : Float := Float.ofBits x.bits

/-- The bits of a machine number; every NaN of the machine reads as `indefinite`. -/
def ofFloat (x : Float) : Binary64 := if x.isNaN then indefinite else ⟨x.toBits⟩

/-- A machine operation on words, with the NaN rule of this module. -/
def lift₂ (op : Float → Float → Float) (x y : Binary64) : Binary64 :=
  if x.isNaN then x.quiet else if y.isNaN then y.quiet else ofFloat (op x.toFloat y.toFloat)

def add (x y : Binary64) : Binary64 := lift₂ Float.add x y

def sub (x y : Binary64) : Binary64 := lift₂ Float.sub x y

def mul (x y : Binary64) : Binary64 := lift₂ Float.mul x y

def div (x y : Binary64) : Binary64 := lift₂ Float.div x y

def sqrt (x : Binary64) : Binary64 := if x.isNaN then x.quiet else ofFloat x.toFloat.sqrt

instance : Add Binary64 := ⟨add⟩
instance : Sub Binary64 := ⟨sub⟩
instance : Mul Binary64 := ⟨mul⟩
instance : Div Binary64 := ⟨div⟩
instance : Neg Binary64 := ⟨neg⟩

/-- One over the number. -/
def reciprocal (x : Binary64) : Binary64 := one / x

/-! ## 6. Folds -/

/-- The left fold of addition from `seed`. -/
def sumFrom (seed : Binary64) (xs : List Binary64) : Binary64 := xs.foldl (· + ·) seed

/-- The sum of a list, from the neutral element `-0`: the empty sum is `-0`. -/
def sum (xs : List Binary64) : Binary64 := sumFrom negativeZero xs

end Binary64

end ShardedVector
