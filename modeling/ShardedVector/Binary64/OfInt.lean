/-
# Integers as binary64 words

`ofInt` rounds an integer to the nearest word, a tie to the even significand, all in exact
arithmetic.  `truncate?` goes back: the integer part of a finite word.
-/
import ShardedVector.Binary64.Basic

namespace ShardedVector.Binary64

/-- `n / 2 ^ shift` rounded to the nearest integer, a tie to the even one. -/
def roundShift (n shift : Nat) : Nat :=
  let unit := Nat.pow 2 shift
  let quotient := n / unit
  let rest := 2 * (n % unit)
  if unit < rest ∨ (rest = unit ∧ quotient % 2 = 1) then quotient + 1 else quotient

/-- The magnitude nearest to a natural number.  With `e` the position of its leading bit,
the 53 leading bits are rounded to a significand; added to the exponent field below its
place, a significand that rounds up to `2 ^ 53` carries into the exponent by itself. -/
def nearestMagnitude (n : Nat) : Nat :=
  if n = 0 then 0
  else
    let e := n.log2
    let significand := if e ≤ 52 then n * Nat.pow 2 (52 - e) else roundShift n (e - 52)
    Nat.min ((e + 1022) * 0x10000000000000 + significand) infiniteMagnitude

/-- The word nearest to a natural number; past the largest finite one, infinity. -/
def ofNat (n : Nat) : Binary64 := ⟨UInt64.ofNat (nearestMagnitude n)⟩

/-- The word nearest to an integer.  Zero is the positive zero. -/
def ofInt (n : Int) : Binary64 := if n < 0 then (ofNat n.natAbs).neg else ofNat n.natAbs

/-- The integer part of a finite word. -/
def truncate? (x : Binary64) : Option Int :=
  if x.isFinite then some (x.scaled.tdiv unitsPerOne) else none

end ShardedVector.Binary64
