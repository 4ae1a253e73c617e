/-
# Decimal digits of a positive fraction

A fraction `num / den` is written in decimal from three exact quantities: the number of
digits of a natural number, the decimal exponent of the fraction, and a quotient rounded to
the nearest integer.  Everything is computed on natural numbers, so no digit is ever lost.
-/
namespace ShardedVector.Decimal

/-- How many decimal digits a natural number is written with; zero takes one. -/
def width (n : Nat) : Nat := (Nat.toDigits 10 n).length

/-- The exponent `e` of a positive fraction: `10 ^ e ≤ num / den < 10 ^ (e + 1)`.  Below one,
it is the least number of places by which the fraction must be raised to reach one. -/
def exponent (num den : Nat) : Int :=
  if den ≤ num then (width (num / den) : Int) - 1 else -(width ((den - 1) / num) : Int)

/-- The two factors that multiply a fraction by `10 ^ places`, one for each side. -/
def shift (places : Int) : Nat × Nat :=
  if 0 ≤ places then (Nat.pow 10 places.toNat, 1) else (1, Nat.pow 10 (-places).toNat)

/-- `num / den` rounded to the nearest integer, a tie to the even one. -/
def roundEven (num den : Nat) : Nat :=
  let quotient := num / den
  let rest := 2 * (num % den)
  if den < rest ∨ (rest = den ∧ quotient % 2 = 1) then quotient + 1 else quotient

/-- The digits of a natural number as text. -/
def text (n : Nat) : String := String.ofList (Nat.toDigits 10 n)

/-- An exponent as text: a minus sign if it is negative, and no padding. -/
def exponentText (e : Int) : String := if e < 0 then "-" ++ text e.natAbs else text e.natAbs

end ShardedVector.Decimal
