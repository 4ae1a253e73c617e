/-
# Scientific notation with a fixed number of places

`scientific places num den` writes a positive fraction as one digit, a point, `places`
digits and a power of ten.  The exact value is rounded once, a tie to the even digit; a
value that rounds up to the next power of ten moves the point.
-/
import ShardedVector.Decimal.Basic

namespace ShardedVector.Decimal

/-- The `places + 1` leading digits of a positive fraction as one number, and the exponent
of the first of them. -/
def leading (places num den : Nat) : Nat × Int :=
  let e := exponent num den
  let (up, down) := shift (places - e)
  let digits := roundEven (num * up) (den * down)
  if digits = Nat.pow 10 (places + 1) then (Nat.pow 10 places, e + 1) else (digits, e)

/-- Digits with a point after the first one. -/
def pointed (digits : List Char) : String :=
  match digits with
  | [] => ""
  | [d] => String.ofList [d]
  | d :: rest => String.ofList (d :: '.' :: rest)

/-- Scientific notation of a positive fraction. -/
def scientific (places num den : Nat) : String :=
  let (digits, e) := leading places num den
  pointed (Nat.toDigits 10 digits) ++ "e" ++ exponentText e

/-- Scientific notation of zero. -/
def scientificZero (places : Nat) : String :=
  pointed ('0' :: List.replicate places '0') ++ "e0"

end ShardedVector.Decimal
