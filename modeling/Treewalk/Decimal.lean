/-!
# Decimal numbers

A `Decimal` is a whole coefficient scaled by a power of ten. It is what a
numeral in a source text denotes before it is rounded to a machine number,
and what the shortest text of a machine number is read off from.
-/

namespace Treewalk

/-- The number `coefficient · 10 ^ exponent`. -/
structure Decimal where
  coefficient : Nat
  exponent : Int
  deriving DecidableEq, Repr

namespace Decimal

/-- The whole number that a run of digits denotes, read from the left
after the digits already read as `start`. -/
def foldDigits (start : Nat) (digits : List Char) : Nat :=
  digits.foldl (fun n c => 10 * n + (c.toNat - '0'.toNat)) start

/-- The decimal written as `whole` digits, a point and `fraction` digits. -/
def ofDigits (whole fraction : List Char) : Decimal where
  coefficient := foldDigits (foldDigits 0 whole) fraction
  exponent := -fraction.length

/-- The machine number nearest to a decimal, a tie going to the even one.
An exponent far outside the range of machine numbers is settled without
forming its power of ten. -/
def toFloat (d : Decimal) : Float :=
  if d.coefficient = 0 then 0
  else if 400 < d.exponent then 1 / 0
  else if d.coefficient.log2 + 3 * d.exponent < -1200 then 0
  else Float.ofScientific d.coefficient (decide (d.exponent < 0)) d.exponent.natAbs

/-- The same number without trailing zeros in the coefficient; `room`
bounds how many are taken off. -/
def trim : Nat → Decimal → Decimal
  | 0, d => d
  | room + 1, d =>
    if d.coefficient % 10 = 0 then trim room ⟨d.coefficient / 10, d.exponent + 1⟩ else d

end Decimal

end Treewalk
