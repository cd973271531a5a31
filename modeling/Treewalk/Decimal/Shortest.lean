import Treewalk.Decimal

/-!
# The shortest decimal of a machine number

A positive machine number stands for every real that rounds to it. This
file finds the decimal with the fewest digits among those reals, and of
several the nearest: for 1, 2, … digits it tests the two neighbours of the
number on the grid of that many digits, and the first grid with a hit
wins. All comparisons are exact, in whole numbers.
-/

namespace Treewalk

/-- The positive number `mantissa · 2 ^ exponent`. `narrow` says that the
next smaller machine number is only half as far away as the next larger. -/
structure Binary where
  mantissa : Nat
  exponent : Int
  narrow : Bool
  deriving DecidableEq, Repr

namespace Binary

/-- A binary number over a power of ten, as an exact ratio: the number is
`value / unit` grid steps, and `quarter` is a quarter of the distance to
the next larger machine number on the same scale. -/
structure Scaled where
  value : Nat
  quarter : Nat
  unit : Nat

/-- The number measured in steps of `10 ^ k`. -/
def scaled (b : Binary) (k : Int) : Scaled :=
  let quarter := Nat.pow 10 (-k).toNat <<< (b.exponent - 2).toNat
  { value := 4 * b.mantissa * quarter
    quarter := quarter
    unit := Nat.pow 10 k.toNat <<< (2 - b.exponent).toNat }

/-- Whether `n` grid steps round to the number. The ends of the interval
belong to it exactly when the mantissa is even. -/
def covers (b : Binary) (s : Scaled) (n : Nat) : Bool :=
  let low := s.value - (if b.narrow then 1 else 2) * s.quarter
  let high := s.value + 2 * s.quarter
  let point := n * s.unit
  if b.mantissa % 2 = 0 then low ≤ point && point ≤ high else low < point && point < high

/-- The better of the two grid neighbours of the number that round to it:
the nearer one, and the even one of two equally near. -/
def neighbour? (b : Binary) (s : Scaled) : Option Nat :=
  let below := s.value / s.unit
  let above := below + 1
  match b.covers s below, b.covers s above with
  | true, true =>
    let down := s.value - below * s.unit
    let up := above * s.unit - s.value
    if down < up || (down = up && below % 2 = 0) then some below else some above
  | true, false => some below
  | false, true => some above
  | false, false => none

/-- The decimal exponent of the leading digit. -/
def magnitude (b : Binary) : Int :=
  let s := b.scaled 0
  if s.unit ≤ s.value then ((Nat.toDigits 10 (s.value / s.unit)).length : Int) - 1
  else -((Nat.toDigits 10 ((s.unit + s.value - 1) / s.value - 1)).length : Int)

/-- The decimal with `count` digits that rounds to the number, if there is
one. The leading digit has exponent `e`. -/
def withDigits? (b : Binary) (e : Int) (count : Nat) : Option Decimal :=
  let k := e - count + 1
  (b.neighbour? (b.scaled k)).map (⟨·, k⟩)

/-- The shortest decimal that rounds to the number. Seventeen digits always
suffice for a machine number, so the search below does not fail on one. -/
def shortest (b : Binary) : Decimal :=
  let e := b.magnitude
  match (List.range' 1 17).findSome? (b.withDigits? e) with
  | some d => d.trim 17
  | none => ⟨0, 0⟩

end Binary

end Treewalk
