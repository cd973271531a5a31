import Treewalk.Decimal.Shortest
import Treewalk.Text.Blank

/-!
# Numbers and their text

Numbers are 64-bit floating point. A number has two spellings: the full one
always shows a point or an exponent (`1.0`), the plain one drops a fraction
that is zero (`1`). Both use the fewest digits that read back as the same
number, positional notation from `10 ^ -4` up to `10 ^ 16`, and an exponent
with a sign and at least two digits outside that range.
-/

namespace Treewalk

namespace Number

/-- What the bits of a machine number say. -/
inductive Shape where
  /-- Not a number. -/
  | undefined
  | infinite (negative : Bool)
  | zero (negative : Bool)
  | finite (negative : Bool) (size : Binary)
  deriving DecidableEq, Repr

/-- Splits a machine number into sign and size. -/
def shape (x : Float) : Shape :=
  let bits := x.toBits.toNat
  let negative := decide (1 <<< 63 ≤ bits)
  let scale : Nat := bits >>> 52 % 1 <<< 11
  let fraction : Nat := bits % 1 <<< 52
  if scale = 1 <<< 11 - 1 then
    if fraction = 0 then .infinite negative else .undefined
  else if scale = 0 then
    if fraction = 0 then .zero negative else .finite negative ⟨fraction, -1074, false⟩
  else
    .finite negative ⟨fraction + 1 <<< 52, (scale : Int) - 1075, fraction = 0 && 1 < scale⟩

/-- How numbers are spelled: from which power of ten on and below which one
positional notation is used, and whether a zero fraction is shown. -/
structure Style where
  least : Int
  bound : Int
  zeroFraction : Bool

/-- The full spelling: `1.0`. -/
def Style.full : Style := ⟨-4, 16, true⟩

/-- The plain spelling: `1`. -/
def Style.plain : Style := ⟨-4, 16, false⟩

/-- An exponent with its sign and at least two digits. -/
def exponentText (e : Int) : String :=
  let digits := toString e.natAbs
  (if e < 0 then "e-" else "e+") ++ (if digits.length < 2 then "0" ++ digits else digits)

/-- The text of a positive decimal with no trailing zeros. -/
def Style.decimalText (style : Style) (d : Decimal) : String :=
  let digits := Nat.toDigits 10 d.coefficient
  let e : Int := digits.length - 1 + d.exponent
  if style.least ≤ e && e < style.bound then
    if e < 0 then
      "0." ++ String.ofList (List.replicate (-e - 1).toNat '0' ++ digits)
    else
      let whole := digits.take (e.toNat + 1) ++ List.replicate d.exponent.toNat '0'
      let fraction := digits.drop (e.toNat + 1)
      String.ofList whole ++
        (if fraction.isEmpty then (if style.zeroFraction then ".0" else "")
          else "." ++ String.ofList fraction)
  else
    String.ofList (digits.take 1) ++
      (if digits.length ≤ 1 then "" else "." ++ String.ofList (digits.drop 1)) ++ exponentText e

/-- The minus sign of a negative number. -/
def signText (negative : Bool) : String := if negative then "-" else ""

/-- The text of a number. Zero keeps its sign. -/
def Style.text (style : Style) (x : Float) : String :=
  match shape x with
  | .undefined => "nan"
  | .infinite negative => signText negative ++ "inf"
  | .zero negative => signText negative ++ (if style.zeroFraction then "0.0" else "0")
  | .finite negative size => signText negative ++ style.decimalText size.shortest

/-- The full text of a number, as in `1.0`. -/
def full (x : Float) : String := Style.full.text x

/-- The plain text of a number, as in `1`. -/
def plain (x : Float) : String := Style.plain.text x

/-! ## Reading -/

/-- An ASCII digit. -/
def isDigit (c : Char) : Bool := '0' ≤ c && c ≤ '9'

/-- The digits of a run in which single underscores may stand between
digits; `none` if an underscore stands elsewhere. -/
def ungrouped? : List Char → Option (List Char)
  | [] => some []
  | '_' :: _ => none
  | c :: '_' :: rest => if rest.isEmpty then none else (ungrouped? rest).map (c :: ·)
  | c :: rest => (ungrouped? rest).map (c :: ·)

/-- Takes a run of digits, grouped or not, off the front of a text. -/
def takeRun (cs : List Char) : Option (List Char) × List Char :=
  let inRun (c : Char) := isDigit c || c == '_'
  (ungrouped? (cs.takeWhile inRun), cs.dropWhile inRun)

/-- Reads the exponent that ends a numeral: nothing, or `e` with an
optional sign and digits. -/
def readExponent? (cs : List Char) : Option Int :=
  let digits? (cs : List Char) : Option Int :=
    match takeRun cs with
    | (some (d :: ds), []) => some (Decimal.foldDigits 0 (d :: ds))
    | _ => none
  match cs with
  | [] => some 0
  | c :: rest =>
    if c == 'e' || c == 'E' then
      match rest with
      | '-' :: rest => (digits? rest).map (- ·)
      | '+' :: rest => digits? rest
      | rest => digits? rest
    else none

/-- Reads an unsigned decimal numeral: digits with an optional point, at
least one digit in all, and an optional exponent. -/
def readDecimal? (cs : List Char) : Option Decimal :=
  match takeRun cs with
  | (none, _) => none
  | (some whole, rest) =>
    let fraction? := match rest with
      | '.' :: rest => takeRun rest
      | rest => (some [], rest)
    match fraction? with
    | (none, _) => none
    | (some fraction, rest) =>
      if whole.isEmpty && fraction.isEmpty then none
      else (readExponent? rest).map fun e =>
        let d := Decimal.ofDigits whole fraction
        { d with exponent := d.exponent + e }

/-- Reads an unsigned number: a numeral, or one of the words for infinity
and the undefined number in any case. -/
def readSize? (cs : List Char) : Option Float :=
  let word := String.ofList (cs.map Char.toLower)
  if word = "inf" || word = "infinity" then some (1 / 0)
  else if word = "nan" then some (0 / 0)
  else (readDecimal? cs).map Decimal.toFloat

/-- Reads the text of a number, with an optional sign and blanks around
it. Every text that `full` and `plain` write can be read. -/
def read? (text : String) : Option Float :=
  match Text.trim text.toList with
  | '-' :: rest => (readSize? rest).map (- ·)
  | '+' :: rest => readSize? rest
  | cs => readSize? cs

end Number

end Treewalk
