import Phrasebook.Number.Basic
import Phrasebook.Text.Basic

/-!
# Plain numerals

A number in plain digits, a point before its fraction. A double is written with the fewest fraction
digits that read back as it, within the bounds of its options; where the bounds cut digits off, the
exact value is rounded, ties to even.
-/

namespace Phrasebook

/-- A sign, the digits of the whole part and those of the fraction. The names of infinity and NaN
stand in the place of the whole part. -/
structure Numeral where
  negative : Bool
  whole : List Char
  fraction : List Char
  deriving DecidableEq

/-- The characters of a numeral; the point is written only before a fraction. -/
def Numeral.toList (x : Numeral) : List Char :=
  (if x.negative then ['-'] else []) ++ x.whole ++
    (if x.fraction.isEmpty then [] else '.' :: x.fraction)

/-- The first number from `n` on that satisfies `p`, or the one after `count` failures. -/
def firstFrom (p : Nat → Bool) : (count n : Nat) → Nat
  | 0, n => n
  | count + 1, n => if p n then n else firstFrom p count (n + 1)

/-- The last `width` digits of a whole number, written before `tail`. -/
def digitsBefore (tail : List Char) : (width n : Nat) → List Char
  | 0, _ => tail
  | width + 1, n => digitsBefore (Nat.digitChar (n % 10) :: tail) width (n / 10)

namespace Double

/-- One of the two decimals with `places` fraction digits that enclose the absolute value reads
back as it. -/
def readsBackAt (x : Double) (places : Nat) : Bool :=
  let (n, d) := x.quotient
  let grid := Nat.pow 10 places
  let below := n * grid / d
  ofQuotient false below grid == x.abs || ofQuotient false (below + 1) grid == x.abs

/-- The most fraction digits that the exact value of a double has. -/
def maxPlaces : Nat := 1074

/-- The fewest fraction digits with which the number reads back. -/
def fractionPlaces (x : Double) : Nat :=
  if x.isFinite then firstFrom x.readsBackAt maxPlaces 0 else 0

/-- The absolute value rounded to a number of fraction digits, as its whole and fraction digits.
Where the exact value has ended, zeros follow. -/
def toFixed (x : Double) (places : Nat) : List Char × List Char :=
  if x.isNaN then (['N', 'a', 'N'], [])
  else if x.isInfinite then (['i', 'n', 'f'], [])
  else
    let (n, d) := x.quotient
    let rounded := min places maxPlaces
    let grid := Nat.pow 10 rounded
    let units := roundHalfEven (n * grid) d
    (Nat.toDigits 10 (units / grid),
      digitsBefore (List.replicate (places - rounded) '0') rounded units)

end Double

namespace NumberValue

/-- How many fraction digits are rounded to: the fewest that read back, within the bounds. -/
def places (x : NumberValue) : Nat :=
  let natural := x.scaled.fractionPlaces
  let least := x.options.minFractionDigits.getD 0
  let most := max (x.options.maxFractionDigits.getD natural) least
  max least (min natural most)

/-- The number in plain digits. Trailing zeros of the fraction stay only where the least digit count
asks for them, and the sign only before a digit other than a whole part of zeros. -/
def numeral (x : NumberValue) : Numeral :=
  let (whole, digits) := x.scaled.toFixed x.places
  let kept := Text.dropEndWhile (· == '0') digits
  let fraction := kept ++ List.replicate (x.options.minFractionDigits.getD 0 - kept.length) '0'
  { negative := x.scaled.isBelowZero && (whole.any (· != '0') || !fraction.isEmpty)
    whole := List.replicate (x.options.minIntegerDigits.getD 1 - whole.length) '0' ++ whole
    fraction }

/-- The plain numeral as text. -/
def plainText (x : NumberValue) : String := String.ofList x.numeral.toList

end NumberValue

end Phrasebook
