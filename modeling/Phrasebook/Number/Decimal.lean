import Phrasebook.Number.Double

/-!
# Numbers in decimal text

A decimal is a whole number scaled by a power of ten. Here is how a number is read from text, as a
decimal or as one of the named values, and the double or the single that it stands for.
-/

namespace Phrasebook

/-- The number `± coefficient * 10 ^ exponent`. -/
structure Decimal where
  negative : Bool
  coefficient : Nat
  exponent : Int
  deriving DecidableEq

/-- The absolute value as a quotient. -/
def Decimal.quotient (d : Decimal) : Nat × Nat :=
  (d.coefficient * Nat.pow 10 d.exponent.toNat, Nat.pow 10 (-d.exponent).toNat)

/-- A number as it is written. -/
inductive NumberText where
  | decimal (value : Decimal)
  | infinity (negative : Bool)
  | nan
  deriving DecidableEq

namespace NumberText

/-- The nearest double. -/
def toDouble : NumberText → Double
  | decimal d => Double.ofQuotient d.negative d.quotient.1 d.quotient.2
  | infinity negative => Double.infinity negative
  | nan => Double.nan

/-- The nearest single, as a double. -/
def toSingle : NumberText → Double
  | decimal d => Double.ofQuotientSingle d.negative d.quotient.1 d.quotient.2
  | infinity negative => Double.infinity negative
  | nan => Double.nan

/-- Splits off a sign. -/
def splitSign : List Char → Bool × List Char
  | '-' :: rest => (true, rest)
  | '+' :: rest => (false, rest)
  | text => (false, text)

/-- The value of exponent digits. One past 65535 puts any decimal out of every range, so the digits
after it do not count. -/
def exponentValue (digits : List Char) : Nat :=
  digits.foldl (fun e c => if e < 65536 then 10 * e + (c.toNat - '0'.toNat) else e) 0

/-- Reads what follows the digits of a decimal: nothing, or `e` and a signed whole number. -/
def exponent? : List Char → Option Int
  | [] => some 0
  | c :: rest =>
    let (negative, digits) := splitSign rest
    if (c == 'e' || c == 'E') && !digits.isEmpty && digits.all Char.isDigit then
      some (if negative then -exponentValue digits else exponentValue digits)
    else none

/-- Reads digits with at most one point among or around them, then an exponent. -/
def decimal? (negative : Bool) (text : List Char) : Option Decimal :=
  let whole := text.takeWhile Char.isDigit
  let (fraction, rest) :=
    match text.dropWhile Char.isDigit with
    | '.' :: rest => (rest.takeWhile Char.isDigit, rest.dropWhile Char.isDigit)
    | rest => ([], rest)
  if whole.isEmpty && fraction.isEmpty then none
  else
    (exponent? rest).map fun e =>
      ⟨negative, Nat.ofDigitChars 10 (whole ++ fraction) 0, e - fraction.length⟩

/-- Reads a decimal, an infinity or a NaN, with an optional sign; the names in either case. -/
def parse? (text : List Char) : Option NumberText :=
  let (negative, body) := splitSign text
  let name := String.ofList (body.map Char.toLower)
  if name = "inf" ∨ name = "infinity" then some (infinity negative)
  else if name = "nan" then some nan
  else (decimal? negative body).map decimal

end NumberText

end Phrasebook
