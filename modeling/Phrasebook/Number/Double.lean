import Phrasebook.Number.Rounding

/-!
# Binary floating-point numbers

A binary interchange format is given by its precision, the exponent of its smallest unit and the bit
pattern of its infinity; a non-negative quotient is rounded into it, ties to even. A double is its
64 bits, read as a sign and a magnitude in the format of precision 53.
-/

namespace Phrasebook

/-- A binary interchange format, apart from its sign bit. -/
structure BinaryFormat where
  /-- The bits of a significand, the leading one included. -/
  precision : Nat
  /-- The exponent of the least unit. -/
  minExponent : Int
  /-- The bit pattern of infinity; greater patterns are not numbers. -/
  infinity : Nat

namespace BinaryFormat

/-- Double precision. -/
def binary64 : BinaryFormat := ⟨53, -1074, 0x7FF0000000000000⟩

/-- Single precision. -/
def binary32 : BinaryFormat := ⟨24, -149, 0x7F800000⟩

/-- The leading bit of a significand, also the least bit pattern that has one. -/
def leadingBit (f : BinaryFormat) : Nat := Nat.pow 2 (f.precision - 1)

/-- The whole number that a finite bit pattern scales by a power of two. -/
def significand (f : BinaryFormat) (bits : Nat) : Nat :=
  if bits < f.leadingBit then bits else f.leadingBit + bits % f.leadingBit

/-- The power of two that scales the significand of a finite bit pattern. -/
def exponent (f : BinaryFormat) (bits : Nat) : Int :=
  f.minExponent + (bits / f.leadingBit - 1 : Nat)

/-- The value of a finite bit pattern as a quotient. -/
def quotient (f : BinaryFormat) (bits : Nat) : Nat × Nat :=
  (f.significand bits * Nat.pow 2 (f.exponent bits).toNat, Nat.pow 2 (-f.exponent bits).toNat)

/-- The least exponent at which `n / d` has no more than `precision` whole bits. -/
def exponentOf (f : BinaryFormat) (n d : Nat) : Int :=
  let low : Int := (n.log2 : Int) - d.log2 - f.precision
  let whole := low + f.precision
  let fits := n * Nat.pow 2 (-whole).toNat < d * Nat.pow 2 whole.toNat
  max f.minExponent (if fits then low else low + 1)

/-- The bit pattern nearest to `n / d`, a tie going to the even significand; what is beyond the
greatest finite value becomes infinity. -/
def round (f : BinaryFormat) (n d : Nat) : Nat :=
  if n = 0 then 0
  else
    let e := f.exponentOf n d
    let m := roundHalfEven (n * Nat.pow 2 (-e).toNat) (d * Nat.pow 2 e.toNat)
    min f.infinity ((e - f.minExponent).toNat * f.leadingBit + m)

end BinaryFormat

/-- A double-precision number, as its bits. -/
structure Double where
  bits : UInt64
  deriving DecidableEq

namespace Double

/-- The bit that tells the sign. -/
def signBit : Nat := 0x8000000000000000

/-- The sign bit is set. -/
def isNegative (x : Double) : Bool := signBit ≤ x.bits.toNat

/-- The bits without the sign. -/
def magnitude (x : Double) : Nat := x.bits.toNat % signBit

/-- The number with a given sign and magnitude bits. -/
def ofMagnitude (negative : Bool) (bits : Nat) : Double :=
  ⟨UInt64.ofNat (bits + if negative then signBit else 0)⟩

/-- A bit pattern past infinity is not a number. -/
def isNaN (x : Double) : Bool := BinaryFormat.binary64.infinity < x.magnitude

/-- Either of the infinities. -/
def isInfinite (x : Double) : Bool := x.magnitude = BinaryFormat.binary64.infinity

/-- A number that is a quotient. -/
def isFinite (x : Double) : Bool := x.magnitude < BinaryFormat.binary64.infinity

/-- Either of the zeros. -/
def isZero (x : Double) : Bool := x.magnitude = 0

/-- Less than zero; neither a zero nor a NaN is. -/
def isBelowZero (x : Double) : Bool := x.isNegative && !x.isZero && !x.isNaN

/-- The absolute value of a finite number as a quotient. -/
def quotient (x : Double) : Nat × Nat := BinaryFormat.binary64.quotient x.magnitude

/-- Equality of numbers: the zeros are equal, and a NaN equals nothing. -/
def numEq (x y : Double) : Bool :=
  !x.isNaN && !y.isNaN && (x.bits == y.bits || (x.isZero && y.isZero))

/-- The absolute value. -/
def abs (x : Double) : Double := ofMagnitude false x.magnitude

/-- The number nearest to `± n / d`. -/
def ofQuotient (negative : Bool) (n d : Nat) : Double :=
  ofMagnitude negative (BinaryFormat.binary64.round n d)

/-- The number nearest to a whole number. -/
def ofInt (n : Int) : Double := ofQuotient (n < 0) n.natAbs 1

/-- The infinity with a given sign. -/
def infinity (negative : Bool) : Double :=
  ofMagnitude negative BinaryFormat.binary64.infinity

/-- The quiet NaN without a payload. -/
def nan : Double := ⟨0x7FF8000000000000⟩

/-- A hundredfold, rounded. -/
def timesHundred (x : Double) : Double :=
  if x.isFinite then ofQuotient x.isNegative (100 * x.quotient.1) x.quotient.2 else x

/-- The single-precision number nearest to `± n / d`. -/
def ofQuotientSingle (negative : Bool) (n d : Nat) : Double :=
  let bits := BinaryFormat.binary32.round n d
  if bits = BinaryFormat.binary32.infinity then infinity negative
  else
    let (n, d) := BinaryFormat.binary32.quotient bits
    ofQuotient negative n d

/-- The value, where it is a whole number that is not negative. -/
def toNat? (x : Double) : Option Nat :=
  let (n, d) := x.quotient
  if x.isFinite && !x.isBelowZero && n % d == 0 then some (n / d) else none

end Double

end Phrasebook
