import Phrasebook.Number.Numeral

/-!
# Plural rules

A language sorts numbers into at most six categories. A rule speaks of operands: parts of the
numeral as it is written, so that `1` and `1.0` can differ. The first category whose rule holds is
the one of a number, and `other` where none does.
-/

namespace Phrasebook.Plural

/-- The categories of numbers. -/
inductive Category where
  | zero
  | one
  | two
  | few
  | many
  | other
  deriving DecidableEq

/-- The name of a category, which selects variants. -/
def Category.name : Category → String
  | zero => "zero"
  | one => "one"
  | two => "two"
  | few => "few"
  | many => "many"
  | other => "other"

/-- The parts of a numeral that rules speak of. -/
structure Operands where
  /-- The whole part. -/
  i : Nat
  /-- The number of fraction digits. -/
  v : Nat
  /-- The number of fraction digits without trailing zeros. -/
  w : Nat
  /-- The fraction digits as a number. -/
  f : Nat
  /-- The fraction digits without trailing zeros as a number. -/
  t : Nat
  deriving DecidableEq

namespace Operands

/-- How many digits of each part count: the last of the whole part, the first of the fraction. -/
def precision : Nat := 18

/-- The most digits that either part of a numeral may have. -/
def maxDigits : Nat := 32768

/-- A numeral made of digits, neither part of them too long. -/
def readable (x : Numeral) : Bool :=
  x.whole.all Char.isDigit && x.fraction.all Char.isDigit &&
    x.whole.length ≤ maxDigits && x.fraction.length ≤ maxDigits

/-- The value of the digits of a whole part. One with more digits than count is large, whatever they
are. The moduli of the rules divide the power of ten, so that remainders are those of the part. -/
def wholeValue (digits : List Char) : Nat :=
  if digits.length ≤ precision then Nat.ofDigitChars 10 digits 0
  else Nat.pow 10 precision + Nat.ofDigitChars 10 (digits.drop (digits.length - precision)) 0

/-- The operands of a numeral. -/
def ofNumeral (x : Numeral) : Operands :=
  let visible := x.fraction.take precision
  let significant := Text.dropEndWhile (· == '0') visible
  { i := wholeValue x.whole
    v := visible.length
    w := significant.length
    f := Nat.ofDigitChars 10 visible 0
    t := Nat.ofDigitChars 10 significant 0 }

end Operands

/-- The operand of a comparison; `n` is the number itself. -/
inductive Operand where
  | n
  | i
  | v
  | w
  | f
  | t
  deriving DecidableEq

/-- The value of an operand, if it is a whole number. -/
def Operand.value? (x : Operands) : Operand → Option Nat
  | n => if x.w = 0 then some x.i else none
  | i => some x.i
  | v => some x.v
  | w => some x.w
  | f => some x.f
  | t => some x.t

/-- An operand, reduced by a modulus unless that is zero, is in one of the ranges, or in none of
them if the relation is `negated`. An operand that is not whole satisfies neither. -/
structure Comparison where
  operand : Operand
  modulus : Nat
  negated : Bool
  ranges : List (Nat × Nat)

/-- The operand is whole and stands in the relation. -/
def Comparison.holds (r : Comparison) (x : Operands) : Bool :=
  (r.operand.value? x).any fun value =>
    let reduced := value % r.modulus
    (r.ranges.any fun (low, high) => low ≤ reduced && reduced ≤ high) != r.negated

/-- Alternatives, each a list of comparisons that hold together. -/
abbrev Condition := List (List Comparison)

/-- All comparisons of one alternative hold. -/
def Condition.holds (c : Condition) (x : Operands) : Bool := c.any fun all => all.all (·.holds x)

/-- The categories of a language with their conditions, in the order in which they are tried. -/
abbrev Rules := List (Category × Condition)

/-- The first category whose condition holds. -/
def Rules.category (rules : Rules) (x : Operands) : Category :=
  ((rules.find? fun (_, condition) => condition.holds x).map (·.1)).getD .other

/-- The rule of two categories where there are no others, told from the plain text of a number. -/
def textual (plain : String) : Category := if plain = "1" then .one else .other

/-- The category by the rules of a language if there are any, else by the rule of two categories. -/
def categorize (rules : Option Rules) (x : Operands) (plain : String) : Category :=
  match rules with
  | some rules => rules.category x
  | none => textual plain

end Phrasebook.Plural
