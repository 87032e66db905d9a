import Phrasebook.Number.Double

/-!
# Numbers with display options

A number as messages handle it: a double with the options that say how it is written and which
plural rules it follows.
-/

namespace Phrasebook

/-- How a number is written. -/
inductive NumberStyle where
  | decimal
  /-- A hundredfold, before a percent sign. -/
  | percent
  deriving DecidableEq

/-- Which plural rules a number follows. -/
inductive PluralKind where
  /-- Quantities, such as "2 files". -/
  | cardinal
  /-- Positions, such as "2nd file". -/
  | ordinal
  deriving DecidableEq

/-- The options of a number; an absent digit count sets no bound. -/
structure NumberOptions where
  minFractionDigits : Option Nat := none
  maxFractionDigits : Option Nat := none
  minIntegerDigits : Option Nat := none
  useGrouping : Bool := false
  style : NumberStyle := .decimal
  kind : PluralKind := .cardinal
  deriving DecidableEq

/-- A number with its options. -/
structure NumberValue where
  value : Double
  options : NumberOptions := {}

namespace NumberValue

/-- Equal as numbers, with equal options; a NaN differs from itself. -/
def same (x y : NumberValue) : Bool := x.value.numEq y.value && x.options == y.options

/-- The number that is written, which for percentages is the hundredfold. -/
def scaled (x : NumberValue) : Double :=
  match x.options.style with
  | .decimal => x.value
  | .percent => x.value.timesHundred

end NumberValue

end Phrasebook
