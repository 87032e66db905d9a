import Phrasebook.Locale
import Phrasebook.Plural.Rule

/-!
# The rules of languages

Cardinal and ordinal rules of the supported languages, as the Common Locale Data Repository gives
them.
-/

namespace Phrasebook.Plural

namespace Comparison

/-- The operand is in one of the ranges. -/
def among (operand : Operand) (modulus : Nat) (ranges : List (Nat × Nat)) : Comparison :=
  ⟨operand, modulus, false, ranges⟩

/-- The operand is in none of the ranges. -/
def outside (operand : Operand) (modulus : Nat) (ranges : List (Nat × Nat)) : Comparison :=
  ⟨operand, modulus, true, ranges⟩

/-- The operand equals a number. -/
def equals (operand : Operand) (value : Nat) : Comparison := among operand 0 [(value, value)]

/-- The operand differs from a number. -/
def differs (operand : Operand) (value : Nat) : Comparison := outside operand 0 [(value, value)]

end Comparison

namespace Rules

open Comparison

/-- All numbers are alike. -/
def uniform : Rules := []

/-- One is the number 1, written in any way. -/
def unit : Rules := [(.one, [[equals .n 1]])]

/-- One is written without a fraction. -/
def wholeUnit : Rules := [(.one, [[equals .i 1, equals .v 0]])]

/-- One is any number up to 1. -/
def upToUnit : Rules := [(.one, [[equals .i 0], [equals .n 1]])]

/-- Whole millions. -/
def millions : Category × Condition :=
  (.many, [[differs .i 0, among .i 1000000 [(0, 0)], equals .v 0]])

/-- Zero, one and two by value; few and many by the last two digits. -/
def arabic : Rules :=
  [(.zero, [[equals .n 0]]), (.one, [[equals .n 1]]), (.two, [[equals .n 2]]),
    (.few, [[among .n 100 [(3, 10)]]]), (.many, [[among .n 100 [(11, 99)]]])]

/-- One and a few of whole numbers up to 4; many for what has a fraction. -/
def westSlavic : Rules :=
  [(.one, [[equals .i 1, equals .v 0]]), (.few, [[among .i 0 [(2, 4)], equals .v 0]]),
    (.many, [[differs .v 0]])]

/-- Whole numbers by their last digit, but one only for 1 itself. -/
def polish : Rules :=
  [(.one, [[equals .i 1, equals .v 0]]),
    (.few, [[equals .v 0, among .i 10 [(2, 4)], outside .i 100 [(12, 14)]]]),
    (.many, [[equals .v 0, differs .i 1, among .i 10 [(0, 1)]],
      [equals .v 0, among .i 10 [(5, 9)]], [equals .v 0, among .i 100 [(12, 14)]]])]

/-- Whole numbers by their last digit, those from 11 to 14 apart. -/
def eastSlavic : Rules :=
  [(.one, [[equals .v 0, among .i 10 [(1, 1)], outside .i 100 [(11, 11)]]]),
    (.few, [[equals .v 0, among .i 10 [(2, 4)], outside .i 100 [(12, 14)]]]),
    (.many, [[equals .v 0, among .i 10 [(0, 0)]], [equals .v 0, among .i 10 [(5, 9)]],
      [equals .v 0, among .i 100 [(11, 14)]]])]

/-- One for 1; few for fractions, 0, and what ends in 01 to 19. -/
def romanian : Rules :=
  [(.one, [[equals .i 1, equals .v 0]]),
    (.few, [[differs .v 0], [equals .n 0], [differs .n 1, among .n 100 [(1, 19)]]])]

/-- One for 1 and for fractions of it; two for 2. -/
def hebrew : Rules :=
  [(.one, [[equals .i 1, equals .v 0], [equals .i 0, differs .v 0]]),
    (.two, [[equals .i 2, equals .v 0]])]

/-- Ordinals of which the first ten are mostly told apart. -/
def northIndianOrdinal (firsts : List (Nat × Nat)) : Rules :=
  [(.one, [[among .n 0 firsts]]), (.two, [[among .n 0 [(2, 3)]]]), (.few, [[equals .n 4]]),
    (.many, [[equals .n 6]])]

/-- Ordinals in `st`, `nd` and `rd`, those of 11, 12 and 13 apart. -/
def englishOrdinal : Rules :=
  [(.one, [[among .n 10 [(1, 1)], outside .n 100 [(11, 11)]]]),
    (.two, [[among .n 10 [(2, 2)], outside .n 100 [(12, 12)]]]),
    (.few, [[among .n 10 [(3, 3)], outside .n 100 [(13, 13)]]])]

/-- Ordinals shortened in 1 and 3, that of 11 apart. -/
def spanishOrdinal : Rules :=
  [(.one, [[among .n 10 [(1, 1), (3, 3)], outside .n 100 [(11, 11)]]])]

/-- Ordinals of numerals that begin with a vowel. -/
def italianOrdinal : Rules :=
  [(.many, [[among .n 0 [(8, 8), (11, 11), (80, 80), (800, 800)]]])]

/-- Ordinals in `a`, those of 11 and 12 apart. -/
def swedishOrdinal : Rules :=
  [(.one, [[among .n 10 [(1, 2)], outside .n 100 [(11, 12)]]])]

/-- Ordinals of what ends in 3, that of 13 apart. -/
def ukrainianOrdinal : Rules :=
  [(.few, [[among .n 10 [(3, 3)], outside .n 100 [(13, 13)]]])]

end Rules

/-- The rules of one language. -/
structure Language where
  code : String
  cardinal : Rules
  ordinal : Rules

namespace Language

open Rules Comparison

/-- English, whose rules also serve languages that are not supported. -/
def english : Language := ⟨"en", wholeUnit, englishOrdinal⟩

/-- The supported languages. -/
def all : List Language := [
  english,
  ⟨"ar", arabic, uniform⟩,
  ⟨"bn", upToUnit, northIndianOrdinal [(1, 1), (5, 5), (7, 10)]⟩,
  ⟨"cs", westSlavic, uniform⟩,
  ⟨"de", wholeUnit, uniform⟩,
  ⟨"el", unit, uniform⟩,
  ⟨"es", unit ++ [millions], spanishOrdinal⟩,
  ⟨"fa", upToUnit, uniform⟩,
  ⟨"fr", [(.one, [[among .i 0 [(0, 1)]]]), millions], unit⟩,
  ⟨"he", hebrew, uniform⟩,
  ⟨"hi", upToUnit, northIndianOrdinal [(1, 1)]⟩,
  ⟨"id", uniform, uniform⟩,
  ⟨"it", wholeUnit ++ [millions], italianOrdinal⟩,
  ⟨"ja", uniform, uniform⟩,
  ⟨"ko", uniform, uniform⟩,
  ⟨"nl", wholeUnit, uniform⟩,
  ⟨"pl", polish, uniform⟩,
  ⟨"pt", [(.one, [[among .i 0 [(0, 1)]]]), millions], uniform⟩,
  ⟨"ro", romanian, unit⟩,
  ⟨"ru", eastSlavic, uniform⟩,
  ⟨"sk", westSlavic, uniform⟩,
  ⟨"sv", wholeUnit, swedishOrdinal⟩,
  ⟨"th", uniform, uniform⟩,
  ⟨"tr", unit, uniform⟩,
  ⟨"uk", eastSlavic, ukrainianOrdinal⟩,
  ⟨"vi", upToUnit, unit⟩,
  ⟨"zh", uniform, uniform⟩]

/-- The rules of a language for a kind of plural. -/
def rules (language : Language) : PluralKind → Rules
  | .cardinal => language.cardinal
  | .ordinal => language.ordinal

/-- The rules for the code of a language and a kind of plural, if there are any. -/
def rules? (code : String) (kind : PluralKind) : Option Rules :=
  (all.find? fun language => language.code = code).map (·.rules kind)

/-- The language of a locale, its code in either case; English if it is not supported. -/
def ofLocale (locale : String) : Language :=
  let code := (Locale.language locale).map Char.toLower
  (all.find? fun language => language.code.toList = code).getD english

end Language

end Phrasebook.Plural
