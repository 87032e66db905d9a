import Phrasebook.Plural.Language

/-!
# The category of a number

The plural category of a number in a locale, told from the numeral that is written for it.
-/

namespace Phrasebook.NumberValue

open Plural

/-- The plural category of a number. Rules can read a numeral that is made of digits and not too
long; any other is told by its text. -/
def category (x : NumberValue) (locale : String) : Category :=
  if Operands.readable x.numeral then
    categorize (Language.rules? (Language.ofLocale locale).code x.options.kind)
      (.ofNumeral x.numeral) x.plainText
  else textual x.plainText

end Phrasebook.NumberValue
