import Phrasebook.Locale
import Phrasebook.Number.Numeral

/-!
# Numbers in the manner of a language

The plain numeral with the separators of a language and, for percentages, a percent sign.
-/

namespace Phrasebook

/-- The characters before a fraction and between groups of digits. -/
structure Separators where
  decimal : Char
  group : Char

namespace Separators

/-- Languages that write `1.234,5`. -/
def commaAndPoint : List String :=
  ["de", "es", "it", "nl", "pt", "id", "tr", "ro", "el", "vi", "da"]

/-- Languages that write `1 234,5` with a no-break space. -/
def commaAndSpace : List String :=
  ["ru", "uk", "pl", "cs", "sk", "sv", "fi", "nb", "no", "bg", "hu"]

/-- The separators of a locale, by its language as it is spelled; unlisted ones write `1,234.5`. -/
def ofLocale (locale : String) : Separators :=
  let language := String.ofList (Locale.language locale)
  if language ∈ commaAndPoint then ⟨',', '.'⟩
  else if language = "fr" then ⟨',', '\u202f'⟩
  else if language ∈ commaAndSpace then ⟨',', '\u00a0'⟩
  else ⟨'.', ','⟩

end Separators

/-- Separates digits into groups of three, counted from the right. -/
def groupDigits (separator : Char) (digits : List Char) : List Char :=
  (digits.foldr (fun c (count, out) =>
    (count + 1, if count != 0 && count % 3 == 0 then c :: separator :: out else c :: out))
    (0, [])).2

/-- A numeral with the separators of a language. -/
def Numeral.localize (x : Numeral) (separators : Separators) (grouped : Bool) : List Char :=
  (if x.negative then ['-'] else []) ++
    (if grouped then groupDigits separators.group x.whole else x.whole) ++
    (if x.fraction.isEmpty then [] else separators.decimal :: x.fraction)

/-- The text of a number in a locale. -/
def NumberValue.format (x : NumberValue) (locale : String) : String :=
  if x.value.isNaN then "NaN"
  else if x.value.isInfinite then (if x.value.isNegative then "-∞" else "∞")
  else
    let text := x.numeral.localize (.ofLocale locale) x.options.useGrouping
    String.ofList <|
      match x.options.style with
      | .decimal => text
      | .percent => text ++ ['%']

end Phrasebook
