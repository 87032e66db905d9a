/-!
# Locale identifiers

A locale is named by subtags such as `en-US` or `pt_BR`, the language first.
-/

namespace Phrasebook.Locale

/-- The language of a locale: what stands before the first `-` or `_`. -/
def language (locale : String) : List Char :=
  locale.toList.takeWhile fun c => c != '-' && c != '_'

end Phrasebook.Locale
