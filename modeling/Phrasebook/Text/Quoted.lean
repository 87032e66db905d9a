import Phrasebook.Text.GraphemeExtend
import Phrasebook.Text.Graphic
import Phrasebook.Text.Whitespace

/-!
# Quoted text

Text between quotes, with escapes for what would not be seen or would end it.
-/

namespace Phrasebook.Text

/-- The letters that fill the place of a missing part of a Hangul syllable. -/
def hangulFillers : List Char := ['\u115f', '\u1160', '\u3164', '\uffa0']

/-- The voicing marks of halfwidth kana. They extend what is before them, but are letters that take
a place of their own. -/
def halfwidthVoicingMarks : List Char := ['\uff9e', '\uff9f']

/-- A mark that is shown on the character before it. -/
def isCombining (c : Char) : Bool := isGraphemeExtend c && !halfwidthVoicingMarks.contains c

/-- Characters that leave no mark of their own: those that are not graphic, white space other than
the common space, fillers, and combining marks. -/
def isInvisible (c : Char) : Bool :=
  !isGraphic c || (isWhitespace c && c != ' ') || hangulFillers.contains c || isCombining c

/-- A character inside quotes. -/
def escapeChar (c : Char) : List Char :=
  if c = '"' ∨ c = '\\' then ['\\', c]
  else if c = '\n' then ['\\', 'n']
  else if c = '\r' then ['\\', 'r']
  else if c = '\t' then ['\\', 't']
  else if c.toNat = 0 then ['\\', '0']
  else if isInvisible c then ['\\', 'u', '\x7b'] ++ Nat.toDigits 16 c.toNat ++ ['\x7d']
  else [c]

/-- A text between quotes. -/
def quote (text : String) : String :=
  String.ofList ('"' :: text.toList.flatMap escapeChar ++ ['"'])

end Phrasebook.Text
