import Phrasebook.Text.Basic

/-!
# Lines and columns

The place of a byte offset in a text as people count it: lines and characters, both from one.
-/

namespace Phrasebook.Text

/-- The first `count` bytes of a text, if they are whole characters of it. -/
def takeBytes? : (count : Nat) → List Char → Option (List Char)
  | 0, _ => some []
  | _ + 1, [] => none
  | count + 1, c :: rest =>
    if c.utf8Size ≤ count + 1 then (takeBytes? (count + 1 - c.utf8Size) rest).map (c :: ·) else none

/-- The line and the column that follow a text. Only line feeds end a line here. -/
def positionAfter (text : List Char) : Nat × Nat :=
  (text.count '\n' + 1, (text.reverse.takeWhile (· != '\n')).length + 1)

/-- The line and column of a byte offset. An offset that is past the end or inside a character
stands for the end. -/
def lineColumn (text : List Char) (offset : Nat) : Nat × Nat :=
  positionAfter ((takeBytes? offset text).getD text)

end Phrasebook.Text
