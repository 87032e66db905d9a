/-!
# Characters, lines and lengths

A text is a list of characters. Here stand the characters that end a line or leave it blank, the
length of a text in bytes, and the cuts that reading uses: past a line end, past blank lines, and
before trailing blanks.
-/

namespace Phrasebook.Text

/-- A line feed and a carriage return break a line. -/
def isBreak (c : Char) : Bool := c == '\n' || c == '\r'

/-- Spaces and line breaks are blank; a tab is not. -/
def isBlank (c : Char) : Bool := c == ' ' || isBreak c

/-- The number of bytes of a text in UTF-8. -/
def byteLength : List Char → Nat
  | [] => 0
  | c :: text => c.utf8Size + byteLength text

/-- The bytes of two texts add up. -/
@[simp] theorem byteLength_append (s t : List Char) :
    byteLength (s ++ t) = byteLength s + byteLength t := by
  induction s with
  | nil => simp [byteLength]
  | cons c s ih => simp [byteLength, ih, Nat.add_assoc]

/-- What follows one line end: CR LF, LF, or a CR alone. -/
def afterLineEnd? : List Char → Option (List Char)
  | '\r' :: '\n' :: rest => some rest
  | '\n' :: rest => some rest
  | '\r' :: rest => some rest
  | _ => none

/-- Skips blanks from the start of a line, and goes back to the start of the first line that holds
anything else. -/
def dropBlankLinesFrom (line : List Char) : List Char → List Char
  | [] => []
  | ' ' :: rest => dropBlankLinesFrom line rest
  | '\r' :: '\n' :: rest => dropBlankLinesFrom rest rest
  | '\n' :: rest => dropBlankLinesFrom rest rest
  | '\r' :: rest => dropBlankLinesFrom rest rest
  | _ :: _ => line

/-- Drops the lines that hold nothing but spaces; the last line needs no line end. -/
def dropBlankLines (text : List Char) : List Char := dropBlankLinesFrom text text

/-- Drops the longest ending whose members all satisfy `p`. -/
def dropEndWhile {α : Type} (p : α → Bool) (text : List α) : List α :=
  (text.reverse.dropWhile p).reverse

/-- The part of `text` before its ending `rest`. -/
def before (text rest : List Char) : List Char := text.take (text.length - rest.length)

/-- What stands before the rest of a text is what was put before it. -/
@[simp] theorem before_append (s rest : List Char) : before (s ++ rest) rest = s := by
  simp [before]

/-- Cuts a text after each line feed; only the last line may lack one. -/
def lines : List Char → List (List Char)
  | [] => []
  | c :: rest =>
    if c = '\n' then [c] :: lines rest
    else
      match lines rest with
      | [] => [[c]]
      | line :: tail => (c :: line) :: tail

/-- The lines of a text put together are the text. -/
theorem flatten_lines (text : List Char) : (lines text).flatten = text := by
  induction text with
  | nil => rfl
  | cons c rest ih =>
    rw [lines]
    split
    · rw [List.flatten_cons, ih]; rfl
    · split
      · next h => rw [h] at ih; rw [← ih]; rfl
      · next h => rw [h] at ih; rw [← ih]; rfl

end Phrasebook.Text
