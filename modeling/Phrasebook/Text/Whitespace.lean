/-!
# White space

The characters with the Unicode property `White_Space`.
-/

namespace Phrasebook.Text

/-- A character with the property `White_Space`. -/
def isWhitespace (c : Char) : Bool :=
  ('\u0009' ≤ c && c ≤ '\u000d') || c == '\u0020' || c == '\u0085' || c == '\u00a0' ||
    c == '\u1680' || ('\u2000' ≤ c && c ≤ '\u200a') || c == '\u2028' || c == '\u2029' ||
    c == '\u202f' || c == '\u205f' || c == '\u3000'

/-- The blanks that the core library knows are among those of Unicode. -/
theorem isWhitespace_of_core {c : Char} (h : c.isWhitespace = true) : isWhitespace c = true := by
  simp only [Char.isWhitespace, Bool.or_eq_true, decide_eq_true_eq] at h
  rcases h with ((rfl | rfl) | rfl) | rfl <;> decide

/-- Drops white space from both ends of a text. -/
def trim (text : List Char) : List Char :=
  ((text.dropWhile isWhitespace).reverse.dropWhile isWhitespace).reverse

end Phrasebook.Text
