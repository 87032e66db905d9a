import Phrasebook.Text.Basic

/-!
# Laying out lines

Output is a sequence of pieces, each with the column at which it stands if it is the first on its
line. A line break is a piece of its own, so that an empty line holds no spaces.
-/

namespace Phrasebook

/-- A piece of output, and its column where it begins a line. -/
structure Piece where
  column : Nat
  text : List Char

namespace Piece

/-- A line break. -/
def newline : Piece := ⟨0, ['\n']⟩

/-- The lines of a text, each of which begins at `column`. -/
def lines (column : Nat) (text : String) : List Piece :=
  (Text.lines text.toList).map fun line => if line = ['\n'] then newline else ⟨column, line⟩

/-- Writes pieces one after the other; `lineStart` tells that a line has just begun. -/
def layout : (lineStart : Bool) → List Piece → List Char
  | _, [] => []
  | lineStart, piece :: rest =>
    if piece.text.isEmpty then layout lineStart rest
    else
      (if lineStart then List.replicate piece.column ' ' else []) ++ piece.text ++
        layout (piece.text.getLast? == some '\n') rest

end Piece

end Phrasebook
