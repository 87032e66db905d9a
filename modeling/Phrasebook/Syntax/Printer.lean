import Phrasebook.Syntax.Layout
import Phrasebook.Syntax.Tree
import Phrasebook.Text.Whitespace

/-!
# Writing a resource

Every resource has one normal form: four columns a level, one space around `=`, placeables written
`{ expr }`, and a pattern of several lines below its `=` unless its first character would be read as
the start of an attribute or of a variant there.
-/

namespace Phrasebook

/-- The column of a level of nesting. -/
def columnOf (level : Nat) : Nat := 4 * level

/-- A piece inside a level of nesting. -/
def Piece.at (level : Nat) (text : String) : Piece := ⟨columnOf level, text.toList⟩

/-- A select expression, or placeables around one. -/
def Expression.isSelect : Expression → Bool
  | .select .. => true
  | .placeable inner => inner.isSelect
  | _ => false

/-- What opens a placeable; two braces stand together. -/
def Expression.opening : Expression → String
  | .placeable _ => "\x7b"
  | _ => "\x7b "

/-- What closes a placeable. After a select expression a line has just begun. -/
def Expression.closing : Expression → String
  | .placeable _ => "\x7d"
  | .select .. => "\x7d"
  | _ => " \x7d"

namespace Pattern

/-- A pattern takes several lines if its text does or if it holds a select expression. -/
def isMultiline (p : Pattern) : Bool :=
  p.any fun
    | .text value => value.toList.contains '\n'
    | .placeable expression => expression.isSelect

/-- At the start of an indented line, the first character would begin an attribute or a variant. -/
def startsSpecial : Pattern → Bool
  | .text value :: _ => value.toList.head?.any fun c => c == '[' || c == '*' || c == '.'
  | _ => false

/-- The level at which the lines of a pattern stand. -/
def level (outer : Nat) (p : Pattern) : Nat := if p.isMultiline then outer + 1 else outer

/-- What separates a pattern from the `=` or the key before it. -/
def separator (p : Pattern) : Piece :=
  if p.isMultiline && !p.startsSpecial then .newline else .at 0 " "

end Pattern

/-- A literal in its source form. -/
def StringLiteral.source (l : StringLiteral) : String := "\"" ++ l.raw ++ "\""

/-- A named argument in its source form. -/
def NamedArgument.source (a : NamedArgument) : String :=
  a.name ++ ": " ++
    match a.value with
    | .string l => l.source
    | .number l => l.raw

/-- The key of a variant in its source form. -/
def VariantKey.source : VariantKey → String
  | .name id => id
  | .number l => l.raw

mutual

/-- An expression, inside a pattern whose lines stand at `level`. -/
def Expression.pieces (level : Nat) : Expression → List Piece
  | .string l => [.at level l.source]
  | .number l => [.at level l.raw]
  | .variableRef name => [.at level ("$" ++ name)]
  | .messageRef id attr => [.at level (referenceName id attr)]
  | .termRef id attr none => [.at level ("-" ++ referenceName id attr)]
  | .termRef id attr (some arguments) =>
    .at level ("-" ++ referenceName id attr) :: arguments.pieces level
  | .call name arguments => .at level name :: arguments.pieces level
  | .select selector variants =>
    selector.pieces level ++ [.at level " ->", .newline] ++ Variant.piecesOf (level + 1) variants
  | .placeable inner => [.at level "\x7b "] ++ inner.pieces level ++ [.at level " \x7d"]

/-- Call arguments between parentheses, the positional ones first. -/
def CallArguments.pieces (level : Nat) : CallArguments → List Piece
  | ⟨[], named⟩ => [.at level ("(" ++ ", ".intercalate (named.map (·.source)) ++ ")")]
  | ⟨first :: rest, named⟩ =>
    [.at level "("] ++ first.pieces level ++ Expression.piecesAfter level rest ++
      [.at level (String.join (named.map fun a => ", " ++ a.source) ++ ")")]

/-- Further arguments, each behind a comma. -/
def Expression.piecesAfter (level : Nat) : List Expression → List Piece
  | [] => []
  | expression :: rest =>
    .at level ", " :: expression.pieces level ++ Expression.piecesAfter level rest

/-- Variants, one a line; the mark of the default stands one column to the left. -/
def Variant.piecesOf (level : Nat) : List Variant → List Piece
  | [] => []
  | variant :: rest => variant.pieces level ++ Variant.piecesOf level rest

/-- A variant and the end of its line. -/
def Variant.pieces (level : Nat) : Variant → List Piece
  | ⟨key, value, isDefault⟩ =>
    (if isDefault then ⟨columnOf level - 1, ['*', '[']⟩ else .at level "[") ::
      .at level (key.source ++ "]") :: Pattern.separator value ::
        PatternElement.piecesOf (Pattern.level level value) value ++ [.newline]

/-- The elements of a pattern whose lines stand at `level`. -/
def PatternElement.piecesOf (level : Nat) : List PatternElement → List Piece
  | [] => []
  | element :: rest => element.pieces level ++ PatternElement.piecesOf level rest

/-- An element: text line by line, and a placeable between its braces. -/
def PatternElement.pieces (level : Nat) : PatternElement → List Piece
  | .text value => Piece.lines (columnOf level) value
  | .placeable expression =>
    [.at level expression.opening] ++ expression.pieces level ++ [.at level expression.closing]

end

/-- A pattern behind the `=` or the key of a unit at level `outer`. -/
def Pattern.pieces (outer : Nat) (p : Pattern) : List Piece :=
  Pattern.separator p :: PatternElement.piecesOf (Pattern.level outer p) p

/-- An attribute on a line of its own. -/
def Attribute.pieces (a : Attribute) : List Piece :=
  .newline :: .at 1 ("." ++ a.id ++ " =") :: a.value.pieces 1

/-- A comment line by line; a line of white space is left empty. -/
def Comment.pieces (c : Comment) : List Piece :=
  c.lines.flatMap fun line =>
    let isEmpty := line.toList.all Text.isWhitespace
    [.at 0 (if isEmpty then c.level.sigil else c.level.sigil ++ " " ++ line), .newline]

/-- The comment of a unit, if it has one. -/
def Comment.piecesOf : Option Comment → List Piece
  | none => []
  | some c => c.pieces

namespace Entry

/-- An entry and the end of its last line. Junk is written as it was read. -/
def pieces : Entry → List Piece
  | message m =>
    Comment.piecesOf m.comment ++ .at 0 (m.id ++ " =") :: (m.value.elim [] (Pattern.pieces 0)) ++
      m.attributes.flatMap Attribute.pieces ++ [.newline]
  | term t =>
    Comment.piecesOf t.comment ++ .at 0 ("-" ++ t.id ++ " =") :: t.value.pieces 0 ++
      t.attributes.flatMap Attribute.pieces ++ [.newline]
  | comment c => c.pieces ++ [.newline]
  | junk j => [.at 0 j.content]

/-- A comment of its own stands apart from the entry before it. -/
def gap : Entry → List Piece
  | comment _ => [.newline]
  | _ => []

/-- An entry that could not be read. -/
def isJunk : Entry → Bool
  | junk _ => true
  | _ => false

end Entry

namespace Resource

/-- The pieces of a resource. -/
def pieces (entries : List Entry) : List Piece :=
  match entries with
  | [] => []
  | first :: rest => first.pieces ++ rest.flatMap fun entry => entry.gap ++ entry.pieces

/-- Writes a resource, with its junk or without. -/
def print (withJunk : Bool) (r : Resource) : String :=
  let entries := if withJunk then r.entries else r.entries.filter fun entry => !entry.isJunk
  String.ofList (Piece.layout false (pieces entries))

end Resource

end Phrasebook
