import Phrasebook.Syntax.Reader
import Phrasebook.Syntax.Tree

/-!
# Segments of a pattern

A pattern is read line by line into segments: runs of text with the indentation they had, and
placeables. From them the pattern is made: the indentation that its lines share is taken away, blank
lines at the end are dropped, and adjacent text becomes one element.
-/

namespace Phrasebook

/-- A piece of a pattern as it stands in the source. -/
inductive Segment where
  /-- Text up to a line end or a placeable. `indent` counts the spaces before text that starts a
  line and is absent for other text; `newline` tells that a line end follows. -/
  | text (indent : Option Nat) (content : List Char) (newline : Bool)
  /-- A placeable; `atMargin` tells that it is the first character of a line. -/
  | placeable (atMargin : Bool) (expression : Expression)

namespace Segment

/-- Text without anything but spaces. -/
def isBlank : Segment → Bool
  | text _ content _ => content.all (· == ' ')
  | placeable .. => false

/-- The indentation that a segment allows its pattern to share. Blank lines and placeables behind an
indentation allow any. -/
def margin? : Segment → Option Nat
  | text (some indent) content _ => if content.all (· == ' ') then none else some indent
  | text none _ _ => none
  | placeable atMargin _ => if atMargin then some 0 else none

/-- The least of the margins of a pattern. -/
def commonIndent (segments : List Segment) : Option Nat := (segments.filterMap margin?).min?

/-- The spaces left of an indentation when what is common to all lines is taken away. -/
def remainingIndent (common : Option Nat) : Option Nat → List Char
  | none => []
  | some indent => List.replicate (indent - common.getD indent) ' '

/-- The element that a segment stands for. Every line end is a line feed. -/
def element (common : Option Nat) : Segment → PatternElement
  | text indent content newline =>
    .text <| String.ofList <|
      remainingIndent common indent ++ content ++ if newline then ['\n'] else []
  | placeable _ expression => .placeable expression

end Segment

namespace Pattern

/-- Puts an element before others: empty text disappears, and text joins the text it meets. -/
def cons : PatternElement → Pattern → Pattern
  | .text s, .text t :: rest => .text (s ++ t) :: rest
  | .text s, rest => if s.isEmpty then rest else .text s :: rest
  | element, rest => element :: rest

/-- Joins adjacent text. -/
def join (elements : List PatternElement) : Pattern := elements.foldr cons []

/-- Drops blanks from the end of text in the last place. -/
def trimEnd : Pattern → Pattern
  | [] => []
  | [.text s] => [.text (String.ofList (Text.dropEndWhile Text.isBlank s.toList))]
  | element :: rest => element :: trimEnd rest

/-- The pattern that segments stand for; there is none if all of them are blank. -/
def ofSegments? (segments : List Segment) : Option Pattern :=
  let kept := Text.dropEndWhile Segment.isBlank segments
  if kept.isEmpty then none
  else some (trimEnd (join (kept.map (Segment.element (Segment.commonIndent segments)))))

end Pattern

namespace Reader

/-- Characters that, behind an indentation, end a pattern instead of going on with it. -/
def endsPattern (c : Char) : Bool := c == '}' || c == '.' || c == '[' || c == '*'

/-- Text up to a line end, a placeable or the end of the source. -/
def textSegment (indent : Option Nat) : Reader Segment := do
  let content ← takeWhile fun c => !Text.isBreak c && c != '{' && c != '}'
  match ← peek with
  | some '}' => fail .unbalancedClosingBrace
  | _ => return .text indent content (← acceptLineEnd)

/-- The next segment stands at the start of a line. It does so after a line end, and at first if the
pattern `startsLine`. -/
def atLineStart (startsLine : Bool) : (read : List Segment) → Bool
  | [] => startsLine
  | .text _ _ newline :: _ => newline
  | .placeable .. :: _ => false

/-- A segment inside a line, if one follows. -/
def inLine (placeable : Reader Expression) : Reader (Option Segment) := do
  match ← peek with
  | none => return none
  | some '{' => advance; return some (.placeable false (← placeable))
  | some _ => return some (← textSegment none)

/-- The first segment of a line, if the line belongs to the pattern: it is blank, begins with a
placeable, or is indented before a character that does not end the pattern. -/
def atLine (placeable : Reader Expression) : Reader (Option Segment) := do
  let line ← get
  let indent ← skipSpaces
  match ← peek with
  | none => return none
  | some '{' => advance; return some (.placeable (indent = 0) (← placeable))
  | some c =>
    if indent = 0 then
      -- An empty line belongs to the pattern until it turns out that nothing follows it.
      if Text.isBreak c then return some (← textSegment (some 0)) else return none
    else if endsPattern c then
      set line
      return none
    else return some (← textSegment (some indent))

/-- One segment of a pattern, or its end; the segments so far come last first. -/
def segmentStep (placeable : Reader Expression) (startsLine : Bool) (read : List Segment) :
    Reader (Step (List Segment) (List Segment)) := do
  let next ← if atLineStart startsLine read then atLine placeable else inLine placeable
  match next with
  | some segment => return .again (segment :: read)
  | none => return .done read.reverse

/-- A pattern, given a reader for what follows an opening brace. A pattern may begin on the line
below. -/
def pattern (placeable : Reader Expression) : Reader (Option Pattern) := do
  let _ ← skipSpaces
  let startsLine ← acceptLineEnd
  if startsLine then skipBlankLines
  return Pattern.ofSegments? (← loop (segmentStep placeable startsLine) [])

end Reader

end Phrasebook
