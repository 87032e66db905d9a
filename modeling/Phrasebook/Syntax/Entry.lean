import Phrasebook.Syntax.Expression

/-!
# Entries

How one message, term or comment is read. An entry is told by its first character; its span begins
at a given offset and ends before the blanks that follow it.
-/

namespace Phrasebook.Reader

/-- A pattern of an entry, in which the full nesting is open. -/
def entryPattern : Reader (Option Pattern) := pattern (Nested.levels maxNesting).placeable

/-- `id = pattern`, where the pattern may be missing. -/
def definition : Reader (String × Option Pattern) := do
  let id ← identifier
  let _ ← skipSpaces
  expect '='
  return (id, ← entryPattern)

/-- One more attribute, if a line begins with a point; the attributes so far come last first. -/
def attributeStep (read : List Attribute) : Reader (Step (List Attribute) (List Attribute)) := do
  let line ← get
  let _ ← skipSpaces
  if ← accept '.' then
    match ← definition with
    | (id, some value) => return .again (⟨id, value⟩ :: read)
    | (_, none) => fail .missingValue
  else
    set line
    return .done read.reverse

/-- The attributes below a value. -/
def attributes : Reader (List Attribute) := loop attributeStep []

/-- The span of a text that begins at `offset`, without the blanks at its end. -/
def spanOf (offset : Nat) (text : List Char) : Span :=
  ⟨offset, offset + Text.byteLength (Text.dropEndWhile Text.isBlank text)⟩

/-- A message, which has a value or an attribute. -/
def message (offset : Nat) : Reader Message := do
  let ((id, value, attributes), text) ← withText do
    let (id, value) ← definition
    let attributes ← attributes
    if value.isNone && attributes.isEmpty then fail (.expectedMessageField id)
    return (id, value, attributes)
  return { id, value, attributes, comment := none, span := spanOf offset text }

/-- A term, which has a value. -/
def term (offset : Nat) : Reader Term := do
  let ((id, value, attributes), text) ← withText do
    expect '-'
    match ← definition with
    | (id, none) => fail (.expectedTermField id)
    | (id, some value) => return (id, value, ← attributes)
  return { id, value, attributes, comment := none, span := spanOf offset text }

/-- The mark of a comment. -/
def commentLevel : Reader CommentLevel
  | '#' :: '#' :: '#' :: '#' :: rest => .error ⟨.expectedToken ' ', '#' :: rest⟩
  | '#' :: '#' :: '#' :: rest => .ok (.resource, rest)
  | '#' :: '#' :: rest => .ok (.group, rest)
  | '#' :: rest => .ok (.entry, rest)
  | text => .error ⟨.expectedToken '#', text⟩

/-- The rest of a comment line, behind its mark: nothing, or a space and a text. -/
def commentLine : Reader String := do
  if ← acceptLineEnd then return ""
  if (← peek).isNone then return ""
  expect ' '
  let text ← takeWhile fun c => !Text.isBreak c
  let _ ← acceptLineEnd
  return String.ofList text

/-- Moves past the mark of a comment line of the same level, if one follows. -/
def acceptSigil (level : CommentLevel) : Reader Bool := fun text =>
  match level.sigil.toList.isPrefixOf? text with
  | some rest =>
    let isMark := rest.head?.all fun c => c == ' ' || Text.isBreak c
    .ok (if isMark then (true, rest) else (false, text))
  | none => .ok (false, text)

/-- One more line of a comment, if one follows; the lines so far come last first. -/
def commentStep (level : CommentLevel) (read : List String) :
    Reader (Step (List String) (List String)) := do
  if ← acceptSigil level then return .again ((← commentLine) :: read)
  return .done read.reverse

/-- A comment: lines of one level. -/
def comment : Reader Comment := do
  let level ← commentLevel
  let first ← commentLine
  return ⟨level, ← loop (commentStep level) [first]⟩

/-- An entry: a comment after `#`, a term after `-`, and a message after anything else. -/
def entry (offset : Nat) : Reader Entry := do
  match ← peek with
  | some '#' => return .comment (← comment)
  | some '-' => return .term (← term offset)
  | _ => return .message (← message offset)

end Phrasebook.Reader
