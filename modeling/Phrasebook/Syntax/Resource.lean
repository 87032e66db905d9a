import Phrasebook.Syntax.Entry

/-!
# Reading a resource

A source is cut into blocks, one per entry. Where an entry cannot be read, the block is junk: it
reaches to the next line that looks like the start of an entry, so that no fault spreads to the
entries around it. A comment then joins the message or term on the line below it.
-/

namespace Phrasebook

/-- An entry of a source, before comments are joined to what they are about. -/
structure Block where
  entry : Entry
  /-- Another entry begins on the line below. -/
  meetsNext : Bool

namespace Block

/-- A text looks like the start of an entry if it begins with a letter, `-` or `#`. -/
def startsEntry (text : List Char) : Bool :=
  text.head?.any fun c => c.isAlpha || c == '-' || c == '#'

/-- Skips to the first line, after the one at hand, that looks like the start of an entry. -/
def nextEntry : List Char → List Char
  | [] => []
  | c :: rest => if Text.isBreak c && startsEntry rest then rest else nextEntry rest

/-- Where the search for the next entry begins, given what stands before and after a problem: at the
last line break before it, or else at the problem itself. -/
def resumption (read rest : List Char) : List Char :=
  let line := (read.reverse.takeWhile fun c => !Text.isBreak c).reverse
  if line.length = read.length then rest
  else read.drop (read.length - line.length - 1) ++ rest

/-- The junk that begins at `offset` with `text`, in which reading failed. -/
def junk (offset : Nat) (text : List Char) (failure : Failure) : Junk × List Char :=
  let read := Text.before text failure.rest
  let rest := nextEntry (resumption read failure.rest)
  let content := Text.before text rest
  let stop := offset + Text.byteLength content
  let place := offset + Text.byteLength read
  let span :=
    -- Recovery may go on from a line before the problem, which then stands behind the junk.
    if stop < place then ⟨stop, stop⟩
    else ⟨place, place + Text.byteLength (failure.rest.take 1)⟩
  (⟨String.ofList content, ⟨failure.problem, span⟩, ⟨offset, stop⟩⟩, rest)

/-- The block that begins at `offset` with `text`, and what follows it and the blank lines below. -/
def read (offset : Nat) (text : List Char) : Block × List Char :=
  match Reader.entry offset text with
  | .ok (entry, after) =>
    let rest := Text.dropBlankLines after
    (⟨entry, rest.length = after.length && !rest.isEmpty⟩, rest)
  | .error failure =>
    let (junk, rest) := junk offset text failure
    (⟨.junk junk, false⟩, Text.dropBlankLines rest)

/-- At most `count` blocks of a text that begins at `offset`. -/
def readAll : (count offset : Nat) → (text : List Char) → List Block
  | 0, _, _ => []
  | count + 1, offset, text =>
    if text.isEmpty then []
    else
      let (block, rest) := read offset text
      block :: readAll count (offset + Text.byteLength (Text.before text rest)) rest

/-- The entries of a sequence of blocks. A comment with one `#` joins a message or term directly
below it. -/
def joinComments : List Block → List Entry
  | ⟨.comment ⟨.entry, lines⟩, true⟩ :: ⟨.message message, _⟩ :: rest =>
    .message { message with comment := some ⟨.entry, lines⟩ } :: joinComments rest
  | ⟨.comment ⟨.entry, lines⟩, true⟩ :: ⟨.term term, _⟩ :: rest =>
    .term { term with comment := some ⟨.entry, lines⟩ } :: joinComments rest
  | block :: rest => block.entry :: joinComments rest
  | [] => []

end Block

/-- Reads a source. Every block takes a character at least, so their number is bounded by the length
of the source. -/
def Resource.parse (source : String) : Resource :=
  let text := source.toList
  let start := Text.dropBlankLines text
  ⟨Block.joinComments
    (Block.readAll start.length (Text.byteLength (Text.before text start)) start)⟩

end Phrasebook
