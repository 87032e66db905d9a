import Phrasebook.Syntax.Diagnostic
import Phrasebook.Text.Basic

/-!
# Readers

A reader takes something off the front of a text, or fails with a problem at the place it has come
to. Beside the single steps stands one loop, which every repetition of the grammar uses; it needs no
bound of its own, since a step that goes on has consumed something.
-/

namespace Phrasebook

/-- A problem and the text from the place where it was met. -/
structure Failure where
  problem : Problem
  rest : List Char

/-- Takes something off the front of a text. -/
abbrev Reader := StateT (List Char) (Except Failure)

namespace Reader

variable {α σ β : Type}

/-- Fails at the current place. -/
def fail (problem : Problem) : Reader α := fun text => .error ⟨problem, text⟩

/-- The next character, which stays. -/
def peek : Reader (Option Char) := fun text => .ok (text.head?, text)

/-- Moves past one character. -/
def advance : Reader Unit := fun text => .ok ((), text.tail)

/-- Takes the longest run of characters that satisfy `p`. -/
def takeWhile (p : Char → Bool) : Reader (List Char) :=
  fun text => .ok (text.takeWhile p, text.dropWhile p)

/-- Moves past `c` if it is the next character. -/
def accept (c : Char) : Reader Bool
  | [] => .ok (false, [])
  | d :: rest => .ok (if d = c then (true, rest) else (false, d :: rest))

/-- Moves past `c`, which has to be the next character. -/
def expect (c : Char) : Reader Unit := do
  if !(← accept c) then fail (.expectedToken c)

/-- Moves past spaces, and counts them. -/
def skipSpaces : Reader Nat := return (← takeWhile (· == ' ')).length

/-- Moves past spaces and line breaks. -/
def skipBlanks : Reader Unit := fun text => .ok ((), text.dropWhile Text.isBlank)

/-- Moves past one line end, if it is next. -/
def acceptLineEnd : Reader Bool := fun text =>
  match Text.afterLineEnd? text with
  | some rest => .ok (true, rest)
  | none => .ok (false, text)

/-- Moves past the lines that hold nothing but spaces. -/
def skipBlankLines : Reader Unit := fun text => .ok ((), Text.dropBlankLines text)

/-- Keeps the text that a reader consumes beside its result. -/
def withText (reader : Reader α) : Reader (α × List Char) := fun text =>
  match reader text with
  | .ok (a, rest) => .ok ((a, Text.before text rest), rest)
  | .error failure => .error failure

/-- Whether a loop goes on from a state or ends with a result. -/
inductive Step (σ β : Type) where
  | again (state : σ)
  | done (result : β)

/-- Takes at most `count` steps. -/
def iterate (step : σ → Reader (Step σ β)) : (count : Nat) → σ → Reader β
  | 0, _ => fail .generic
  | count + 1, state => do
    match ← step state with
    | .again next => iterate step count next
    | .done result => return result

/-- Takes steps until one is the last. Each step but the last consumes a character, so the length of
the text bounds their number. -/
def loop (step : σ → Reader (Step σ β)) (start : σ) : Reader β :=
  fun text => iterate step (text.length + 1) start text

/-- Whether a character may follow the first one of an identifier. -/
def isIdentifierChar (c : Char) : Bool := c.isAlphanum || c == '_' || c == '-'

/-- An identifier: a letter, then letters, digits, `_` and `-`. -/
def identifier : Reader String
  | [] => .error ⟨.expectedCharRange .letters, []⟩
  | c :: rest =>
    if c.isAlpha then
      .ok (String.ofList (c :: rest.takeWhile isIdentifierChar), rest.dropWhile isIdentifierChar)
    else .error ⟨.expectedCharRange .letters, c :: rest⟩

end Reader

end Phrasebook
