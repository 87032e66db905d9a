import Phrasebook.Number.Decimal
import Phrasebook.Syntax.Reader
import Phrasebook.Syntax.Tree

/-!
# Literals

Numbers are written `-?[0-9]+(\.[0-9]+)?`. Strings stand between quotes on one line; a backslash
escapes a quote or itself, and names a code point by four or six hexadecimal digits.
-/

namespace Phrasebook

/-- The literal with the given digits; a point is written only before a fraction. -/
def NumberLiteral.ofDigits (negative : Bool) (whole fraction : List Char) : NumberLiteral where
  value := NumberText.toDouble <|
    .decimal ⟨negative, Nat.ofDigitChars 10 (whole ++ fraction) 0, -fraction.length⟩
  raw := String.ofList <|
    (if negative then ['-'] else []) ++ whole ++ (if fraction.isEmpty then [] else '.' :: fraction)

namespace Reader

/-- One digit or more. -/
def digits : Reader (List Char) := do
  let digits ← takeWhile Char.isDigit
  if digits.isEmpty then fail (.expectedCharRange .digits)
  return digits

/-- A point and the digits after it, or nothing where no digit follows the point. -/
def fraction : Reader (List Char)
  | '.' :: rest =>
    let digits := rest.takeWhile Char.isDigit
    .ok (if digits.isEmpty then ([], '.' :: rest) else (digits, rest.dropWhile Char.isDigit))
  | text => .ok ([], text)

/-- A number. -/
def numberLiteral : Reader NumberLiteral := do
  let negative ← accept '-'
  let whole ← digits
  return .ofDigits negative whole (← fraction)

/-- A hexadecimal digit in either case. -/
def isHexDigit (c : Char) : Bool :=
  c.isDigit || ('a' ≤ c && c ≤ 'f') || ('A' ≤ c && c ≤ 'F')

/-- The value of a hexadecimal digit. -/
def hexDigitValue (c : Char) : Nat :=
  if c.isDigit then c.toNat - '0'.toNat
  else if 'a' ≤ c then c.toNat - 'a'.toNat + 10
  else c.toNat - 'A'.toNat + 10

/-- The number that hexadecimal digits stand for. -/
def hexValue (digits : List Char) : Nat :=
  digits.foldl (fun n c => 16 * n + hexDigitValue c) 0

/-- The character with a code point; the replacement character where there is none. -/
def charOfCodePoint (n : Nat) : Char := if n.isValidChar then Char.ofNat n else '\uFFFD'

/-- Exactly `count` hexadecimal digits of an escape that began with `marker`. -/
def codePoint (marker : Char) (count : Nat) : Reader Char := fun text =>
  let digits := (text.take count).takeWhile isHexDigit
  let rest := text.drop digits.length
  if digits.length = count then .ok (charOfCodePoint (hexValue digits), rest)
  else .error ⟨.invalidUnicodeEscape (String.ofList ('\\' :: marker :: digits)), rest⟩

/-- What follows the backslash of an escape. -/
def escape : Reader Char := do
  match ← peek with
  | some '\\' => advance; return '\\'
  | some '"' => advance; return '"'
  | some 'u' => advance; codePoint 'u' 4
  | some 'U' => advance; codePoint 'U' 6
  | some c => fail (if Text.isBreak c then .unterminatedString else .unknownEscape c)
  | none => fail .unterminatedString

/-- One character of a string, or its end; the characters so far come last first. -/
def stringStep (read : List Char) : Reader (Step (List Char) (List Char)) := do
  match ← peek with
  | none => fail .unterminatedString
  | some '"' => return .done read.reverse
  | some '\\' => advance; return .again ((← escape) :: read)
  | some c =>
    if Text.isBreak c then fail .unterminatedString
    advance
    return .again (c :: read)

/-- A string between quotes. -/
def stringLiteral : Reader StringLiteral := do
  expect '"'
  let (value, raw) ← withText (loop stringStep [])
  advance
  return ⟨String.ofList value, String.ofList raw⟩

/-- A string or a number, where one begins. -/
def literal? : Reader (Option Literal) := do
  match ← get with
  | '"' :: _ => return some (.string (← stringLiteral))
  | '-' :: c :: _ => if c.isDigit then return some (.number (← numberLiteral)) else return none
  | c :: _ => if c.isDigit then return some (.number (← numberLiteral)) else return none
  | [] => return none

/-- A string or a number. -/
def literal : Reader Literal := do
  match ← literal? with
  | some literal => return literal
  | none => fail .missingLiteral

end Reader

end Phrasebook
