/-!
# Diagnostics

What can be wrong with an entry, the code and the text of each problem, and the place of a problem
in its source.
-/

namespace Phrasebook

/-- A range of bytes of a source: from `start` up to, but not with, `stop`. -/
structure Span where
  start : Nat
  stop : Nat
  deriving DecidableEq

/-- How deep placeables and call arguments may be nested within one entry. -/
def maxNesting : Nat := 100

/-- The classes of characters that a source can be asked for. -/
inductive CharRange where
  | letters
  | digits
  deriving DecidableEq

/-- A class of characters as it is named in a message. -/
def CharRange.text : CharRange → String
  | letters => "a-zA-Z"
  | digits => "0-9"

/-- What is wrong with an entry. -/
inductive Problem where
  | generic
  | expectedEntry
  | expectedToken (token : Char)
  | expectedCharRange (range : CharRange)
  | expectedMessageField (id : String)
  | expectedTermField (id : String)
  | forbiddenCallee
  | forbiddenKey
  | missingDefaultVariant
  | missingVariants
  | missingValue
  | missingVariantKey
  | missingLiteral
  | multipleDefaultVariants
  | messageReferenceAsSelector
  | termReferenceAsSelector
  | messageAttributeAsSelector
  | termAttributeAsPlaceable
  | unterminatedString
  | positionalAfterNamed
  | duplicatedNamedArgument (name : String)
  | unknownEscape (char : Char)
  | invalidUnicodeEscape (sequence : String)
  | unbalancedClosingBrace
  | expectedInlineExpression
  | expectedSimpleSelector
  | tooDeeplyNested
  deriving DecidableEq

namespace Problem

/-- The code of a problem. -/
def code : Problem → String
  | generic => "E0001"
  | expectedEntry => "E0002"
  | expectedToken _ => "E0003"
  | expectedCharRange _ => "E0004"
  | expectedMessageField _ => "E0005"
  | expectedTermField _ => "E0006"
  | forbiddenCallee => "E0008"
  | forbiddenKey => "E0009"
  | missingDefaultVariant => "E0010"
  | missingVariants => "E0011"
  | missingValue => "E0012"
  | missingVariantKey => "E0013"
  | missingLiteral => "E0014"
  | multipleDefaultVariants => "E0015"
  | messageReferenceAsSelector => "E0016"
  | termReferenceAsSelector => "E0017"
  | messageAttributeAsSelector => "E0018"
  | termAttributeAsPlaceable => "E0019"
  | unterminatedString => "E0020"
  | positionalAfterNamed => "E0021"
  | duplicatedNamedArgument _ => "E0022"
  | unknownEscape _ => "E0025"
  | invalidUnicodeEscape _ => "E0026"
  | unbalancedClosingBrace => "E0027"
  | expectedInlineExpression => "E0028"
  | expectedSimpleSelector => "E0029"
  | tooDeeplyNested => "E0030"

/-- The text of a problem. -/
def message : Problem → String
  | generic => "Generic error"
  | expectedEntry => "Expected an entry start"
  | expectedToken token => s!"Expected token: \"{token}\""
  | expectedCharRange range => s!"Expected a character from range: \"{range.text}\""
  | expectedMessageField id => s!"Expected message \"{id}\" to have a value or attributes"
  | expectedTermField id => s!"Expected term \"-{id}\" to have a value"
  | forbiddenCallee => "The callee has to be an upper-case identifier or a term"
  | forbiddenKey => "The key has to be a simple identifier"
  | missingDefaultVariant => "Expected one of the variants to be marked as default (*)"
  | missingVariants => "Expected at least one variant after \"->\""
  | missingValue => "Expected value"
  | missingVariantKey => "Expected variant key"
  | missingLiteral => "Expected literal"
  | multipleDefaultVariants => "Only one variant can be marked as default (*)"
  | messageReferenceAsSelector => "Message references cannot be used as selectors"
  | termReferenceAsSelector => "Terms cannot be used as selectors"
  | messageAttributeAsSelector => "Attributes of messages cannot be used as selectors"
  | termAttributeAsPlaceable => "Attributes of terms cannot be used as placeables"
  | unterminatedString => "Unterminated string expression"
  | positionalAfterNamed => "Positional arguments must not follow named arguments"
  | duplicatedNamedArgument name => s!"The \"{name}\" argument appears twice"
  | unknownEscape char => s!"Unknown escape sequence: \\{char}"
  | invalidUnicodeEscape sequence => s!"Invalid Unicode escape sequence: {sequence}"
  | unbalancedClosingBrace => "Unbalanced closing brace in TextElement"
  | expectedInlineExpression => "Expected an inline expression"
  | expectedSimpleSelector => "Expected simple expression as selector"
  | tooDeeplyNested => s!"Expressions nested deeper than {maxNesting} levels"

end Problem

/-- A problem at a place of the source. -/
structure Diagnostic where
  problem : Problem
  span : Span
  deriving DecidableEq

/-- A diagnostic as one line of text. -/
def Diagnostic.text (d : Diagnostic) : String :=
  s!"{d.problem.code} at {d.span.start}..{d.span.stop}: {d.problem.message}"

end Phrasebook
