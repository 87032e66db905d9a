import Phrasebook.Function

/-!
# Errors of resolution

What can go wrong while a message is resolved. None of it ends the resolution: an error is recorded,
and a fallback stands in for what is missing.
-/

namespace Phrasebook

/-- The kinds of errors. -/
inductive ErrorKind where
  /-- A message, term, attribute or variable that does not exist. -/
  | reference
  /-- A function that fails, a value without text, or a limit that is exceeded. -/
  | resolution
  /-- A message or term that refers to itself. -/
  | cyclicReference
  /-- A source in which nothing could be read. -/
  | syntaxError
  deriving DecidableEq

/-- The name of a kind of errors. -/
def ErrorKind.name : ErrorKind → String
  | reference => "ReferenceError"
  | resolution => "ResolutionError"
  | cyclicReference => "CyclicReferenceError"
  | syntaxError => "SyntaxError"

/-- An error met while resolving a message. -/
inductive ResolutionError where
  | unknownMessage (id : String) (suggestions : List String)
  | unknownTerm (id : String)
  | unknownAttribute (owner attr : String)
  | unknownVariable (name : String)
  | noValue (id : String)
  | cyclicReference (reference : String)
  | unknownFunction (name : String)
  | functionFailed (name : String) (cause : FunctionError)
  | notWritable (typeName : String)
  | noVariants
  | tooDeep (limit : Nat)
  | tooManyPlaceables (limit : Nat)
  deriving DecidableEq

namespace ResolutionError

/-- The kind of an error. -/
def kind : ResolutionError → ErrorKind
  | unknownMessage .. => .reference
  | unknownTerm _ => .reference
  | unknownAttribute .. => .reference
  | unknownVariable _ => .reference
  | noValue _ => .reference
  | cyclicReference _ => .cyclicReference
  | unknownFunction _ => .resolution
  | functionFailed .. => .resolution
  | notWritable _ => .resolution
  | noVariants => .resolution
  | tooDeep _ => .resolution
  | tooManyPlaceables _ => .resolution

/-- The question that names suggestions, if there are any. -/
def didYouMean : List String → String
  | [] => ""
  | [only] => s!"; did you mean '{only}'?"
  | suggestions => "; did you mean one of: " ++ ", ".intercalate suggestions ++ "?"

/-- The text of an error. -/
def message : ResolutionError → String
  | unknownMessage id suggestions => s!"unknown message '{id}'" ++ didYouMean suggestions
  | unknownTerm id => s!"unknown term '-{id}'"
  | unknownAttribute owner attr => s!"unknown attribute '{attr}' on '{owner}'"
  | unknownVariable name => s!"unknown variable '${name}'"
  | noValue id => s!"message '{id}' has no value"
  | cyclicReference reference => s!"cyclic reference to '{reference}'"
  | unknownFunction name => s!"unknown function '{name}'"
  | functionFailed name cause => s!"function '{name}' failed: {cause.message}"
  | notWritable typeName => s!"value of type '{typeName}' cannot be written as text"
  | noVariants => "select expression has no variants"
  | tooDeep limit => s!"maximum reference depth of {limit} exceeded"
  | tooManyPlaceables limit => s!"too many placeables (limit {limit})"

end ResolutionError

end Phrasebook
