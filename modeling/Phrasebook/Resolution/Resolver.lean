import Phrasebook.EntryTable
import Phrasebook.FunctionTable
import Phrasebook.Resolution.Context
import Phrasebook.Resolution.Select
import Phrasebook.Suggestion

/-!
# Resolving messages

A message becomes text by its pattern: text is copied, and each placeable is replaced by the text of
its value. A reference opens a frame around the pattern it names; frames are bounded in number and
never open twice, so every resolution ends. What cannot be resolved leaves a fallback and an error.
-/

namespace Phrasebook

/-- What messages are resolved with. -/
structure Resolver where
  entries : EntryTable
  functions : FunctionTable
  locale : String
  /-- Put marks around values that stand among other elements. -/
  useIsolating : Bool
  maxDepth : Nat
  maxPlaceables : Nat

/-- The most frames that may be open unless a caller says otherwise. -/
def defaultMaxDepth : Nat := 64

/-- The most placeables that may be written unless a caller says otherwise. -/
def defaultMaxPlaceables : Nat := 100

/-- The number that a literal stands for; it keeps the fraction digits it is written with. -/
def NumberValue.ofLiteral (l : NumberLiteral) : NumberValue :=
  let count := (l.raw.toList.dropWhile (· != '.')).tail.length
  ⟨l.value, { minFractionDigits := if count = 0 then none else some count }⟩

/-- The value of a literal. -/
def Literal.toValue : Literal → Value
  | .string l => .string l.value
  | .number l => .number (.ofLiteral l)

/-- Named arguments with their values. Of those with one name, only the last counts. -/
def NamedArgument.values : List NamedArgument → Arguments
  | [] => []
  | a :: rest =>
    if rest.any fun other => other.name = a.name then values rest
    else (a.name, a.value.toValue) :: values rest

/-- The value is not the translator's own text, so it is kept apart from what surrounds it. -/
def Expression.isIsolated : Expression → Bool
  | .variableRef _ => true
  | .messageRef .. => true
  | .termRef .. => true
  | .call .. => true
  | .placeable inner => inner.isIsolated
  | .string _ => false
  | .number _ => false
  | .select .. => false

/-- A text between the marks "first strong isolate" and "pop directional isolate". -/
def isolate (text : String) : String := "\u2068" ++ text ++ "\u2069"

/-- The fallback for something that is written in braces. -/
def braced (text : String) : String := "\x7b" ++ text ++ "\x7d"

namespace Resolver

/-- The pattern of a message or of an attribute of it. -/
def messagePattern (r : Resolver) (id : String) (attr : Option String) :
    Except ResolutionError Pattern :=
  match r.entries.message? id with
  | none => .error (.unknownMessage id (Suggestion.suggest id r.entries.messageIds))
  | some message =>
    match attr with
    | none =>
      match message.value with
      | some value => .ok value
      | none => .error (.noValue id)
    | some name =>
      match Attribute.find? message.attributes name with
      | some a => .ok a.value
      | none => .error (.unknownAttribute id name)

/-- The pattern of a term or of an attribute of it. -/
def termPattern (r : Resolver) (id : String) (attr : Option String) :
    Except ResolutionError Pattern :=
  match r.entries.term? id with
  | none => .error (.unknownTerm id)
  | some term =>
    match attr with
    | none => .ok term.value
    | some name =>
      match Attribute.find? term.attributes name with
      | some a => .ok a.value
      | none => .error (.unknownAttribute ("-" ++ id) name)

/-- The text of a value; a value without text is an error, and its description is written. -/
def writeValue (r : Resolver) (value : Value) : Resolution String := do
  match value.format r.locale with
  | some text => return text
  | none =>
    Resolution.report (.notWritable value.typeName)
    return value.description

/-- Calls a function with positional arguments, unless one of them has no value. -/
def call (r : Resolver) (name : String) (positional : Option (List Value)) (named : Arguments) :
    Resolution (Except String Value) :=
  match positional with
  | none => return .error (braced (name ++ "()"))
  | some positional =>
    Resolution.orFallback (braced (name ++ "()")) <|
      match r.functions.find? name with
      | none => .error (.unknownFunction name)
      | some function => (function positional named r.locale).mapError (.functionFailed name)

/-- Resolves a pattern inside a frame, or tells why the frame cannot be opened. -/
abbrev Opening := Frame → Pattern → Resolution (Except ResolutionError String)

/-- The text of a message or of an attribute of it. -/
def openMessage (r : Resolver) (opening : Opening) (id : String) (attr : Option String) :
    Resolution (Except String String) := do
  let result ←
    match r.messagePattern id attr with
    | .ok pattern => opening (.message id attr) pattern
    | .error e => pure (.error e)
  Resolution.orFallback (braced (referenceName id attr)) result

/-- The text of a term or of an attribute of it, which sees only the given variables. -/
def openTerm (r : Resolver) (opening : Opening) (id : String) (attr : Option String)
    (scope : Arguments) : Resolution (Except String String) := do
  let result ←
    match r.termPattern id attr with
    | .ok pattern => Resolution.withScope scope (opening (.term id attr) pattern)
    | .error e => pure (.error e)
  Resolution.orFallback (braced ("-" ++ referenceName id attr)) result

/-- The value of a variable. -/
def variableValue (name : String) : Resolution (Except String Value) := do
  match (← get).lookup? name with
  | some value => return .ok value
  | none => Resolution.orFallback (braced ("$" ++ name)) (.error (.unknownVariable name))

mutual

/-- The value of an expression, or the fallback for it. -/
def expression (r : Resolver) (opening : Opening) : Expression → Resolution (Except String Value)
  | .string l => return .ok (.string l.value)
  | .number l => return .ok (.number (.ofLiteral l))
  | .variableRef name => variableValue name
  | .messageRef id attr => return (← r.openMessage opening id attr).map .string
  | .termRef id attr none => return (← r.openTerm opening id attr []).map .string
  | .termRef id attr (some ⟨_, named⟩) =>
    return (← r.openTerm opening id attr (NamedArgument.values named)).map .string
  | .call name ⟨positional, named⟩ => do
    r.call name (← values r opening positional) (NamedArgument.values named)
  | .select selector variants => do
    let selected ← expression r opening selector
    match Variant.choose? r.locale (variantTexts r opening variants) selected.toOption with
    | some (_, text) => return .ok (.string (← text))
    | none => Resolution.orFallback (braced "???") (.error .noVariants)
  | .placeable inner => expression r opening inner

/-- The values of expressions, up to the first that has none. -/
def values (r : Resolver) (opening : Opening) : List Expression → Resolution (Option (List Value))
  | [] => return some []
  | first :: rest => do
    match ← expression r opening first with
    | .ok value => return (← values r opening rest).map (value :: ·)
    | .error _ => return none

/-- Variants, each with the step that writes it. -/
def variantTexts (r : Resolver) (opening : Opening) :
    List Variant → List (Variant × Resolution String)
  | [] => []
  | ⟨key, value, isDefault⟩ :: rest =>
    (⟨key, value, isDefault⟩, elements r opening (r.useIsolating && 1 < value.length) value) ::
      variantTexts r opening rest

/-- The text of the elements of a pattern. Once the limit of placeables is exceeded, no more is
written. -/
def elements (r : Resolver) (opening : Opening) (isolating : Bool) :
    List PatternElement → Resolution String
  | [] => return ""
  | .text value :: rest => do
    if (← get).exhausted then return ""
    return value ++ (← elements r opening isolating rest)
  | .placeable inner :: rest => do
    modify (·.countPlaceable)
    if (← get).exhausted then return ""
    let text ←
      match ← expression r opening inner with
      | .ok value => r.writeValue value
      | .error fallback => pure fallback
    let text := if isolating && inner.isIsolated then isolate text else text
    return text ++ (← elements r opening isolating rest)

end

/-- The text of a pattern. A value that is the whole pattern is not isolated. -/
def pattern (r : Resolver) (opening : Opening) (p : Pattern) : Resolution String :=
  elements r opening (r.useIsolating && 1 < p.length) p

/-- Opens a frame, given how many may be opened inside each other: not one that is open already, and
none where there is no room. -/
def opening (r : Resolver) : (room : Nat) → Opening
  | room, frame, p => do
    let context ← get
    if frame ∈ context.stack then return .error (.cyclicReference frame.text)
    match room with
    | 0 => return .error (.tooDeep context.maxDepth)
    | room + 1 => return .ok (← Resolution.inFrame frame (pattern r (opening r room) p))

/-- The context in which a resolver begins. -/
def start (r : Resolver) (arguments : Option Arguments) : Context :=
  .initial arguments r.maxDepth r.maxPlaceables

/-- The text of a message, or of an attribute of it, and the errors that were met. -/
def resolve (r : Resolver) (id : String) (attr : Option String) (arguments : Option Arguments) :
    String × List ResolutionError :=
  let start := r.start arguments
  let (result, context) := (r.openMessage (r.opening start.room) id attr).run start
  match result with
  | .ok text => (text, context.errors)
  | .error fallback => (fallback, context.errors)

/-- The text of a pattern of its own, and the errors that were met. -/
def resolvePattern (r : Resolver) (p : Pattern) (arguments : Option Arguments) :
    String × List ResolutionError :=
  let start := r.start arguments
  let (text, context) := (r.pattern (r.opening start.room) p).run start
  (text, context.errors)

end Resolver

end Phrasebook
