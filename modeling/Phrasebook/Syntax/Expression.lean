import Phrasebook.Syntax.Literal
import Phrasebook.Syntax.Segment

/-!
# Expressions

Literals, references, calls, and select expressions, nested in placeables and call arguments. What
is nested is read by the readers of one level less; on level zero they fail, so that no source nests
deeper than the limit.
-/

namespace Phrasebook.Reader

/-- The readers for what stands one level deeper. -/
structure Nested where
  /-- What follows an opening brace, up to and with the closing one. -/
  placeable : Reader Expression
  /-- Call arguments, from their opening parenthesis. -/
  arguments : Reader CallArguments

/-- A name that may be called: capital letters, digits, `_` and `-`, a letter first. -/
def isCallee (name : String) : Bool :=
  match name.toList with
  | [] => false
  | c :: rest => c.isUpper && rest.all fun c => c.isUpper || c.isDigit || c == '_' || c == '-'

/-- `.name`, if it follows. -/
def accessor : Reader (Option String) := do
  if ← accept '.' then return some (← identifier) else return none

/-- Moves past blanks to an opening parenthesis, if they are followed by one. -/
def reachArguments : Reader Bool := do
  let start ← get
  skipBlanks
  if (← peek) == some '(' then return true
  set start
  return false

/-- A reference, a call or a nested placeable. -/
def reference (nested : Nested) : Reader Expression := do
  match ← peek with
  | some '$' => advance; return .variableRef (← identifier)
  | some '-' =>
    advance
    let id ← identifier
    let attr ← accessor
    if ← reachArguments then return .termRef id attr (some (← nested.arguments))
    return .termRef id attr none
  | some '{' => advance; return .placeable (← nested.placeable)
  | some c =>
    if !c.isAlpha then fail .expectedInlineExpression
    let id ← identifier
    match ← accessor with
    | some attr => return .messageRef id (some attr)
    | none =>
      if ← reachArguments then
        if !isCallee id then fail .forbiddenCallee
        return .call id (← nested.arguments)
      return .messageRef id none
  | none => fail .expectedInlineExpression

/-- An expression other than a select expression. -/
def inlineExpression (nested : Nested) : Reader Expression := do
  match ← literal? with
  | some (.string literal) => return .string literal
  | some (.number literal) => return .number literal
  | none => reference nested

/-- Adds an argument: a named one if a colon follows, and a positional one only before all named
ones. -/
def argument (nested : Nested) (arguments : CallArguments) : Reader CallArguments := do
  let expression ← inlineExpression nested
  skipBlanks
  if ← accept ':' then
    match expression with
    | .messageRef name none =>
      skipBlanks
      let value ← literal
      if arguments.named.any (·.name == name) then fail (.duplicatedNamedArgument name)
      return { arguments with named := arguments.named ++ [⟨name, value⟩] }
    | _ => fail .forbiddenKey
  else if arguments.named.isEmpty then
    return { arguments with positional := arguments.positional ++ [expression] }
  else fail .positionalAfterNamed

/-- One more argument, if the list has not ended; a comma asks for another, or ends the list. -/
def argumentStep (nested : Nested) (arguments : CallArguments) :
    Reader (Step CallArguments CallArguments) := do
  skipBlanks
  if (← peek) == some ')' then return .done arguments
  let arguments ← argument nested arguments
  skipBlanks
  return if ← accept ',' then .again arguments else .done arguments

/-- Arguments between parentheses. -/
def argumentList (nested : Nested) : Reader CallArguments := do
  expect '('
  let arguments ← loop (argumentStep nested) ⟨[], []⟩
  skipBlanks
  expect ')'
  return arguments

/-- The key of a variant, after its opening bracket. -/
def variantKey : Reader VariantKey := do
  skipBlanks
  let key ←
    match ← peek with
    | none => fail .missingVariantKey
    | some ']' => fail .missingVariantKey
    | some c =>
      if c.isDigit || c == '-' then .number <$> numberLiteral else .name <$> identifier
  skipBlanks
  expect ']'
  return key

/-- One more variant, if one follows; the variants so far come last first. -/
def variantStep (nested : Nested) (read : List Variant) :
    Reader (Step (List Variant) (List Variant)) := do
  if (← peek) != some '*' && (← peek) != some '[' then return .done read.reverse
  let isDefault ← accept '*'
  if isDefault && read.any (·.isDefault) then fail .multipleDefaultVariants
  expect '['
  let key ← variantKey
  match ← pattern nested.placeable with
  | none => fail .missingValue
  | some value =>
    skipBlanks
    return .again (⟨key, value, isDefault⟩ :: read)

/-- One variant or more, of which exactly one is the default. -/
def variants (nested : Nested) : Reader (List Variant) := do
  skipBlanks
  let variants ← loop (variantStep nested) []
  if variants.isEmpty then fail .missingVariants
  if !variants.any (·.isDefault) then fail .missingDefaultVariant
  return variants

/-- Why an expression may not select a variant, if it may not. -/
def selectorProblem? : Expression → Option Problem
  | .messageRef _ none => some .messageReferenceAsSelector
  | .messageRef _ (some _) => some .messageAttributeAsSelector
  | .termRef _ none _ => some .termReferenceAsSelector
  | .placeable _ => some .expectedSimpleSelector
  | .select .. => some .expectedSimpleSelector
  | _ => none

/-- An inline expression, or a select expression if an arrow follows it. -/
def expression (nested : Nested) : Reader Expression := do
  let selector ← inlineExpression nested
  skipBlanks
  match ← get with
  | '-' :: '>' :: rest =>
    if let some problem := selectorProblem? selector then fail problem
    set rest
    let _ ← skipSpaces
    if !(← acceptLineEnd) then fail (.expectedToken '⏎')
    return .select selector (← variants nested)
  | _ =>
    match selector with
    | .termRef _ (some _) _ => fail .termAttributeAsPlaceable
    | selector => return selector

/-- The readers for a number of levels. -/
def Nested.levels : Nat → Nested
  | 0 => ⟨fail .tooDeeplyNested, fail .tooDeeplyNested⟩
  | level + 1 =>
    let inner := levels level
    { placeable := do
        skipBlanks
        let expression ← expression inner
        skipBlanks
        expect '}'
        return expression
      arguments := argumentList inner }

end Phrasebook.Reader
