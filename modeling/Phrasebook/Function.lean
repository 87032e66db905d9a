import Phrasebook.Number.Decimal
import Phrasebook.Text.Whitespace
import Phrasebook.Value

/-!
# Functions

Functions that messages call with positional and named arguments, and the one that is built in:
`NUMBER`, which sets the options of a number.
-/

namespace Phrasebook

/-- Why a function gave no value. -/
inductive FunctionError where
  | arity (expected actual : Nat)
  | invalidArgument (index : Nat) (expected : String)
  | invalidOption (option value : String)
  | other (text : String)
  deriving DecidableEq

/-- The text of an error. -/
def FunctionError.message : FunctionError → String
  | arity expected actual => s!"expected {expected} positional argument(s), got {actual}"
  | invalidArgument index expected => s!"positional argument {index} must be {expected}"
  | invalidOption option value => s!"invalid value '{value}' for option '{option}'"
  | other text => text

/-- A function of positional arguments, named arguments and a locale. -/
abbrev Function := List Value → Arguments → (locale : String) → Except FunctionError Value

namespace NumberFunction

/-- The error for an option, which shows the value in English or names its type. -/
def invalid (option : String) (value : Value) : FunctionError :=
  .invalidOption option ((value.format "en").getD value.typeName)

/-- The number that is asked to be formatted; text may hold one, with white space around it. -/
def subject : Value → Except FunctionError NumberValue
  | .number n => .ok n
  | .string s =>
    match NumberText.parse? (Text.trim s.toList) with
    | some text => .ok ⟨text.toDouble, {}⟩
    | none => .error (.invalidArgument 0 "a number")
  | _ => .error (.invalidArgument 0 "a number")

/-- A digit count is a whole number up to 100. -/
def digitCount? (value : Value) : Option Nat := do
  let count ← (← value.asNumber?).value.toNat?
  if count ≤ 100 then some count else none

/-- A digit count that may be given by name, in place of the one there is. -/
def digits (named : Arguments) (option : String) (current : Option Nat) :
    Except FunctionError (Option Nat) :=
  match named.lookup option with
  | none => .ok current
  | some value =>
    match digitCount? value with
    | some count => .ok (some count)
    | none => .error (invalid option value)

/-- Whether digits are grouped: they are, unless that is turned off. -/
def grouping (named : Arguments) : Except FunctionError Bool :=
  match named.lookup "useGrouping" with
  | none => .ok true
  | some (.bool b) => .ok b
  | some (.string s) => .ok (s != "false")
  | some value => .error (invalid "useGrouping" value)

/-- A choice between two words that may be given by name. -/
def choice {α : Type} (named : Arguments) (option : String) (first second : String × α)
    (current : α) : Except FunctionError α :=
  match named.lookup option with
  | none => .ok current
  | some value =>
    if value.asString? = some first.1 then .ok first.2
    else if value.asString? = some second.1 then .ok second.2
    else .error (invalid option value)

/-- The options that named arguments give to a number; others of its options stay. -/
def options (named : Arguments) (current : NumberOptions) : Except FunctionError NumberOptions := do
  let minFractionDigits ← digits named "minimumFractionDigits" current.minFractionDigits
  let maxFractionDigits ← digits named "maximumFractionDigits" current.maxFractionDigits
  let minIntegerDigits ← digits named "minimumIntegerDigits" current.minIntegerDigits
  let useGrouping ← grouping named
  let style ← choice named "style" ("decimal", .decimal) ("percent", .percent) current.style
  let kind ← choice named "type" ("cardinal", .cardinal) ("ordinal", .ordinal) current.kind
  return { minFractionDigits, maxFractionDigits, minIntegerDigits, useGrouping, style, kind }

/-- `NUMBER(value, options...)` -/
def run : Function := fun positional named _ =>
  match positional with
  | [value] => do
    let number ← subject value
    return .number ⟨number.value, ← options named number.options⟩
  | _ => .error (.arity 1 positional.length)

end NumberFunction

end Phrasebook
