import Phrasebook.Number.Localized

/-!
# Values

What variables, literals and functions stand for at run time: text, numbers, truth values, and
values of types that the caller defines.
-/

namespace Phrasebook

/-- A value of a type that the caller defines. -/
structure CustomValue where
  /-- Tells apart values that look alike; copies of a value share it. -/
  identity : Nat
  typeName : String
  /-- The text of last resort, for people who look for an error. -/
  description : String
  /-- The text in a locale, if the value has one there. -/
  format : (locale : String) → Option String

/-- A value. -/
inductive Value where
  | string (value : String)
  | number (value : NumberValue)
  | bool (value : Bool)
  | custom (value : CustomValue)

namespace Value

/-- A number with default options. -/
def ofDouble (x : Double) : Value := number ⟨x, {}⟩

/-- The number, if the value is one. -/
def asNumber? : Value → Option NumberValue
  | number n => some n
  | _ => none

/-- The text, if the value is text. -/
def asString? : Value → Option String
  | string s => some s
  | _ => none

/-- The truth value, if the value is one. -/
def asBool? : Value → Option Bool
  | bool b => some b
  | _ => none

/-- The text of a truth value. -/
def boolText (b : Bool) : String := if b then "true" else "false"

/-- The text of a value in a locale. Only values of the caller's types may lack one. -/
def format (locale : String) : Value → Option String
  | string s => some s
  | number n => some (n.format locale)
  | bool b => some (boolText b)
  | custom c => c.format locale

/-- The name of the type of a value. -/
def typeName : Value → String
  | string _ => "string"
  | number _ => "number"
  | bool _ => "bool"
  | custom c => c.typeName

/-- The text of last resort, where a value has none. -/
def description : Value → String
  | string s => s
  | number n => n.plainText
  | bool b => boolText b
  | custom c => c.description

/-- Equality of values. Values of the caller's types equal only their copies, and a NaN nothing. -/
def same : Value → Value → Bool
  | string a, string b => a == b
  | number a, number b => a.same b
  | bool a, bool b => a == b
  | custom a, custom b => a.identity == b.identity
  | _, _ => false

end Value

/-- Named values: the variables of a message, or the named arguments of a function. -/
abbrev Arguments := List (String × Value)

end Phrasebook
