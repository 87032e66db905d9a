import Phrasebook.Plural.Selection
import Phrasebook.Syntax.Tree
import Phrasebook.Value

/-!
# Selecting a variant

The variant of a select expression for a value: the one whose key is the value, or else the one
named by the plural category of a number, or else the default.
-/

namespace Phrasebook

/-- The key is the value: a name for text or a truth value, a number for a number. -/
def VariantKey.isValue : VariantKey → Value → Bool
  | .name id, .string s => id == s
  | .name id, .bool b => id == Value.boolText b
  | .number l, .number n => l.value.numEq n.value
  | _, _ => false

/-- The key is a name. -/
def VariantKey.isName (name : String) : VariantKey → Bool
  | .name id => id == name
  | .number _ => false

namespace Variant

variable {α : Type}

/-- The first variant that is marked as default, or else the first of all. -/
def default? (variants : List (Variant × α)) : Option (Variant × α) :=
  (variants.find? fun v => v.1.isDefault) <|> variants.head?

/-- The variant whose key fits a value. -/
def matching? (locale : String) (variants : List (Variant × α)) (value : Value) :
    Option (Variant × α) :=
  (variants.find? fun v => v.1.key.isValue value) <|>
    value.asNumber?.bind fun n =>
      variants.find? fun v => v.1.key.isName (n.category locale).name

/-- The variant for a selector, which may have no value. -/
def choose? (locale : String) (variants : List (Variant × α)) (selector : Option Value) :
    Option (Variant × α) :=
  selector.bind (matching? locale variants) <|> default? variants

end Variant

end Phrasebook
