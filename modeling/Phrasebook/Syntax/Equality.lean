import Phrasebook.Syntax.Tree

/-!
# Equality of trees

Whether two trees are equal can be decided. For the types that contain each other the decision is a
function on both trees at once, which is proved to answer whether they are equal.
-/

namespace Phrasebook

mutual

/-- Whether two expressions are equal. -/
def Expression.equal : Expression → Expression → Bool
  | .string a, .string b => a = b
  | .number a, .number b => a = b
  | .variableRef a, .variableRef b => a = b
  | .messageRef a x, .messageRef b y => a = b && x = y
  | .termRef a x none, .termRef b y none => a = b && x = y
  | .termRef a x (some s), .termRef b y (some t) => a = b && x = y && s.equal t
  | .call a s, .call b t => a = b && s.equal t
  | .select a s, .select b t => a.equal b && Variant.equalAll s t
  | .placeable a, .placeable b => a.equal b
  | _, _ => false

/-- Whether two lists of arguments are equal. -/
def CallArguments.equal : CallArguments → CallArguments → Bool
  | ⟨a, x⟩, ⟨b, y⟩ => Expression.equalAll a b && x = y

/-- Whether two lists of expressions are equal. -/
def Expression.equalAll : List Expression → List Expression → Bool
  | [], [] => true
  | a :: s, b :: t => a.equal b && Expression.equalAll s t
  | _, _ => false

/-- Whether two lists of variants are equal. -/
def Variant.equalAll : List Variant → List Variant → Bool
  | [], [] => true
  | a :: s, b :: t => a.equal b && Variant.equalAll s t
  | _, _ => false

/-- Whether two variants are equal. -/
def Variant.equal : Variant → Variant → Bool
  | ⟨k, a, d⟩, ⟨l, b, e⟩ => k = l && PatternElement.equalAll a b && d = e

/-- Whether two patterns are equal. -/
def PatternElement.equalAll : List PatternElement → List PatternElement → Bool
  | [], [] => true
  | a :: s, b :: t => a.equal b && PatternElement.equalAll s t
  | _, _ => false

/-- Whether two elements of a pattern are equal. -/
def PatternElement.equal : PatternElement → PatternElement → Bool
  | .text a, .text b => a = b
  | .placeable a, .placeable b => a.equal b
  | _, _ => false

end

mutual

/-- The comparison of expressions tells whether they are the same. -/
theorem Expression.equal_iff : (a b : Expression) → (a.equal b = true ↔ a = b)
  | .string a, b => by cases b <;> simp [Expression.equal]
  | .number a, b => by cases b <;> simp [Expression.equal]
  | .variableRef a, b => by cases b <;> simp [Expression.equal]
  | .messageRef a x, b => by cases b <;> simp [Expression.equal]
  | .termRef a x none, b => by
    cases b with
    | termRef b y t => cases t <;> simp [Expression.equal]
    | _ => simp [Expression.equal]
  | .termRef a x (some s), b => by
    cases b with
    | termRef b y t => cases t <;> simp [Expression.equal, CallArguments.equal_iff s, and_assoc]
    | _ => simp [Expression.equal]
  | .call a s, b => by cases b <;> simp [Expression.equal, CallArguments.equal_iff s]
  | .select a s, b => by
    cases b <;> simp [Expression.equal, Expression.equal_iff a, Variant.equalAll_iff s]
  | .placeable a, b => by cases b <;> simp [Expression.equal, Expression.equal_iff a]

/-- The comparison of arguments tells whether they are the same. -/
theorem CallArguments.equal_iff : (a b : CallArguments) → (a.equal b = true ↔ a = b)
  | ⟨a, x⟩, ⟨b, y⟩ => by simp [CallArguments.equal, Expression.equalAll_iff a]

/-- Lists of expressions are compared member by member. -/
theorem Expression.equalAll_iff : (s t : List Expression) → (Expression.equalAll s t = true ↔ s = t)
  | [], t => by cases t <;> simp [Expression.equalAll]
  | a :: s, t => by
    cases t <;> simp [Expression.equalAll, Expression.equal_iff a, Expression.equalAll_iff s]

/-- Lists of variants are compared member by member. -/
theorem Variant.equalAll_iff : (s t : List Variant) → (Variant.equalAll s t = true ↔ s = t)
  | [], t => by cases t <;> simp [Variant.equalAll]
  | a :: s, t => by
    cases t <;> simp [Variant.equalAll, Variant.equal_iff a, Variant.equalAll_iff s]

/-- The comparison of variants tells whether they are the same. -/
theorem Variant.equal_iff : (a b : Variant) → (a.equal b = true ↔ a = b)
  | ⟨k, a, d⟩, ⟨l, b, e⟩ => by simp [Variant.equal, PatternElement.equalAll_iff a, and_assoc]

/-- Patterns are compared element by element. -/
theorem PatternElement.equalAll_iff :
    (s t : List PatternElement) → (PatternElement.equalAll s t = true ↔ s = t)
  | [], t => by cases t <;> simp [PatternElement.equalAll]
  | a :: s, t => by
    cases t <;>
      simp [PatternElement.equalAll, PatternElement.equal_iff a, PatternElement.equalAll_iff s]

/-- The comparison of pattern elements tells whether they are the same. -/
theorem PatternElement.equal_iff : (a b : PatternElement) → (a.equal b = true ↔ a = b)
  | .text a, b => by cases b <;> simp [PatternElement.equal]
  | .placeable a, b => by cases b <;> simp [PatternElement.equal, Expression.equal_iff a]

end

instance : DecidableEq Expression := fun a b => decidable_of_iff _ (a.equal_iff b)

instance : DecidableEq CallArguments := fun a b => decidable_of_iff _ (a.equal_iff b)

instance : DecidableEq Variant := fun a b => decidable_of_iff _ (a.equal_iff b)

instance : DecidableEq PatternElement := fun a b => decidable_of_iff _ (a.equal_iff b)

deriving instance DecidableEq for Attribute

deriving instance DecidableEq for Message

deriving instance DecidableEq for Term

deriving instance DecidableEq for Entry

deriving instance DecidableEq for Resource

end Phrasebook
