import Phrasebook.Proofs.RoundTrip.Sound

/-!
# Trees that can be read

What holds of every tree that was read, level by level as the grammar is read: a shape says what may
stand one level deeper, and each level gives the shape of the level above. Beside what the grammar
asks, a shape carries a condition on all patterns.
-/

namespace Phrasebook

/-- A letter, then letters, digits, `_` and `-`. -/
def IsIdentifier (name : String) : Prop :=
  ∃ c rest, name.toList = c :: rest ∧ c.isAlpha ∧ ∀ d ∈ rest, Reader.isIdentifierChar d

/-- A string literal that its source form gives back, whatever follows it. -/
structure StringLiteral.Sound (l : StringLiteral) : Prop where
  unbroken : ∀ c ∈ l.raw.toList, Text.isBreak c = false
  reads : ∀ rest, Reader.stringLiteral (l.source.toList ++ rest) = .ok (l, rest)

/-- A number literal with digits before its point, and also behind it if it has one. -/
def NumberLiteral.Sound (l : NumberLiteral) : Prop :=
  ∃ negative whole fraction, l = NumberLiteral.ofDigits negative whole fraction ∧ whole ≠ [] ∧
    (∀ c ∈ whole, c.isDigit) ∧ ∀ c ∈ fraction, c.isDigit

/-- The source form of the value of a named argument. -/
def Literal.source : Literal → String
  | .string l => l.source
  | .number l => l.raw

/-- A named argument is written as its name, a colon and its value. -/
theorem NamedArgument.source_eq (a : NamedArgument) :
    a.source = a.name ++ ": " ++ a.value.source := by
  obtain ⟨name, _ | _⟩ := a <;> rfl

def Literal.Sound : Literal → Prop
  | .string l => l.Sound
  | .number l => l.Sound

def NamedArgument.Sound (a : NamedArgument) : Prop := IsIdentifier a.name ∧ a.value.Sound

def VariantKey.Sound : VariantKey → Prop
  | .name id => IsIdentifier id
  | .number l => l.Sound

/-- What may stand one level deeper, and what else holds of all patterns. -/
structure Shape where
  placeable : Expression → Prop
  arguments : CallArguments → Prop
  pattern : Pattern → Prop

namespace Shape

variable (shape : Shape)

/-- An expression other than a select expression. -/
def Inline : Expression → Prop
  | .string l => l.Sound
  | .number l => l.Sound
  | .variableRef name => IsIdentifier name
  | .messageRef id attr => IsIdentifier id ∧ ∀ a ∈ attr, IsIdentifier a
  | .termRef id attr arguments =>
    IsIdentifier id ∧ (∀ a ∈ attr, IsIdentifier a) ∧ ∀ a ∈ arguments, shape.arguments a
  | .call name arguments =>
    IsIdentifier name ∧ Reader.isCallee name ∧ shape.arguments arguments
  | .select .. => False
  | .placeable inner => shape.placeable inner

/-- Call arguments: inline expressions, and literals under different names. -/
structure Listed (a : CallArguments) : Prop where
  positional : ∀ e ∈ a.positional, shape.Inline e
  named : ∀ n ∈ a.named, n.Sound
  distinct : (a.named.map (·.name)).Nodup

/-- A pattern that can be written, though it may be blank. -/
structure Lines (p : Pattern) : Prop where
  legible : p.Legible
  holds : ∀ s ∈ p.writtenSegments, s.Holds shape.placeable
  pattern : shape.pattern p

/-- The pattern of a unit or of a variant. -/
structure Value (p : Pattern) : Prop extends shape.Lines p where
  present : p.unindent?.isSome

/-- The variants of a select expression, one of which is the default. -/
structure Arms (variants : List Variant) : Prop where
  ne_nil : variants ≠ []
  keys : ∀ v ∈ variants, v.key.Sound
  values : ∀ v ∈ variants, shape.Value v.value
  default : variants.countP (·.isDefault) = 1

/-- What may stand between braces. -/
def Full : Expression → Prop
  | .select selector variants =>
    shape.Inline selector ∧ Reader.selectorProblem? selector = none ∧ shape.Arms variants
  | .termRef _ (some _) _ => False
  | e => shape.Inline e

/-- An expression between braces is a select expression, or one that is written inside a line. -/
theorem Full.select_or_inline {e : Expression} (h : shape.Full e) :
    (∃ selector variants, e = .select selector variants ∧ shape.Inline selector ∧
      Reader.selectorProblem? selector = none ∧ shape.Arms variants) ∨
    (shape.Inline e ∧ ∀ id attr arguments, e ≠ .termRef id (some attr) arguments) := by
  cases e with
  | select selector variants => exact Or.inl ⟨selector, variants, rfl, h⟩
  | termRef id attr arguments =>
    cases attr with
    | none => exact Or.inr ⟨h, by rintro _ _ _ ⟨⟩⟩
    | some attr => exact h.elim
  | _ => exact Or.inr ⟨h, by rintro _ _ _ ⟨⟩⟩

/-- The shape of what stands in a number of levels. -/
def levels (pattern : Pattern → Prop) : Nat → Shape
  | 0 => ⟨fun _ => False, fun _ => False, pattern⟩
  | level + 1 => ⟨(levels pattern level).Full, (levels pattern level).Listed, pattern⟩

/-- Patterns are the same at every level. -/
@[simp] theorem levels_pattern (pattern : Pattern → Prop) (level : Nat) :
    (levels pattern level).pattern = pattern := by
  cases level <;> rfl

end Shape

/-! ## Entries -/

/-- A comment has a line, and none of its lines is broken. -/
structure Comment.Sound (c : Comment) : Prop where
  ne_nil : c.lines ≠ []
  unbroken : ∀ line ∈ c.lines, ∀ d ∈ line.toList, Text.isBreak d = false

/-- The pattern of a unit, in which the full nesting is open. -/
def Pattern.InFull (pattern : Pattern → Prop) (p : Pattern) : Prop :=
  (Shape.levels pattern maxNesting).Value p

structure Attribute.Sound (pattern : Pattern → Prop) (a : Attribute) : Prop where
  id : IsIdentifier a.id
  value : Pattern.InFull pattern a.value

structure Message.Sound (pattern : Pattern → Prop) (m : Message) : Prop where
  id : IsIdentifier m.id
  value : ∀ p ∈ m.value, (Shape.levels pattern maxNesting).Lines p
  attributes : ∀ a ∈ m.attributes, a.Sound pattern
  present : m.value.bind Pattern.unindent? = none → m.attributes ≠ []
  comment : ∀ c ∈ m.comment, c.level = .entry ∧ c.Sound

structure Term.Sound (pattern : Pattern → Prop) (t : Term) : Prop where
  id : IsIdentifier t.id
  value : Pattern.InFull pattern t.value
  attributes : ∀ a ∈ t.attributes, a.Sound pattern
  comment : ∀ c ∈ t.comment, c.level = .entry ∧ c.Sound

/-- An entry that can be read, or junk. -/
def Entry.Sound (pattern : Pattern → Prop) : Entry → Prop
  | .message m => m.Sound pattern
  | .term t => t.Sound pattern
  | .comment c => c.Sound
  | .junk _ => True

/-! ## No line ends -/

/-- Letters may stand in identifiers. -/
theorem isIdentifierChar_of_isAlpha {c : Char} (h : c.isAlpha) : Reader.isIdentifierChar c := by
  simp [Reader.isIdentifierChar, Char.isAlphanum, h]

/-- Every character of an identifier may stand in one. -/
theorem IsIdentifier.all {name : String} (h : IsIdentifier name) :
    ∀ c ∈ name.toList, Reader.isIdentifierChar c := by
  obtain ⟨c, rest, hname, hc, hrest⟩ := h
  intro d hd
  rw [hname] at hd
  rcases List.mem_cons.mp hd with rfl | hd
  · exact isIdentifierChar_of_isAlpha hc
  · exact hrest d hd

/-- An identifier has no line feed. -/
theorem IsIdentifier.inline {name : String} (h : IsIdentifier name) : '\n' ∉ name.toList := by
  intro hmem
  exact absurd (h.all _ hmem) (by decide)

/-- The name of a reference has no line feed. -/
theorem inline_referenceName {id : String} {attr : Option String} (hid : IsIdentifier id)
    (hattr : ∀ a ∈ attr, IsIdentifier a) : '\n' ∉ (referenceName id attr).toList := by
  cases attr with
  | none => exact hid.inline
  | some a => simp [referenceName, hid.inline, (hattr a rfl).inline]

/-- A sound string has no line feed. -/
theorem StringLiteral.Sound.inline {l : StringLiteral} (h : l.Sound) :
    '\n' ∉ l.source.toList := by
  have hraw : '\n' ∉ l.raw.toList := by
    intro hmem
    exact absurd (h.unbroken _ hmem) (by decide)
  simp [StringLiteral.source, hraw]

/-- A sound number has no line feed. -/
theorem NumberLiteral.Sound.inline {l : NumberLiteral} (h : l.Sound) : '\n' ∉ l.raw.toList := by
  obtain ⟨negative, whole, fraction, rfl, -, hwhole, hfraction⟩ := h
  have hw : '\n' ∉ whole := fun hmem => absurd (hwhole _ hmem) (by decide)
  have hf : '\n' ∉ fraction := fun hmem => absurd (hfraction _ hmem) (by decide)
  cases negative <;> by_cases hnil : fraction.isEmpty <;>
    simp [NumberLiteral.ofDigits, hw, hf, hnil]

/-- A sound named argument has no line feed. -/
theorem NamedArgument.Sound.inline {a : NamedArgument} (h : a.Sound) : '\n' ∉ a.source.toList := by
  obtain ⟨name, _ | _⟩ := a
  · simp [NamedArgument.source, h.1.inline, StringLiteral.Sound.inline h.2]
  · simp [NamedArgument.source, h.1.inline, NumberLiteral.Sound.inline h.2]

/-- A sound key has no line feed. -/
theorem VariantKey.Sound.inline {key : VariantKey} (h : key.Sound) : '\n' ∉ key.source.toList := by
  cases key with
  | name id => exact IsIdentifier.inline h
  | number l => exact NumberLiteral.Sound.inline h

end Phrasebook
