import Phrasebook.Number.Double
import Phrasebook.Syntax.Diagnostic

/-!
# The tree of a resource

A resource is a sequence of entries: messages, terms, comments, and junk that could not be read. The
text of messages and terms is made of patterns, and patterns of text and placeables.
-/

namespace Phrasebook

/-- A quoted string: the text it stands for, and its source form between the quotes. -/
structure StringLiteral where
  value : String
  raw : String
  deriving DecidableEq

/-- A number in source form, with the double nearest to it. -/
structure NumberLiteral where
  value : Double
  raw : String
  deriving DecidableEq

/-- The values that named arguments can have. -/
inductive Literal where
  | string (literal : StringLiteral)
  | number (literal : NumberLiteral)
  deriving DecidableEq

/-- `name: literal` -/
structure NamedArgument where
  name : String
  value : Literal
  deriving DecidableEq

/-- The key of a variant. -/
inductive VariantKey where
  | name (id : String)
  | number (literal : NumberLiteral)
  deriving DecidableEq

mutual

/-- What may stand between braces. -/
inductive Expression where
  | string (literal : StringLiteral)
  | number (literal : NumberLiteral)
  /-- `$name` -/
  | variableRef (name : String)
  /-- `id` or `id.attr` -/
  | messageRef (id : String) (attr : Option String)
  /-- `-id`, `-id.attr`, `-id(...)` -/
  | termRef (id : String) (attr : Option String) (arguments : Option CallArguments)
  /-- `NAME(...)` -/
  | call (name : String) (arguments : CallArguments)
  /-- A selector and the variants to choose from. -/
  | select (selector : Expression) (variants : List Variant)
  /-- A placeable directly inside another. -/
  | placeable (inner : Expression)

/-- The arguments of a function call or of a term reference. -/
structure CallArguments where
  positional : List Expression
  named : List NamedArgument

/-- One arm of a select expression. -/
structure Variant where
  key : VariantKey
  value : List PatternElement
  isDefault : Bool

/-- One element of a pattern. -/
inductive PatternElement where
  /-- Text that is written as it stands. -/
  | text (value : String)
  /-- An expression between braces. -/
  | placeable (expression : Expression)

end

/-- A pattern is the sequence of its elements. -/
abbrev Pattern := List PatternElement

/-- A named pattern of a message or term. -/
structure Attribute where
  id : String
  value : Pattern

/-- What a comment is about, told by the number of its `#` characters. -/
inductive CommentLevel where
  /-- One `#`: the entry below, or nothing. -/
  | entry
  /-- Two: the entries that follow. -/
  | group
  /-- Three: the resource. -/
  | resource
  deriving DecidableEq

/-- The mark that starts each line of a comment. -/
def CommentLevel.sigil : CommentLevel → String
  | entry => "#"
  | group => "##"
  | resource => "###"

/-- A comment, as its lines without their marks. -/
structure Comment where
  level : CommentLevel
  lines : List String
  deriving DecidableEq

/-- A public unit of text. -/
structure Message where
  id : String
  value : Option Pattern
  attributes : List Attribute
  comment : Option Comment
  span : Span

/-- A private unit of text, for use in other units. -/
structure Term where
  id : String
  value : Pattern
  attributes : List Attribute
  comment : Option Comment
  span : Span

/-- Source text that could not be read, with the problem that was met in it. -/
structure Junk where
  content : String
  diagnostic : Diagnostic
  span : Span
  deriving DecidableEq

/-- A top-level entry of a resource. -/
inductive Entry where
  | message (message : Message)
  | term (term : Term)
  | comment (comment : Comment)
  | junk (junk : Junk)

/-- The entries of one source, in order. -/
structure Resource where
  entries : List Entry

/-- A name with the attribute that is asked of it. -/
def referenceName (id : String) : Option String → String
  | none => id
  | some attr => id ++ "." ++ attr

/-- The first attribute with a given name. -/
def Attribute.find? (attributes : List Attribute) (name : String) : Option Attribute :=
  attributes.find? fun a => a.id = name

namespace Resource

/-- The messages of a resource, in order. -/
def messages (r : Resource) : List Message :=
  r.entries.filterMap fun
    | .message m => some m
    | _ => none

/-- The terms of a resource, in order. -/
def terms (r : Resource) : List Term :=
  r.entries.filterMap fun
    | .term t => some t
    | _ => none

/-- The junk of a resource, in order. -/
def junk (r : Resource) : List Junk :=
  r.entries.filterMap fun
    | .junk j => some j
    | _ => none

/-- The comments that stand for themselves, in order. -/
def comments (r : Resource) : List Comment :=
  r.entries.filterMap fun
    | .comment c => some c
    | _ => none

end Resource

end Phrasebook
