import Phrasebook.Syntax.Tree

/-!
# Rewriting a tree

A rewriter gives a replacement for each node, after those inside it have been replaced. Entries,
attributes, elements and variants can be removed. What is left stays well formed: a message has a
value or an attribute, no pattern of a unit is empty, and the default variant of a select expression
stays, the only one marked as default.
-/

namespace Phrasebook

/-- A replacement for each node, or none for one that is to be removed. -/
structure Rewriter (m : Type → Type) where
  entry : Entry → m (Option Entry)
  message : Message → m (Option Message)
  term : Term → m (Option Term)
  comment : Comment → m (Option Comment)
  junk : Junk → m (Option Junk)
  attr : Attribute → m (Option Attribute)
  pattern : Pattern → m Pattern
  element : PatternElement → m (Option PatternElement)
  expression : Expression → m Expression
  variant : Variant → m (Option Variant)

namespace Rewriter

variable {m : Type → Type} [Monad m]

/-- The rewriter that keeps every node. -/
def keep : Rewriter m where
  entry e := return some e
  message e := return some e
  term e := return some e
  comment e := return some e
  junk e := return some e
  attr e := return some e
  pattern e := return e
  element e := return some e
  expression e := return e
  variant e := return some e

/-- A variant that has been replaced. The default variant cannot be removed, and the mark cannot be
moved. -/
def finishVariant (w : Rewriter m) (v : Variant) : m (Option Variant) := do
  let replaced ← w.variant v
  if v.isDefault then return some { replaced.getD v with isDefault := true }
  return (replaced.filter fun v => !v.value.isEmpty).map fun v => { v with isDefault := false }

mutual

/-- An expression after what is inside it; the named arguments of a call stay. -/
def rewriteExpression (w : Rewriter m) : Expression → m Expression
  | .string l => w.expression (.string l)
  | .number l => w.expression (.number l)
  | .variableRef name => w.expression (.variableRef name)
  | .messageRef id attr => w.expression (.messageRef id attr)
  | .termRef id attr none => w.expression (.termRef id attr none)
  | .termRef id attr (some ⟨positional, named⟩) => do
    let positional ← rewriteExpressions w positional
    w.expression (.termRef id attr (some ⟨positional, named⟩))
  | .call name ⟨positional, named⟩ => do
    let positional ← rewriteExpressions w positional
    w.expression (.call name ⟨positional, named⟩)
  | .select selector variants => do
    let selector ← rewriteExpression w selector
    let variants ← rewriteVariants w variants
    w.expression (.select selector variants)
  | .placeable inner => do
    let inner ← rewriteExpression w inner
    w.expression (.placeable inner)

/-- Expressions, in order. -/
def rewriteExpressions (w : Rewriter m) : List Expression → m (List Expression)
  | [] => return []
  | expression :: rest => do
    let expression ← rewriteExpression w expression
    return expression :: (← rewriteExpressions w rest)

/-- Variants, in order, each after its pattern. -/
def rewriteVariants (w : Rewriter m) : List Variant → m (List Variant)
  | [] => return []
  | ⟨key, value, isDefault⟩ :: rest => do
    let value ← w.pattern (← rewriteElements w value)
    let variant ← finishVariant w ⟨key, value, isDefault⟩
    return variant.toList ++ (← rewriteVariants w rest)

/-- The elements of a pattern, in order, each after its expression. -/
def rewriteElements (w : Rewriter m) : List PatternElement → m (List PatternElement)
  | [] => return []
  | .text value :: rest => do
    let element ← w.element (.text value)
    return element.toList ++ (← rewriteElements w rest)
  | .placeable inner :: rest => do
    let element ← w.element (.placeable (← rewriteExpression w inner))
    return element.toList ++ (← rewriteElements w rest)

end

/-- A pattern after its elements. -/
def rewritePattern (w : Rewriter m) (p : Pattern) : m Pattern := do
  w.pattern (← rewriteElements w p)

/-- An attribute whose pattern becomes empty is removed. -/
def rewriteAttribute (w : Rewriter m) (a : Attribute) : m (Option Attribute) := do
  let replaced ← w.attr { a with value := ← rewritePattern w a.value }
  return replaced.filter fun a => !a.value.isEmpty

/-- The attributes that are left, in order. -/
def rewriteAttributes (w : Rewriter m) (attributes : List Attribute) : m (List Attribute) :=
  attributes.filterMapM (rewriteAttribute w)

/-- The comment of a message or term, if there is one and it is left. -/
def rewriteComment (w : Rewriter m) : Option Comment → m (Option Comment)
  | none => return none
  | some c => w.comment c

/-- The value of a message, which is gone if it becomes empty. -/
def rewriteValue (w : Rewriter m) : Option Pattern → m (Option Pattern)
  | none => return none
  | some p => return some (← rewritePattern w p) |>.filter fun p => !p.isEmpty

/-- A message that is left without value and attributes is removed. -/
def rewriteMessage (w : Rewriter m) (message : Message) : m (Option Message) := do
  let value ← rewriteValue w message.value
  let attributes ← rewriteAttributes w message.attributes
  let comment ← rewriteComment w message.comment
  let replaced ← w.message { message with value, attributes, comment }
  return replaced.filter fun message => message.value.isSome || !message.attributes.isEmpty

/-- A term whose value becomes empty is removed. -/
def rewriteTerm (w : Rewriter m) (term : Term) : m (Option Term) := do
  let value ← rewritePattern w term.value
  let attributes ← rewriteAttributes w term.attributes
  let comment ← rewriteComment w term.comment
  let replaced ← w.term { term with value, attributes, comment }
  return replaced.filter fun term => !term.value.isEmpty

/-- An entry after its contents, if those are left. -/
def rewriteEntry (w : Rewriter m) (e : Entry) : m (Option Entry) := do
  let replaced ←
    match e with
    | .message message => (·.map .message) <$> rewriteMessage w message
    | .term term => (·.map .term) <$> rewriteTerm w term
    | .comment comment => (·.map .comment) <$> w.comment comment
    | .junk junk => (·.map .junk) <$> w.junk junk
  match replaced with
  | some e => w.entry e
  | none => return none

/-- Rewrites a resource from the inside out. -/
def rewrite (w : Rewriter m) (r : Resource) : m Resource :=
  return ⟨← r.entries.filterMapM (rewriteEntry w)⟩

end Rewriter

end Phrasebook
