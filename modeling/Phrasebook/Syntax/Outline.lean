import Phrasebook.Syntax.Tree

/-!
# Walking a tree

Every part of a resource is a node. The outline of a node is the tree of the nodes inside it, in the
order of the source; a comment stands after what it is about. A walk lists the nodes of an outline,
a node before those inside it, and may leave out what is inside some of them.
-/

namespace Phrasebook

/-- A part of a resource. -/
inductive Node where
  | resource (r : Resource)
  | entry (e : Entry)
  | message (m : Message)
  | term (t : Term)
  | comment (c : Comment)
  | junk (j : Junk)
  | attr (a : Attribute)
  | pattern (p : Pattern)
  | element (e : PatternElement)
  | text (value : String)
  | placeable (inner : Expression)
  | expression (e : Expression)
  | string (l : StringLiteral)
  | number (l : NumberLiteral)
  | variableRef (name : String)
  | messageRef (id : String) (attr : Option String)
  | termRef (id : String) (attr : Option String) (arguments : Option CallArguments)
  | call (name : String) (arguments : CallArguments)
  | arguments (a : CallArguments)
  | namedArgument (a : NamedArgument)
  | select (selector : Expression) (variants : List Variant)
  | variant (v : Variant)
  | identifier (name : String)

/-- A node and the outlines of the nodes directly inside it. -/
inductive Outline where
  | mk (node : Node) (inside : List Outline)

namespace Outline

/-- The node at the top. -/
def node : Outline → Node
  | mk node _ => node

/-- A node with nothing inside. -/
def leaf (node : Node) : Outline := mk node []

/-- A name. -/
def name (name : String) : Outline := leaf (.identifier name)

/-- A name that may be missing. -/
def names (name : Option String) : List Outline := name.toList.map Outline.name

/-- A named argument: its name, then its value. -/
def ofNamed (a : NamedArgument) : Outline :=
  mk (.namedArgument a) [name a.name,
    match a.value with
    | .string l => leaf (.string l)
    | .number l => leaf (.number l)]

/-- The key of a variant. -/
def ofKey : VariantKey → Outline
  | .name id => name id
  | .number l => leaf (.number l)

mutual

/-- An expression holds the one node of its kind. -/
def ofExpression : Expression → Outline
  | .string l => mk (.expression (.string l)) [leaf (.string l)]
  | .number l => mk (.expression (.number l)) [leaf (.number l)]
  | .variableRef id => mk (.expression (.variableRef id)) [mk (.variableRef id) [name id]]
  | .messageRef id attr =>
    mk (.expression (.messageRef id attr)) [mk (.messageRef id attr) (name id :: names attr)]
  | .termRef id attr none =>
    mk (.expression (.termRef id attr none)) [mk (.termRef id attr none) (name id :: names attr)]
  | .termRef id attr (some arguments) =>
    mk (.expression (.termRef id attr (some arguments)))
      [mk (.termRef id attr (some arguments)) (name id :: names attr ++ [ofArguments arguments])]
  | .call id arguments =>
    mk (.expression (.call id arguments)) [mk (.call id arguments) [name id, ofArguments arguments]]
  | .select selector variants =>
    mk (.expression (.select selector variants))
      [mk (.select selector variants) (ofExpression selector :: ofVariants variants)]
  | .placeable inner =>
    mk (.expression (.placeable inner)) [mk (.placeable inner) [ofExpression inner]]

/-- Call arguments: the positional ones, then the named ones. -/
def ofArguments : CallArguments → Outline
  | ⟨positional, named⟩ =>
    mk (.arguments ⟨positional, named⟩) (ofExpressions positional ++ named.map ofNamed)

/-- The outlines of expressions, in order. -/
def ofExpressions : List Expression → List Outline
  | [] => []
  | expression :: rest => ofExpression expression :: ofExpressions rest

/-- The outlines of variants, in order. -/
def ofVariants : List Variant → List Outline
  | [] => []
  | variant :: rest => ofVariant variant :: ofVariants rest

/-- A variant: its key, then its pattern. -/
def ofVariant : Variant → Outline
  | ⟨key, value, isDefault⟩ =>
    mk (.variant ⟨key, value, isDefault⟩) [ofKey key, mk (.pattern value) (ofElements value)]

/-- The outlines of the elements of a pattern, in order. -/
def ofElements : List PatternElement → List Outline
  | [] => []
  | element :: rest => ofElement element :: ofElements rest

/-- An element holds the one node of its kind. -/
def ofElement : PatternElement → Outline
  | .text value => mk (.element (.text value)) [leaf (.text value)]
  | .placeable inner =>
    mk (.element (.placeable inner)) [mk (.placeable inner) [ofExpression inner]]

end

/-- A pattern: its elements. -/
def ofPattern (p : Pattern) : Outline := mk (.pattern p) (ofElements p)

/-- An attribute: its name, then its pattern. -/
def ofAttribute (a : Attribute) : Outline := mk (.attr a) [name a.id, ofPattern a.value]

/-- The parts of a message or term: name, value, attributes, comment. -/
def ofParts (id : String) (value : Option Pattern) (attributes : List Attribute)
    (comment : Option Comment) : List Outline :=
  name id :: value.toList.map ofPattern ++ attributes.map ofAttribute ++
    comment.toList.map fun c => leaf (.comment c)

/-- An entry holds the one node of its kind. -/
def ofEntry (e : Entry) : Outline :=
  mk (.entry e) [
    match e with
    | .message m => mk (.message m) (ofParts m.id m.value m.attributes m.comment)
    | .term t => mk (.term t) (ofParts t.id (some t.value) t.attributes t.comment)
    | .comment c => leaf (.comment c)
    | .junk j => leaf (.junk j)]

/-- A resource: its entries. -/
def ofResource (r : Resource) : Outline := mk (.resource r) (r.entries.map ofEntry)

mutual

/-- A node and those inside it, in order; nothing inside a node that is a `stop`. -/
def walk (stop : Node → Bool) : Outline → List Node
  | mk node inside => node :: if stop node then [] else walkAll stop inside

/-- The walks through several outlines, one after the other. -/
def walkAll (stop : Node → Bool) : List Outline → List Node
  | [] => []
  | outline :: rest => walk stop outline ++ walkAll stop rest

end

mutual

/-- An outline and all those inside it, in order. -/
def parts : Outline → List Outline
  | mk node inside => mk node inside :: partsAll inside

/-- The outlines inside several outlines, one after the other. -/
def partsAll : List Outline → List Outline
  | [] => []
  | outline :: rest => parts outline ++ partsAll rest

end

/-- All nodes, in order. -/
def nodes (o : Outline) : List Node := o.walk fun _ => false

/-- All names, in order. -/
def identifiers (o : Outline) : List String :=
  o.nodes.filterMap fun
    | .identifier name => some name
    | _ => none

/-- What a node refers to, as it is written there, functions with parentheses. -/
def reference? : Node → Option String
  | .messageRef id _ => some id
  | .termRef id _ _ => some ("-" ++ id)
  | .variableRef name => some ("$" ++ name)
  | .call name _ => some (name ++ "()")
  | _ => none

/-- A reference to something other than a function. -/
def isPlainReference : Node → Bool
  | .messageRef .. => true
  | .termRef .. => true
  | .variableRef _ => true
  | _ => false

/-- All references, in order, leaving out those in the arguments of terms. -/
def references (o : Outline) : List String := (o.walk isPlainReference).filterMap reference?

end Outline

end Phrasebook
