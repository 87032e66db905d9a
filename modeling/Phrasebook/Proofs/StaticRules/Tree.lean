import Phrasebook.Proofs.Outline
import Phrasebook.Proofs.RoundTrip.Reading.Entry
import Phrasebook.Proofs.StaticRules.Pattern

/-!
# The static rules of the grammar

What the grammar asks of a tree beyond its shape is asked of its nodes, one by one, and of the ways
down to them, which pass a bounded number of placeables and lists of arguments. Both hold of every
tree that was read: the rules of one level of nesting give those of the level around it.
-/

namespace Phrasebook

/-- A capital letter, then capital letters, digits, `_` and `-`. -/
def IsFunctionName (name : String) : Prop :=
  ∃ c rest, name.toList = c :: rest ∧ c.isUpper ∧
    ∀ d ∈ rest, d.isUpper ∨ d.isDigit ∨ d = '_' ∨ d = '-'

/-- An expression that may select a variant: a literal, a variable, a call, or an attribute of a
term. -/
def Expression.Selects : Expression → Prop
  | .string _ => True
  | .number _ => True
  | .variableRef _ => True
  | .call .. => True
  | .termRef _ attr _ => attr.isSome
  | .messageRef .. => False
  | .select .. => False
  | .placeable _ => False

/-- What the grammar asks of a node. -/
def Node.Lawful : Node → Prop
  | .identifier name => IsIdentifier name
  | .message m => m.value.isSome ∨ m.attributes ≠ []
  | .pattern p => p.Regular
  | .placeable inner => ∀ id attr arguments, inner ≠ .termRef id (some attr) arguments
  | .call name _ => IsFunctionName name
  | .arguments a => (a.named.map (·.name)).Nodup
  | .select selector variants => selector.Selects ∧ variants.countP (·.isDefault) = 1
  | _ => True

/-- Placeables and lists of arguments are what nests. -/
def Node.nests : Node → Bool
  | .placeable _ => true
  | .arguments _ => true
  | _ => false

namespace Outline

mutual

/-- The ways down from the top of an outline to each of its nodes, with all the nodes on them. -/
def paths : Outline → List (List Node)
  | mk node inside => [node] :: (pathsAll inside).map (node :: ·)

/-- The ways down from the tops of several outlines. -/
def pathsAll : List Outline → List (List Node)
  | [] => []
  | outline :: rest => paths outline ++ pathsAll rest

end

/-- Every node is lawful, and no way down passes more than `depth` nodes that nest. -/
def Lawful (depth : Nat) (o : Outline) : Prop :=
  (∀ node ∈ o.nodes, node.Lawful) ∧ ∀ path ∈ o.paths, path.countP Node.nests ≤ depth

variable {node : Node} {inside : List Outline} {depth : Nat}

/-- The paths into trees are those into one of them. -/
theorem mem_pathsAll {path : List Node} {outlines : List Outline} :
    path ∈ pathsAll outlines ↔ ∃ o ∈ outlines, path ∈ o.paths := by
  induction outlines with
  | nil => simp [pathsAll]
  | cons o rest ih => simp [pathsAll, ih]

/-- A node adds itself to the ways down through it. -/
theorem lawful_mk (hnode : node.Lawful) (hinside : ∀ o ∈ inside, o.Lawful depth) :
    (mk node inside).Lawful (depth + if node.nests then 1 else 0) := by
  constructor
  · intro n hn
    rw [nodes, walk] at hn
    rcases List.mem_cons.mp hn with rfl | hn
    · exact hnode
    · obtain ⟨o, ho, hn⟩ := mem_walkAll.mp hn
      exact (hinside o ho).1 n hn
  · intro path hpath
    rw [paths] at hpath
    rcases List.mem_cons.mp hpath with rfl | hpath
    · rw [List.countP_singleton]
      omega
    · obtain ⟨below, hbelow, rfl⟩ := List.mem_map.mp hpath
      obtain ⟨o, ho, hbelow⟩ := mem_pathsAll.mp hbelow
      have hcount := (hinside o ho).2 below hbelow
      rw [List.countP_cons]
      omega

/-- A node that does not nest. -/
theorem lawful_flat (hnests : node.nests = false) (hnode : node.Lawful)
    (hinside : ∀ o ∈ inside, o.Lawful depth) : (mk node inside).Lawful depth := by
  simpa [hnests] using lawful_mk hnode hinside

/-- A node that nests. -/
theorem lawful_nested (hnests : node.nests = true) (hnode : node.Lawful)
    (hinside : ∀ o ∈ inside, o.Lawful depth) : (mk node inside).Lawful (depth + 1) := by
  simpa [hnests] using lawful_mk hnode hinside

/-- A lawful leaf is a lawful tree. -/
theorem lawful_leaf (hnests : node.nests = false) (hnode : node.Lawful) :
    (leaf node).Lawful depth :=
  lawful_flat hnests hnode (by rintro _ ⟨⟩)

/-- An identifier is lawful at any depth. -/
theorem lawful_name {id : String} (h : IsIdentifier id) : (name id).Lawful depth :=
  lawful_leaf rfl h

/-- An identifier that may be missing is lawful at any depth. -/
theorem lawful_names {id : Option String} (h : ∀ a ∈ id, IsIdentifier a) :
    ∀ o ∈ names id, o.Lawful depth := by
  intro o ho
  obtain ⟨a, ha, rfl⟩ := List.mem_map.mp ho
  exact lawful_name (h a (Option.mem_toList.mp ha))

/-- A sound named argument is lawful at any depth. -/
theorem lawful_ofNamed {a : NamedArgument} (h : a.Sound) : (ofNamed a).Lawful depth := by
  refine lawful_flat rfl trivial fun o ho => ?_
  rcases List.mem_cons.mp ho with rfl | ho
  · exact lawful_name h.1
  · obtain rfl := List.mem_singleton.mp ho
    cases a.value <;> exact lawful_leaf rfl trivial

/-- A sound key is lawful at any depth. -/
theorem lawful_ofKey {key : VariantKey} (h : key.Sound) : (ofKey key).Lawful depth := by
  cases key with
  | name id => exact lawful_name h
  | number l => exact lawful_leaf rfl trivial

end Outline

open Outline

/-- What the grammar accepts for a call is the name of a function. -/
theorem isFunctionName_of_isCallee {name : String} (h : Reader.isCallee name) :
    IsFunctionName name := by
  rw [Reader.isCallee] at h
  rcases hname : name.toList with _ | ⟨c, rest⟩
  · simp [hname] at h
  · simp only [hname, Bool.and_eq_true, List.all_eq_true] at h
    refine ⟨c, rest, hname, h.1, fun d hd => ?_⟩
    simpa [or_assoc] using h.2 d hd

/-- What has no problem as a selector may select. -/
theorem Expression.selects_of_selectorProblem? {e : Expression}
    (h : Reader.selectorProblem? e = none) : e.Selects := by
  cases e with
  | messageRef id attr => cases attr <;> cases h
  | termRef id attr arguments =>
    cases attr with
    | none => cases h
    | some attr => rfl
  | select selector variants => cases h
  | placeable inner => cases h
  | _ => trivial

/-! ## Levels -/

/-- What stands one level deeper is lawful, and passes at most `depth` nodes that nest. -/
structure Shape.Lawful (shape : Shape) (depth : Nat) : Prop where
  placeable : ∀ e, shape.placeable e → (Outline.mk (.placeable e) [ofExpression e]).Lawful depth
  arguments : ∀ a, shape.arguments a → (ofArguments a).Lawful depth
  sound : ∀ p, shape.pattern p → p.Sound

namespace Shape

variable {shape : Shape} {depth : Nat} {Q : Pattern → Prop}

/-- An expression holds one node, under a node of its own. -/
private theorem lawful_expression {e : Expression} {node : Node} {inside : List Outline}
    (h : (Outline.mk node inside).Lawful depth) :
      (Outline.mk (.expression e) [.mk node inside]).Lawful depth :=
  lawful_flat rfl trivial (by simpa using h)

/-- Inline expressions are lawful at the depth of their shape. -/
theorem Lawful.inline (h : shape.Lawful depth) {e : Expression} (he : shape.Inline e) :
    (ofExpression e).Lawful depth := by
  cases e with
  | string l => exact lawful_expression (lawful_leaf rfl trivial)
  | number l => exact lawful_expression (lawful_leaf rfl trivial)
  | variableRef name =>
    refine lawful_expression (lawful_flat rfl trivial ?_)
    simpa using lawful_name he
  | messageRef id attr =>
    refine lawful_expression (lawful_flat rfl trivial ?_)
    simpa using ⟨lawful_name he.1, lawful_names he.2⟩
  | termRef id attr arguments =>
    cases arguments with
    | none =>
      refine lawful_expression (lawful_flat rfl trivial ?_)
      simpa using ⟨lawful_name he.1, lawful_names he.2.1⟩
    | some arguments =>
      refine lawful_expression (lawful_flat rfl trivial ?_)
      have harguments := h.arguments arguments (he.2.2 arguments rfl)
      simpa [or_imp, forall_and] using ⟨lawful_name he.1, lawful_names he.2.1, harguments⟩
  | call name arguments =>
    refine lawful_expression (lawful_flat rfl (isFunctionName_of_isCallee he.2.1) ?_)
    simpa using ⟨lawful_name he.1, h.arguments arguments he.2.2⟩
  | select selector variants => exact he.elim
  | placeable inner => exact lawful_expression (h.placeable inner he)

/-- Arguments are lawful one level deeper. -/
theorem Lawful.listed (h : shape.Lawful depth) {a : CallArguments} (ha : shape.Listed a) :
    (ofArguments a).Lawful (depth + 1) := by
  obtain ⟨positional, named⟩ := a
  refine lawful_nested rfl ha.distinct fun o ho => ?_
  rw [ofExpressions_eq_map, List.mem_append] at ho
  rcases ho with ho | ho
  · obtain ⟨e, he, rfl⟩ := List.mem_map.mp ho
    exact h.inline (ha.positional e he)
  · obtain ⟨n, hn, rfl⟩ := List.mem_map.mp ho
    exact lawful_ofNamed (ha.named n hn)

/-- Patterns are lawful at the depth of their shape. -/
theorem Lawful.lines (h : shape.Lawful depth) {p : Pattern} (hp : shape.Lines p) :
    (ofPattern p).Lawful depth := by
  have hsound := h.sound p hp.pattern
  refine lawful_flat rfl hsound.regular fun o ho => ?_
  rw [ofElements_eq_map] at ho
  obtain ⟨element, helement, rfl⟩ := List.mem_map.mp ho
  cases element with
  | text value =>
    have hleaf : (leaf (.text value)).Lawful depth := lawful_leaf rfl trivial
    exact lawful_flat rfl trivial (by simpa using hleaf)
  | placeable e =>
    refine lawful_flat rfl trivial ?_
    simpa using h.placeable e (hsound.holds_of_mem hp.holds helement)

/-- Variants are lawful at the depth of their shape. -/
theorem Lawful.arm (h : shape.Lawful depth) {v : Variant} (hkey : v.key.Sound)
    (hvalue : shape.Value v.value) : (ofVariant v).Lawful depth := by
  obtain ⟨key, value, isDefault⟩ := v
  refine lawful_flat rfl trivial fun o ho => ?_
  rcases List.mem_cons.mp ho with rfl | ho
  · exact lawful_ofKey hkey
  · obtain rfl := List.mem_singleton.mp ho
    exact h.lines hvalue.toLines

/-- Placeables are lawful one level deeper. -/
theorem Lawful.full (h : shape.Lawful depth) {e : Expression} (he : shape.Full e) :
    (Outline.mk (.placeable e) [ofExpression e]).Lawful (depth + 1) := by
  have hbare : ∀ id attr arguments, e ≠ .termRef id (some attr) arguments := by
    rintro id attr arguments rfl
    exact he
  have hinside : (ofExpression e).Lawful depth := by
    rcases he.select_or_inline with ⟨selector, variants, rfl, hselector, hproblem, harms⟩ |
      ⟨hinline, -⟩
    · refine lawful_expression (lawful_flat rfl
        ⟨Expression.selects_of_selectorProblem? hproblem, harms.default⟩ fun o ho => ?_)
      rcases List.mem_cons.mp ho with rfl | ho
      · exact h.inline hselector
      · rw [ofVariants_eq_map] at ho
        obtain ⟨v, hv, rfl⟩ := List.mem_map.mp ho
        exact h.arm (harms.keys v hv) (harms.values v hv)
    · exact h.inline hinline
  exact lawful_nested rfl hbare (by simpa using hinside)

/-- What stands in a number of levels passes no more nodes that nest. -/
theorem lawful_levels (hQ : ∀ p, Q p → p.Sound) (level : Nat) : (levels Q level).Lawful level := by
  induction level with
  | zero => exact ⟨fun _ he => he.elim, fun _ ha => ha.elim, hQ⟩
  | succ level ih => exact ⟨fun _ he => ih.full he, fun _ ha => ih.listed ha, hQ⟩

end Shape

/-! ## Entries -/

section Entries

variable {Q : Pattern → Prop}

private theorem lawful_inFull (hQ : ∀ p, Q p → p.Sound) {p : Pattern}
    (h : (Shape.levels Q maxNesting).Lines p) : (ofPattern p).Lawful maxNesting :=
  (Shape.lawful_levels hQ maxNesting).lines h

private theorem lawful_parts (hQ : ∀ p, Q p → p.Sound) {id : String} {value : Option Pattern}
    {attributes : List Attribute} {comment : Option Comment} (hid : IsIdentifier id)
    (hvalue : ∀ p ∈ value, (Shape.levels Q maxNesting).Lines p)
    (hattributes : ∀ a ∈ attributes, a.Sound Q) :
    ∀ o ∈ ofParts id value attributes comment, o.Lawful maxNesting := by
  intro o ho
  simp only [ofParts, List.cons_append, List.mem_cons, List.mem_append, List.mem_map,
    Option.mem_toList] at ho
  rcases ho with rfl | (⟨p, hp, rfl⟩ | ⟨a, ha, rfl⟩) | ⟨c, -, rfl⟩
  · exact lawful_name hid
  · exact lawful_inFull hQ (hvalue p hp)
  · have hattribute := hattributes a ha
    refine lawful_flat rfl trivial fun o ho => ?_
    rcases List.mem_cons.mp ho with rfl | ho
    · exact lawful_name hattribute.id
    · obtain rfl := List.mem_singleton.mp ho
      exact lawful_inFull hQ hattribute.value.toLines
  · exact lawful_leaf rfl trivial

/-- Entries are lawful with the most levels that may be nested. -/
theorem Entry.Sound.lawful (hQ : ∀ p, Q p → p.Sound) {e : Entry} (h : e.Sound Q) :
    (ofEntry e).Lawful maxNesting := by
  refine lawful_flat rfl trivial fun o ho => ?_
  obtain rfl := List.mem_singleton.mp ho
  cases e with
  | message m =>
    have hm : m.Sound Q := h
    refine lawful_flat rfl ?_ (lawful_parts hQ hm.id hm.value hm.attributes)
    cases hvalue : m.value with
    | none => exact Or.inr (hm.present (by rw [hvalue, Option.bind_none]))
    | some p => exact Or.inl (by simp [hvalue])
  | term t =>
    have ht : t.Sound Q := h
    exact lawful_flat rfl trivial
      (lawful_parts hQ ht.id (by rintro _ ⟨⟩; exact ht.value.toLines) ht.attributes)
  | comment c => exact lawful_leaf rfl trivial
  | junk j => exact lawful_leaf rfl trivial

end Entries

/-- In every entry that was read, each node is lawful, and no way down from the entry passes more
placeables and lists of arguments than may be nested. -/
theorem parse_lawful (source : String) :
    ∀ e ∈ (Resource.parse source).entries,
      (∀ node ∈ (ofEntry e).nodes, node.Lawful) ∧
        ∀ path ∈ (ofEntry e).paths, path.countP Node.nests ≤ maxNesting := by
  intro e he
  exact (Resource.sound_parse source e he).lawful fun _ hp => hp.sound

/-- A message with an attribute of a term as selector and a call inside a variant. -/
theorem parse_lawful_select :
    ∃ e ∈ (Resource.parse "m = \x7b -t.a ->\n *[x] \x7b F($y, b: 1) \x7d\n\x7d\n").entries,
      (∀ node ∈ (ofEntry e).nodes, node.Lawful) ∧
        ∀ path ∈ (ofEntry e).paths, path.countP Node.nests ≤ maxNesting := by
  have hne :
      (Resource.parse "m = \x7b -t.a ->\n *[x] \x7b F($y, b: 1) \x7d\n\x7d\n").entries ≠ [] := by
    rw [Ne, ← List.isEmpty_iff]
    decide +kernel
  exact ⟨_, List.head_mem hne, parse_lawful _ _ (List.head_mem hne)⟩

end Phrasebook
