import Phrasebook.Proofs.Rewriting.Parseable
import Phrasebook.Proofs.StaticRules.Tree

/-!
# The shape of what is left

Every node of a tree that was cut down is what is left of a node of the tree it was cut down from.
No unit in it is empty, and each select expression has the default variant that it had.
-/

namespace Phrasebook

open Outline

/-! ## Nodes -/

/-- A node from which nothing can be left out. -/
def Node.isWhole : Node → Bool
  | .comment _ | .junk _ | .text _ | .string _ | .number _ | .variableRef _ | .messageRef ..
  | .namedArgument _ | .identifier _ => true
  | _ => false

/-- A node, and what is left of it. -/
inductive Node.PrunesTo : Node → Node → Prop
  | whole {node : Node} (h : node.isWhole) : PrunesTo node node
  | resource {r r' : Resource} (h : r.PrunesTo r') : PrunesTo (.resource r) (.resource r')
  | entry {e e' : Entry} (h : e.PrunesTo e') : PrunesTo (.entry e) (.entry e')
  | message {m m' : Message} (h : m.PrunesTo m') : PrunesTo (.message m) (.message m')
  | term {t t' : Term} (h : t.PrunesTo t') : PrunesTo (.term t) (.term t')
  | attr {a a' : Attribute} (h : a.PrunesTo a') : PrunesTo (.attr a) (.attr a')
  | pattern {p p' : Pattern} (h : p.PrunesTo p') : PrunesTo (.pattern p) (.pattern p')
  | elementText (value : String) : PrunesTo (.element (.text value)) (.element (.text value))
  | elementPlaceable {e e' : Expression} (h : e.PrunesTo e') :
    PrunesTo (.element (.placeable e)) (.element (.placeable e'))
  | placeable {e e' : Expression} (h : e.PrunesTo e') : PrunesTo (.placeable e) (.placeable e')
  | expression {e e' : Expression} (h : e.PrunesTo e') : PrunesTo (.expression e) (.expression e')
  | termRef (id : String) (attr : Option String) :
    PrunesTo (.termRef id attr none) (.termRef id attr none)
  | termCall (id : String) (attr : Option String) {positional positional' : List Expression}
    (named : List NamedArgument) (h : Expression.AllPruneTo positional positional') :
    PrunesTo (.termRef id attr (some ⟨positional, named⟩))
      (.termRef id attr (some ⟨positional', named⟩))
  | call (name : String) {positional positional' : List Expression} (named : List NamedArgument)
    (h : Expression.AllPruneTo positional positional') :
    PrunesTo (.call name ⟨positional, named⟩) (.call name ⟨positional', named⟩)
  | arguments {positional positional' : List Expression} (named : List NamedArgument)
    (h : Expression.AllPruneTo positional positional') :
    PrunesTo (.arguments ⟨positional, named⟩) (.arguments ⟨positional', named⟩)
  | select {selector selector' : Expression} {variants variants' : List Variant}
    (hselector : selector.PrunesTo selector') (hvariants : Variant.AllPruneTo variants variants') :
    PrunesTo (.select selector variants) (.select selector' variants')
  | variant (key : VariantKey) {value value' : Pattern} (isDefault : Bool)
    (hvalue : value.PrunesTo value') (hne : isDefault = false → value' ≠ []) :
    PrunesTo (.variant ⟨key, value, isDefault⟩) (.variant ⟨key, value', isDefault⟩)

/-- A message has a value or an attribute, and no value is empty but that of a default variant. -/
def Node.IsFilled : Node → Prop
  | .message m => (m.value.isSome ∨ m.attributes ≠ []) ∧ ∀ p ∈ m.value, p ≠ []
  | .term t => t.value ≠ []
  | .attr a => a.value ≠ []
  | .variant v => v.isDefault = false → v.value ≠ []
  | _ => True

/-- No node is left empty that must not be. -/
theorem Node.PrunesTo.isFilled {node node' : Node} (h : node.PrunesTo node') : node'.IsFilled := by
  cases h with
  | whole h => cases node <;> trivial
  | message h => exact ⟨h.present, fun p hp => (h.value p hp).1⟩
  | term h => exact h.ne_nil
  | attr h => exact h.ne_nil
  | variant key isDefault hvalue hne => exact hne
  | _ => trivial

/-! ## Outlines -/

namespace Outline

variable {node node' : Node} {inside inside' outlines outlines' more more' : List Outline}

/-- Every node is what is left of one. -/
def PrunesTo (o o' : Outline) : Prop := ∀ n' ∈ o'.nodes, ∃ n ∈ o.nodes, n.PrunesTo n'

/-- Every outline is what is left of one. -/
def AllPruneTo (outlines outlines' : List Outline) : Prop :=
  ∀ o' ∈ outlines', ∃ o ∈ outlines, o.PrunesTo o'

/-- What is left of a tree is what is left of its root and of what is inside. -/
theorem prunesTo_mk (hnode : node.PrunesTo node') (hinside : AllPruneTo inside inside') :
    (mk node inside).PrunesTo (mk node' inside') := by
  refine forall_nodes_mk.mpr ⟨⟨node, ?_, hnode⟩, fun o' ho' n' hn' => ?_⟩
  · rw [nodes, walk]
    exact List.mem_cons_self
  · obtain ⟨o, ho, hprunes⟩ := hinside o' ho'
    obtain ⟨n, hn, h⟩ := hprunes n' hn'
    refine ⟨n, ?_, h⟩
    rw [nodes, walk]
    exact List.mem_cons_of_mem _ (mem_walkAll.mpr ⟨o, ho, hn⟩)

/-- A leaf is left as a whole. -/
theorem prunesTo_leaf (h : node.isWhole) : (leaf node).PrunesTo (leaf node) :=
  prunesTo_mk (.whole h) (by rintro _ ⟨⟩)

namespace AllPruneTo

/-- Of no outlines none are left. -/
theorem nil : AllPruneTo [] [] := by rintro _ ⟨⟩

/-- An outline is left with what is left of the others. -/
theorem cons {o o' : Outline} (h : o.PrunesTo o') (hrest : AllPruneTo outlines outlines') :
    AllPruneTo (o :: outlines) (o' :: outlines') :=
  List.forall_mem_cons.mpr ⟨⟨o, List.mem_cons_self, h⟩, fun o' ho' =>
    (hrest o' ho').imp fun _ h => h.imp_left (List.mem_cons_of_mem _)⟩

/-- An outline may be left out. -/
theorem skip (o : Outline) (h : AllPruneTo outlines outlines') :
    AllPruneTo (o :: outlines) outlines' :=
  fun o' ho' => (h o' ho').imp fun _ h => h.imp_left (List.mem_cons_of_mem _)

/-- What is left of two lists is left of them together. -/
theorem append (h : AllPruneTo outlines outlines') (hmore : AllPruneTo more more') :
    AllPruneTo (outlines ++ more) (outlines' ++ more') :=
  List.forall_mem_append.mpr
    ⟨fun o' ho' => (h o' ho').imp fun _ h => h.imp_left (List.mem_append_left _),
      fun o' ho' => (hmore o' ho').imp fun _ h => h.imp_left (List.mem_append_right _)⟩

/-- Identifiers are left as they are. -/
theorem names (id : Option String) : AllPruneTo (Outline.names id) (Outline.names id) := by
  cases id with
  | none => exact nil
  | some id => exact cons (prunesTo_leaf rfl) nil

/-- Named arguments are left as they are. -/
theorem named : ∀ named : List NamedArgument, AllPruneTo (named.map ofNamed) (named.map ofNamed)
  | [] => nil
  | ⟨name, value⟩ :: rest => by
    refine cons (prunesTo_mk (.whole rfl) (cons (prunesTo_leaf rfl) (cons ?_ nil))) (named rest)
    cases value <;> exact prunesTo_leaf rfl

end AllPruneTo

/-- Keys are left as they are. -/
theorem prunesTo_ofKey (key : VariantKey) : (ofKey key).PrunesTo (ofKey key) := by
  cases key <;> exact prunesTo_leaf rfl

/-- An expression holds the node of its kind. -/
private theorem prunesTo_expression {e e' : Expression} (h : e.PrunesTo e')
    (hnode : node.PrunesTo node') (hinside : AllPruneTo inside inside') :
    (mk (.expression e) [mk node inside]).PrunesTo (mk (.expression e') [mk node' inside']) :=
  prunesTo_mk (.expression h) (.cons (prunesTo_mk hnode hinside) .nil)

private theorem prunesTo_arguments {positional positional' : List Expression}
    (named : List NamedArgument) (h : Expression.AllPruneTo positional positional')
    (hinside : AllPruneTo (ofExpressions positional) (ofExpressions positional')) :
    (ofArguments ⟨positional, named⟩).PrunesTo (ofArguments ⟨positional', named⟩) := by
  rw [ofArguments, ofArguments]
  exact prunesTo_mk (.arguments named h) (hinside.append (.named named))

mutual

/-- The outline of what is left of an expression is left of its outline. -/
theorem prunesTo_ofExpression :
    ∀ {e e' : Expression}, e.PrunesTo e' → (ofExpression e).PrunesTo (ofExpression e')
  | .string l, _, h => by
    cases h
    exact prunesTo_expression (.string l) (.whole rfl) .nil
  | .number l, _, h => by
    cases h
    exact prunesTo_expression (.number l) (.whole rfl) .nil
  | .variableRef name, _, h => by
    cases h
    exact prunesTo_expression (.variableRef name) (.whole rfl) (.cons (prunesTo_leaf rfl) .nil)
  | .messageRef id attr, _, h => by
    cases h
    exact prunesTo_expression (.messageRef id attr) (.whole rfl)
      (.cons (prunesTo_leaf rfl) (.names attr))
  | .termRef id attr none, _, h => by
    cases h
    exact prunesTo_expression (.termRef id attr) (.termRef id attr)
      (.cons (prunesTo_leaf rfl) (.names attr))
  | .termRef id attr (some ⟨positional, named⟩), _, h => by
    cases h with
    | termCall id attr named h =>
      have hinside := prunesTo_ofExpressions h
      exact prunesTo_expression (.termCall id attr named h) (.termCall id attr named h)
        (.cons (prunesTo_leaf rfl)
          ((AllPruneTo.names attr).append (.cons (prunesTo_arguments named h hinside) .nil)))
  | .call name ⟨positional, named⟩, _, h => by
    cases h with
    | call name named h =>
      have hinside := prunesTo_ofExpressions h
      exact prunesTo_expression (.call name named h) (.call name named h)
        (.cons (prunesTo_leaf rfl) (.cons (prunesTo_arguments named h hinside) .nil))
  | .select selector variants, _, h => by
    cases h with
    | select hselector hvariants =>
      exact prunesTo_expression (.select hselector hvariants) (.select hselector hvariants)
        (.cons (prunesTo_ofExpression hselector) (prunesTo_ofVariants hvariants))
  | .placeable inner, _, h => by
    cases h with
    | placeable h =>
      exact prunesTo_expression (.placeable h) (.placeable h)
        (.cons (prunesTo_ofExpression h) .nil)

/-- The outlines of what is left of arguments are left of their outlines. -/
theorem prunesTo_ofExpressions : ∀ {expressions expressions' : List Expression},
    Expression.AllPruneTo expressions expressions' →
      AllPruneTo (ofExpressions expressions) (ofExpressions expressions')
  | [], _, h => by
    cases h
    exact .nil
  | e :: rest, _, h => by
    cases h with
    | cons h hrest => exact .cons (prunesTo_ofExpression h) (prunesTo_ofExpressions hrest)

/-- The outlines of what is left of variants are left of their outlines. -/
theorem prunesTo_ofVariants : ∀ {variants variants' : List Variant},
    Variant.AllPruneTo variants variants' → AllPruneTo (ofVariants variants) (ofVariants variants')
  | [], _, h => by
    cases h
    exact .nil
  | ⟨key, value, isDefault⟩ :: rest, _, h => by
    cases h with
    | keep key isDefault hvalue hne hrest =>
      refine .cons ?_ (prunesTo_ofVariants hrest)
      rw [ofVariant, ofVariant]
      exact prunesTo_mk (.variant key isDefault hvalue hne) (.cons (prunesTo_ofKey key)
        (.cons (prunesTo_mk (.pattern hvalue) (prunesTo_ofElements hvalue)) .nil))
    | drop key value hrest => exact (prunesTo_ofVariants hrest).skip _

/-- The outlines of what is left of elements are left of their outlines. -/
theorem prunesTo_ofElements : ∀ {p p' : Pattern},
    p.PrunesTo p' → AllPruneTo (ofElements p) (ofElements p')
  | [], _, h => by
    cases h
    exact .nil
  | .text value :: rest, _, h => by
    cases h with
    | text value hrest =>
      exact .cons (prunesTo_mk (.elementText value) (.cons (prunesTo_leaf rfl) .nil))
        (prunesTo_ofElements hrest)
    | drop element hrest => exact (prunesTo_ofElements hrest).skip _
  | .placeable inner :: rest, _, h => by
    cases h with
    | placeable h hrest =>
      have hplaceable := prunesTo_mk (.placeable h) (AllPruneTo.cons (prunesTo_ofExpression h) .nil)
      exact .cons (prunesTo_mk (.elementPlaceable h) (.cons hplaceable .nil))
        (prunesTo_ofElements hrest)
    | drop element hrest => exact (prunesTo_ofElements hrest).skip _

end

/-- The outline of what is left of a pattern is left of its outline. -/
theorem prunesTo_ofPattern {p p' : Pattern} (h : p.PrunesTo p') :
    (ofPattern p).PrunesTo (ofPattern p') :=
  prunesTo_mk (.pattern h) (prunesTo_ofElements h)

/-- The outline of what is left of an attribute is left of its outline. -/
theorem prunesTo_ofAttribute {a a' : Attribute} (h : a.PrunesTo a') :
    (ofAttribute a).PrunesTo (ofAttribute a') := by
  refine prunesTo_mk (.attr h) (.cons ?_ (.cons (prunesTo_ofPattern h.value) .nil))
  rw [h.id]
  exact prunesTo_leaf rfl

/-- The outlines of the members that are left. -/
private theorem allPruneTo_map {α : Type} {R : α → α → Prop} {outline : α → Outline}
    (h : ∀ a a', R a' a → (outline a).PrunesTo (outline a')) {list left : List α}
    (hleft : List.SublistForall₂ R left list) :
    AllPruneTo (list.map outline) (left.map outline) := by
  intro o' ho'
  obtain ⟨a', ha', rfl⟩ := List.mem_map.mp ho'
  obtain ⟨a, ha, hprunes⟩ := exists_of_sublistForall₂ hleft ha'
  exact ⟨outline a, List.mem_map_of_mem ha, h a a' hprunes⟩

/-- The parts of a message or term. -/
private theorem allPruneTo_ofParts {id : String} {value value' : Option Pattern}
    {attributes attributes' : List Attribute} {comment comment' : Option Comment}
    (hvalue : ∀ p' ∈ value', ∃ p ∈ value, Pattern.PrunesTo p p')
    (hattributes : Attribute.AllPruneTo attributes attributes')
    (hcomment : ∀ c ∈ comment', c ∈ comment) :
    AllPruneTo (ofParts id value attributes comment) (ofParts id value' attributes' comment') := by
  refine .cons (prunesTo_leaf rfl) (.append (.append ?_ ?_) ?_)
  · intro o' ho'
    obtain ⟨p', hp', rfl⟩ := List.mem_map.mp ho'
    obtain ⟨p, hp, hprunes⟩ := hvalue p' (Option.mem_toList.mp hp')
    exact ⟨ofPattern p, List.mem_map_of_mem (Option.mem_toList.mpr hp), prunesTo_ofPattern hprunes⟩
  · exact allPruneTo_map (fun a a' h => prunesTo_ofAttribute h) hattributes
  · intro o' ho'
    obtain ⟨c, hc, rfl⟩ := List.mem_map.mp ho'
    have hmem := hcomment c (Option.mem_toList.mp hc)
    exact ⟨_, List.mem_map_of_mem (Option.mem_toList.mpr hmem), prunesTo_leaf rfl⟩

/-- The outline of what is left of an entry is left of its outline. -/
theorem prunesTo_ofEntry {e e' : Entry} (h : e.PrunesTo e') :
    (ofEntry e).PrunesTo (ofEntry e') := by
  refine prunesTo_mk (.entry h) (.cons ?_ .nil)
  cases h with
  | message h =>
    refine prunesTo_mk (.message h) ?_
    rw [h.id]
    exact allPruneTo_ofParts (fun p' hp' => (h.value p' hp').2) h.attributes h.comment
  | @term t t' h =>
    refine prunesTo_mk (.term h) ?_
    have hvalue : ∀ p' ∈ some t'.value, ∃ p ∈ some t.value, Pattern.PrunesTo p p' := by
      rintro _ ⟨⟩
      exact ⟨t.value, rfl, h.value⟩
    rw [h.id]
    exact allPruneTo_ofParts hvalue h.attributes h.comment
  | comment c => exact prunesTo_leaf rfl
  | junk j => exact prunesTo_leaf rfl

/-- Every node of a tree that was cut down is what is left of a node. -/
theorem prunesTo_ofResource {r r' : Resource} (h : r.PrunesTo r') :
    (ofResource r).PrunesTo (ofResource r') :=
  prunesTo_mk (.resource h) (allPruneTo_map (fun _ _ he => prunesTo_ofEntry he) h)

end Outline

/-! ## Default variants -/

/-- The keys of the variants that are marked as default. -/
def Variant.defaultKeys (variants : List Variant) : List VariantKey :=
  (variants.filter (·.isDefault)).map (·.key)

/-- The default variants keep their keys. -/
theorem Variant.AllPruneTo.defaultKeys {variants variants' : List Variant}
    (h : Variant.AllPruneTo variants variants') :
    Variant.defaultKeys variants' = Variant.defaultKeys variants := by
  induction variants generalizing variants' with
  | nil =>
    cases h
    rfl
  | cons first rest ih =>
    cases h with
    | keep key isDefault hvalue hne hrest =>
      have hrest := ih hrest
      cases isDefault <;> simpa [Variant.defaultKeys] using hrest
    | drop key value hrest => exact ih hrest

/-- One key belongs to one default variant. -/
theorem Variant.exists_defaultKeys {variants : List Variant}
    (h : variants.countP (·.isDefault) = 1) : ∃ key, Variant.defaultKeys variants = [key] := by
  rw [List.countP_eq_length_filter, List.length_eq_one_iff] at h
  obtain ⟨v, hv⟩ := h
  exact ⟨v.key, by rw [Variant.defaultKeys, hv, List.map_singleton]⟩

/-! ## Sources -/

/-- Every node of a parsed resource keeps the static rules. -/
theorem lawful_of_mem_nodes {source : String} {node : Node}
    (h : node ∈ (ofResource (Resource.parse source)).nodes) : node.Lawful := by
  refine forall_nodes_mk.mpr ⟨trivial, fun o ho => ?_⟩ node h
  obtain ⟨e, he, rfl⟩ := List.mem_map.mp ho
  exact (parse_lawful source e he).1

/-- What is left of a resource has the shape of one. -/
structure Resource.KeepsShape (r r' : Resource) : Prop where
  /-- Entries, comments of entries, values of messages, attributes, elements and variants are left
  out, and nothing else is changed. -/
  pruned : r.PrunesTo r'
  /-- No message is left without a value and attributes, and no value is left empty but that of a
  default variant. -/
  filled : ∀ node ∈ (ofResource r').nodes, node.IsFilled
  /-- A select expression has one default variant, under the key that it had. -/
  default : ∀ selector' variants', .select selector' variants' ∈ (ofResource r').nodes →
    ∃ selector variants key, .select selector variants ∈ (ofResource r).nodes ∧
      selector.PrunesTo selector' ∧ Variant.AllPruneTo variants variants' ∧
        Variant.defaultKeys variants = [key] ∧ Variant.defaultKeys variants' = [key]

/-- A source of which members are left out keeps its shape. -/
theorem Resource.PrunesTo.keepsShape {source : String} {r' : Resource}
    (h : (Resource.parse source).PrunesTo r') : (Resource.parse source).KeepsShape r' := by
  have hnodes := prunesTo_ofResource h
  refine ⟨h, fun node hnode => ?_, fun selector' variants' hselect => ?_⟩
  · obtain ⟨_, -, hleft⟩ := hnodes node hnode
    exact hleft.isFilled
  · obtain ⟨node, hnode, hleft⟩ := hnodes _ hselect
    cases hleft with
    | whole h => cases h
    | @select selector _ variants _ hselector hvariants =>
      obtain ⟨key, hkey⟩ := Variant.exists_defaultKeys (lawful_of_mem_nodes hnode).2
      exact ⟨selector, variants, key, hnode, hselector, hvariants, hkey,
        hvariants.defaultKeys.trans hkey⟩

namespace Rewriter

variable {σ : Type} {w : Rewriter (StateM σ)}

/-- What a rewriter that only deletes makes of a source keeps the shape of it. -/
theorem Deletes.keepsShape_rewriteSource (h : w.Deletes) (state : σ) (source : String) :
    (Resource.parse source).KeepsShape (w.rewriteSource state source) :=
  Resource.PrunesTo.keepsShape (h.rewrite (Resource.parse source) state)

/-- The rewriter that asks for every variant to be deleted. -/
def dropVariants : Rewriter (StateM Unit) := { keep with variant := fun _ => return none }

/-- Dropping variants is deleting. -/
theorem deletes_dropVariants : dropVariants.Deletes :=
  { deletes_keep with variant := fun _ => .pure (by rintro _ ⟨⟩) }

/-- The first variant is deleted, and the default one is not. -/
theorem keepsShape_dropVariants :
    let source := "m = \x7b $x ->\n [a] b\n *[c] d\n \x7d\n"
    dropVariants.Deletes ∧
      (Resource.parse source).KeepsShape (dropVariants.rewriteSource () source) :=
  ⟨deletes_dropVariants, deletes_dropVariants.keepsShape_rewriteSource () _⟩

end Rewriter

end Phrasebook
