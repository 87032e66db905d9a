import Phrasebook.Proofs.Outline

/-!
# Induction over trees

A property of expressions and one of patterns that pass together from the parts to the whole hold of
every expression and pattern. On the way up, what is known of the nodes may be used.
-/

namespace Phrasebook

open Outline

/-- The properties pass from the parts of expressions and patterns to the whole, given what `N` says
of the nodes. -/
structure Ascends (N : Node → Prop) (E : Expression → Prop) (P : Pattern → Prop) : Prop where
  string (l : StringLiteral) : E (.string l)
  number (l : NumberLiteral) : E (.number l)
  variableRef (name : String) :
    N (.variableRef name) → N (.identifier name) → E (.variableRef name)
  messageRef (id : String) (attr : Option String) :
    N (.messageRef id attr) → N (.identifier id) → (∀ a ∈ attr, N (.identifier a)) →
      E (.messageRef id attr)
  termRef (id : String) (attr : Option String) (arguments : Option CallArguments) :
    N (.termRef id attr arguments) → N (.identifier id) → (∀ a ∈ attr, N (.identifier a)) →
      E (.termRef id attr arguments)
  call (name : String) (arguments : CallArguments) :
    N (.call name arguments) → (∀ e ∈ arguments.positional, E e) → E (.call name arguments)
  select (selector : Expression) (variants : List Variant) :
    N (.select selector variants) → E selector → (∀ v ∈ variants, P v.value) →
      E (.select selector variants)
  placeable (inner : Expression) : E inner → E (.placeable inner)
  pattern (p : Pattern) : N (.pattern p) → (∀ e, .placeable e ∈ p → E e) → P p

namespace Ascends

variable {N : Node → Prop} {E : Expression → Prop} {P : Pattern → Prop}

private theorem identifiers_of_names {attr : Option String}
    (h : ∀ node ∈ walkAll (fun _ => false) (names attr), N node) :
    ∀ a ∈ attr, N (.identifier a) := by
  rintro a rfl
  exact h _ (by simp [names, Outline.name, leaf, walk, walkAll])

mutual

/-- A property that ascends holds of an expression if all nodes below it have theirs. -/
theorem of_expression (h : Ascends N E P) :
    ∀ e : Expression, (∀ node ∈ (ofExpression e).nodes, N node) → E e
  | .string l, _ => h.string l
  | .number l, _ => h.number l
  | .variableRef name, hN => by
    refine h.variableRef name (hN _ ?_) (hN _ ?_)
    · simp [ofExpression, nodes, walk, walkAll]
    · simp [ofExpression, nodes, walk, walkAll, Outline.name, leaf]
  | .messageRef id attr, hN => by
    refine h.messageRef id attr (hN _ ?_) (hN _ ?_)
      (identifiers_of_names fun node hnode => hN _ ?_)
    · simp [ofExpression, nodes, walk, walkAll]
    · simp [ofExpression, nodes, walk, walkAll, Outline.name, leaf]
    · simp [ofExpression, nodes, walk, walkAll, hnode]
  | .termRef id attr none, hN => by
    refine h.termRef id attr none (hN _ ?_) (hN _ ?_)
      (identifiers_of_names fun node hnode => hN _ ?_)
    · simp [ofExpression, nodes, walk, walkAll]
    · simp [ofExpression, nodes, walk, walkAll, Outline.name, leaf]
    · simp [ofExpression, nodes, walk, walkAll, hnode]
  | .termRef id attr (some arguments), hN => by
    refine h.termRef id attr (some arguments) (hN _ ?_) (hN _ ?_)
      (identifiers_of_names fun node hnode => hN _ ?_)
    · simp [ofExpression, nodes, walk, walkAll]
    · simp [ofExpression, nodes, walk, walkAll, Outline.name, leaf]
    · simp [ofExpression, nodes, walk, walkAll, walkAll_append, hnode]
  | .call name ⟨positional, named⟩, hN => by
    refine h.call name _ (hN _ ?_) (of_expressions h positional fun node hnode => hN _ ?_)
    · simp [ofExpression, nodes, walk, walkAll]
    · simp [ofExpression, ofArguments, nodes, walk, walkAll, walkAll_append, hnode]
  | .select selector variants, hN => by
    refine h.select selector variants (hN _ ?_)
      (of_expression h selector fun node hnode => hN _ ?_)
      (of_variants h variants fun node hnode => hN _ ?_)
    · simp [ofExpression, nodes, walk, walkAll]
    · rw [nodes] at hnode
      simp [ofExpression, nodes, walk, walkAll, hnode]
    · simp [ofExpression, nodes, walk, walkAll, hnode]
  | .placeable inner, hN => by
    refine h.placeable inner (of_expression h inner fun node hnode => hN _ ?_)
    rw [nodes] at hnode
    simp [ofExpression, nodes, walk, walkAll, hnode]

/-- A property that ascends holds of every member of a list of expressions. -/
theorem of_expressions (h : Ascends N E P) : ∀ expressions : List Expression,
    (∀ node ∈ walkAll (fun _ => false) (ofExpressions expressions), N node) →
      ∀ e ∈ expressions, E e
  | first :: rest, hN, e, he => by
    have hfirst := of_expression h first fun node hnode => hN _ (by
      rw [nodes] at hnode
      simp [ofExpressions, walkAll, hnode])
    rcases List.mem_cons.mp he with rfl | he
    · exact hfirst
    · exact of_expressions h rest (fun node hnode => hN _ (by
        simp [ofExpressions, walkAll, hnode])) e he

/-- A property that ascends holds of the value of every variant. -/
theorem of_variants (h : Ascends N E P) : ∀ variants : List Variant,
    (∀ node ∈ walkAll (fun _ => false) (ofVariants variants), N node) →
      ∀ v ∈ variants, P v.value
  | ⟨key, value, isDefault⟩ :: rest, hN, v, hv => by
    rcases List.mem_cons.mp hv with rfl | hv
    · refine h.pattern value (hN _ ?_) (of_elements h value fun node hnode => hN _ ?_)
      · simp [ofVariants, ofVariant, walk, walkAll]
      · simp [ofVariants, ofVariant, walk, walkAll, hnode]
    · exact of_variants h rest (fun node hnode => hN _ (by
        simp [ofVariants, walkAll, hnode])) v hv

/-- A property that ascends holds of every expression placed in a pattern. -/
theorem of_elements (h : Ascends N E P) : ∀ p : Pattern,
    (∀ node ∈ walkAll (fun _ => false) (ofElements p), N node) →
      ∀ e, .placeable e ∈ p → E e
  | .text value :: rest, hN, e, he => by
    have he : PatternElement.placeable e ∈ rest := by simpa using he
    exact of_elements h rest (fun node hnode => hN _ (by simp [ofElements, walkAll, hnode])) e he
  | .placeable inner :: rest, hN, e, he => by
    have hinner := of_expression h inner fun node hnode => hN _ (by
      rw [nodes] at hnode
      simp [ofElements, ofElement, walk, walkAll, hnode])
    rcases List.mem_cons.mp he with heq | he
    · obtain rfl := PatternElement.placeable.inj heq
      exact hinner
    · exact of_elements h rest (fun node hnode => hN _ (by
        simp [ofElements, walkAll, hnode])) e he

end

/-- A property that ascends holds of a pattern if all nodes below it have theirs. -/
theorem of_pattern (h : Ascends N E P) (p : Pattern)
    (hN : ∀ node ∈ (ofPattern p).nodes, N node) : P p := by
  refine h.pattern p (hN _ ?_) (of_elements h p fun node hnode => hN _ ?_)
  · simp [ofPattern, nodes, walk]
  · simp [ofPattern, nodes, walk, hnode]

end Ascends

end Phrasebook
