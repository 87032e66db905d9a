import Mathlib.Data.List.Basic
import Phrasebook.Syntax.Outline

/-!
# Outlines as lists

The outlines of several parts are a map of the outline of one, and a walk through several outlines
comes to what the walk through one of them comes to. A walk that leaves something out comes to less.
-/

namespace Phrasebook.Outline

variable {node : Node} {stop : Node → Bool} {outlines : List Outline}

/-- The outlines of expressions are made one by one. -/
theorem ofExpressions_eq_map (expressions : List Expression) :
    ofExpressions expressions = expressions.map ofExpression := by
  induction expressions with
  | nil => rfl
  | cons e rest ih => rw [ofExpressions, ih, List.map_cons]

/-- The outlines of variants are made one by one. -/
theorem ofVariants_eq_map (variants : List Variant) :
    ofVariants variants = variants.map ofVariant := by
  induction variants with
  | nil => rfl
  | cons v rest ih => rw [ofVariants, ih, List.map_cons]

/-- The outlines of pattern elements are made one by one. -/
theorem ofElements_eq_map (p : Pattern) : ofElements p = p.map ofElement := by
  induction p with
  | nil => rfl
  | cons element rest ih => rw [ofElements, ih, List.map_cons]

section Parts

variable {id : String} {value : Option Pattern} {attributes : List Attribute}
  {comment : Option Comment}

/-- The value of an entry is one of its parts. -/
theorem ofPattern_mem_ofParts {p : Pattern} (h : p ∈ value) :
    ofPattern p ∈ ofParts id value attributes comment := by
  simp [ofParts, Option.mem_def.mp h]

/-- Each attribute of an entry is one of its parts. -/
theorem ofAttribute_mem_ofParts {a : Attribute} (h : a ∈ attributes) :
    ofAttribute a ∈ ofParts id value attributes comment := by
  simp only [ofParts, List.cons_append, List.mem_cons, List.mem_append]
  exact .inr (.inl (.inr (List.mem_map_of_mem h)))

end Parts

/-- Walking over two lists of outlines meets the nodes of the one and then those of the other. -/
theorem walkAll_append (front back : List Outline) :
    walkAll stop (front ++ back) = walkAll stop front ++ walkAll stop back := by
  induction front with
  | nil => rfl
  | cons o rest ih => rw [List.cons_append, walkAll, walkAll, ih, List.append_assoc]

/-- A walk over a list of outlines meets what a walk over one of them meets. -/
theorem mem_walkAll : node ∈ walkAll stop outlines ↔ ∃ o ∈ outlines, node ∈ o.walk stop := by
  induction outlines with
  | nil => simp [walkAll]
  | cons o rest ih => simp [walkAll, ih]

/-- What holds of all nodes holds of the one at the top and of those inside it. -/
theorem forall_nodes_mk {N : Node → Prop} {inside : List Outline} :
    (∀ n ∈ (mk node inside).nodes, N n) ↔ N node ∧ ∀ o ∈ inside, ∀ n ∈ o.nodes, N n := by
  have hwalk : (mk node inside).nodes = node :: walkAll (fun _ => false) inside := rfl
  rw [hwalk, List.forall_mem_cons]
  refine and_congr_right fun _ => ?_
  simp only [mem_walkAll, nodes]
  exact ⟨fun h o ho n hn => h n ⟨o, ho, hn⟩, fun h n ⟨o, ho, hn⟩ => h o ho n hn⟩

/-- What holds of all nodes holds of those inside the one node that a node holds. -/
theorem forall_nodes_inner {N : Node → Prop} {outer : Node} {inside : List Outline}
    (h : ∀ n ∈ (mk outer [mk node inside]).nodes, N n) : ∀ o ∈ inside, ∀ n ∈ o.nodes, N n :=
  (forall_nodes_mk.mp ((forall_nodes_mk.mp h).2 _ List.mem_cons_self)).2

mutual

/-- A walk that leaves something out comes to no other nodes than a walk that does not. -/
theorem mem_nodes_of_mem_walk : ∀ {o : Outline}, node ∈ o.walk stop → node ∈ o.nodes
  | mk top inside, h => by
    rw [nodes, walk]
    rw [walk] at h
    rcases List.mem_cons.mp h with rfl | h
    · exact List.mem_cons_self
    · refine List.mem_cons_of_mem _ ?_
      rw [if_neg (by decide)]
      by_cases hstop : stop top
      · simp [hstop] at h
      · exact mem_walkAll_nodes (by simpa [hstop] using h)

/-- A walk that stops early meets none but the nodes of the outlines. -/
theorem mem_walkAll_nodes : ∀ {outlines : List Outline}, node ∈ walkAll stop outlines →
    node ∈ walkAll (fun _ => false) outlines
  | [], h => h
  | o :: rest, h => by
    rw [walkAll, List.mem_append] at h ⊢
    exact h.imp mem_nodes_of_mem_walk mem_walkAll_nodes

end

end Phrasebook.Outline
