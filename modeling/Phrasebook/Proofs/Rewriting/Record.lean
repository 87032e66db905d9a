import Phrasebook.Proofs.StaticRules.Tree
import Phrasebook.Syntax.Rewrite

/-!
# Rewriting and walking meet the same nodes

A rewriter that keeps every node and notes it down notes the nodes of the tree from the inside out,
each of them once. A walk lists the same nodes, a node before those inside it. Nothing is lost of a
tree that was read, since none of its patterns is empty.
-/

namespace Phrasebook

open Outline

/-- The nodes that are given to a rewriter. -/
def Node.isRewritten : Node → Bool
  | .entry _ | .message _ | .term _ | .comment _ | .junk _ | .attr _ | .pattern _ | .element _
  | .expression _ | .variant _ => true
  | _ => false

/-! ## From the inside out -/

namespace Outline

mutual

/-- All nodes, each after those inside it. -/
def upward : Outline → List Node
  | mk node inside => upwardAll inside ++ [node]

/-- The nodes of several outlines, one outline after the other. -/
def upwardAll : List Outline → List Node
  | [] => []
  | outline :: rest => upward outline ++ upwardAll rest

end

mutual

/-- Upward, a tree has the nodes that it has downward. -/
theorem upward_perm_nodes : ∀ o : Outline, o.upward.Perm o.nodes
  | mk node inside => by
    rw [upward, nodes, walk, if_neg Bool.false_ne_true]
    exact (List.perm_append_singleton _ _).trans ((upwardAll_perm_walkAll inside).cons node)

/-- Upward, trees have the nodes that they have downward. -/
theorem upwardAll_perm_walkAll :
    ∀ outlines : List Outline, (upwardAll outlines).Perm (walkAll (fun _ => false) outlines)
  | [] => .nil
  | o :: rest => (upward_perm_nodes o).append (upwardAll_perm_walkAll rest)

end

/-- The nodes of an outline that are given to a rewriter, from the inside out. -/
def rewritten (o : Outline) : List Node := o.upward.filter Node.isRewritten

/-- Those of several outlines. -/
def rewrittenAll (outlines : List Outline) : List Node := outlines.flatMap rewritten

variable {node : Node} {inside : List Outline}

/-- The nodes that are rewritten are those of the trees one by one. -/
theorem filter_upwardAll (outlines : List Outline) :
    (upwardAll outlines).filter Node.isRewritten = rewrittenAll outlines := by
  induction outlines with
  | nil => rfl
  | cons o rest ih => simp only [upwardAll, List.filter_append, ih, rewrittenAll, rewritten,
      List.flatMap_cons]

/-- A root is rewritten after what is inside. -/
theorem rewritten_mk :
    (mk node inside).rewritten = rewrittenAll inside ++ [node].filter Node.isRewritten := by
  rw [rewritten, upward, List.filter_append, filter_upwardAll]

/-- A root of a kind that is rewritten is noted after what is inside. -/
theorem rewritten_note (h : node.isRewritten) :
    (mk node inside).rewritten = rewrittenAll inside ++ [node] := by
  rw [rewritten_mk, List.filter_singleton, h, cond_true]

/-- A node that is not given to a rewriter leaves what is inside. -/
theorem rewritten_skip (h : node.isRewritten = false) :
    (mk node inside).rewritten = rewrittenAll inside := by
  rw [rewritten_mk, List.filter_singleton, h, cond_false, List.append_nil]

/-- No outlines hold no rewritten nodes. -/
@[simp] theorem rewrittenAll_nil : rewrittenAll [] = [] := rfl

/-- The nodes of the first tree are rewritten before those of the others. -/
@[simp] theorem rewrittenAll_cons (o : Outline) (rest : List Outline) :
    rewrittenAll (o :: rest) = o.rewritten ++ rewrittenAll rest := rfl

/-- The nodes of trees are rewritten in the order of the trees. -/
@[simp] theorem rewrittenAll_append (front back : List Outline) :
    rewrittenAll (front ++ back) = rewrittenAll front ++ rewrittenAll back :=
  List.flatMap_append

/-- Identifiers are not rewritten. -/
@[simp] theorem rewritten_name (id : String) : (name id).rewritten = [] := rfl

/-- An identifier that may be missing is not rewritten. -/
@[simp] theorem rewrittenAll_names (id : Option String) : rewrittenAll (names id) = [] := by
  cases id <;> rfl

/-- Keys are not rewritten. -/
@[simp] theorem rewritten_ofKey (key : VariantKey) : (ofKey key).rewritten = [] := by
  cases key <;> rfl

/-- Named arguments are not given to a rewriter. -/
@[simp] theorem rewrittenAll_named (named : List NamedArgument) :
    rewrittenAll (named.map ofNamed) = [] := by
  induction named with
  | nil => rfl
  | cons a rest ih =>
    obtain ⟨name, value⟩ := a
    rw [List.map_cons, rewrittenAll_cons, ih]
    cases value <;> rfl

/-- The positional arguments of a call are given to a rewriter, and the named ones are not. -/
@[simp] theorem rewritten_ofArguments (positional : List Expression) (named : List NamedArgument) :
    (ofArguments ⟨positional, named⟩).rewritten = rewrittenAll (ofExpressions positional) := by
  rw [ofArguments, rewritten_skip rfl, rewrittenAll_append, rewrittenAll_named, List.append_nil]

/-- What is so of the nodes of arguments is so of those of the positional ones. -/
theorem forall_nodes_positional {N : Node → Prop} {positional : List Expression}
    {named : List NamedArgument} (h : ∀ n ∈ (ofArguments ⟨positional, named⟩).nodes, N n) :
    ∀ o ∈ ofExpressions positional, ∀ n ∈ o.nodes, N n := by
  rw [ofArguments] at h
  exact (List.forall_mem_append.mp (forall_nodes_mk.mp h).2).1

/-- A pattern is rewritten after its elements. -/
@[simp] theorem rewritten_ofPattern (p : Pattern) :
    (ofPattern p).rewritten = rewrittenAll (ofElements p) ++ [.pattern p] :=
  rewritten_note rfl

/-- A variant is rewritten after its value. -/
@[simp] theorem rewritten_ofVariant (v : Variant) :
    (ofVariant v).rewritten =
      rewrittenAll (ofElements v.value) ++ [.pattern v.value, .variant v] := by
  obtain ⟨key, value, isDefault⟩ := v
  have hvalue := rewritten_ofPattern value
  rw [ofPattern] at hvalue
  rw [ofVariant, rewritten_note rfl]
  simp [hvalue]

/-- A node that holds a node which is not given to a rewriter. -/
theorem rewritten_inner {outer : Node} (houter : outer.isRewritten)
    (hnode : node.isRewritten = false) :
    (mk outer [mk node inside]).rewritten = rewrittenAll inside ++ [outer] := by
  rw [rewritten_note houter, rewrittenAll_cons, rewrittenAll_nil, rewritten_skip hnode,
    List.append_nil]

end Outline

/-! ## Noting nodes down -/

namespace Rewriter

/-- Notes a node down and gives it back. -/
def note {α : Type} (node : Node) (kept : α) : StateM (List Node) α := do
  modify (· ++ [node])
  return kept

/-- The rewriter that keeps every node and notes it down. -/
def record : Rewriter (StateM (List Node)) where
  entry e := note (.entry e) (some e)
  message m := note (.message m) (some m)
  term t := note (.term t) (some t)
  comment c := note (.comment c) (some c)
  junk j := note (.junk j) (some j)
  attr a := note (.attr a) (some a)
  pattern p := note (.pattern p) p
  element e := note (.element e) (some e)
  expression e := note (.expression e) e
  variant v := note (.variant v) (some v)

variable {α β : Type} {x : StateM (List Node) α} {a : α} {b : β} {nodes more : List Node}

/-- A run comes to a result and notes nodes down, behind those noted before. -/
def Notes (x : StateM (List Node) α) (a : α) (nodes : List Node) : Prop :=
  ∀ seen, x seen = (a, seen ++ nodes)

namespace Notes

/-- A value that is returned notes nothing. -/
theorem pure : Notes (Pure.pure a) a [] := fun seen => by
  rw [List.append_nil]
  rfl

/-- A node that is noted is kept. -/
theorem note {node : Node} : Notes (note node a) a [node] := fun _ => rfl

/-- What is noted by one rewriting is noted before that of the next. -/
theorem bind {f : α → StateM (List Node) β} (hx : Notes x a nodes) (hf : Notes (f a) b more) :
    Notes (x >>= f) b (nodes ++ more) := fun seen => by
  change f (x seen).1 (x seen).2 = _
  rw [hx seen, hf, List.append_assoc]

/-- A node is noted down before steps that note none. -/
theorem note_bind {node : Node} {f : α → StateM (List Node) β} (h : Notes (f a) b []) :
    Notes (Rewriter.note node a >>= f) b [node] :=
  bind note h

/-- The last step of a run. -/
theorem map {f : α → β} (hx : Notes x a nodes) : Notes (f <$> x) (f a) nodes := fun seen => by
  change (f (x seen).1, (x seen).2) = _
  rw [hx seen]

/-- What is kept is not given up afterwards. -/
theorem kept {node : Node} {keep : α → Bool} (h : keep a) :
    Notes (Rewriter.note node (some a) >>= fun replaced => Pure.pure (replaced.filter keep))
      (some a) [node] := by
  have hfilter : (some a).filter keep = some a := by rw [Option.filter_some, if_pos h]
  exact note_bind (hfilter.symm ▸ pure)

/-- All members of a list are kept. -/
theorem filterMapM {f : α → StateM (List Node) (Option α)} {g : α → List Node} {list : List α}
    (h : ∀ a ∈ list, Notes (f a) (some a) (g a)) :
    Notes (list.filterMapM f) list (list.flatMap g) := by
  induction list with
  | nil =>
    rw [List.filterMapM_nil]
    exact pure
  | cons a rest ih =>
    rw [List.filterMapM_cons, List.flatMap_cons]
    exact (h a List.mem_cons_self).bind ((ih fun b hb => h b (List.mem_cons_of_mem _ hb)).map)

end Notes

/-! ## Trees that were read -/

/-- A variant with a value is noted and kept. -/
theorem notes_finishVariant {v : Variant} (h : v.value ≠ []) :
    Notes (record.finishVariant v) (some v) [.variant v] := by
  obtain ⟨key, value, isDefault⟩ := v
  have hvalue : value.isEmpty = false := by simpa using h
  refine Notes.note_bind ?_
  cases isDefault with
  | true => exact Notes.pure
  | false =>
    have hkept : (some (⟨key, value, false⟩ : Variant)).filter (fun v => !v.value.isEmpty) =
        some ⟨key, value, false⟩ := by simp [Option.filter, hvalue]
    simp only [Bool.false_eq_true, if_false, hkept]
    exact Notes.pure

mutual

/-- An expression is kept, and its nodes are noted, by induction on it. -/
theorem notes_expression : ∀ e : Expression, (∀ n ∈ (ofExpression e).nodes, n.Lawful) →
    Notes (record.rewriteExpression e) e (ofExpression e).rewritten
  | .string l, _ => Notes.note
  | .number l, _ => Notes.note
  | .variableRef name, _ => Notes.note
  | .messageRef id attr, _ => by
    rw [ofExpression, rewritten_inner rfl rfl, rewrittenAll_cons, rewrittenAll_names]
    exact Notes.note
  | .termRef id attr none, _ => by
    rw [ofExpression, rewritten_inner rfl rfl, rewrittenAll_cons, rewrittenAll_names]
    exact Notes.note
  | .termRef id attr (some ⟨positional, named⟩), h => by
    rw [ofExpression] at h ⊢
    have harguments : ∀ n ∈ (ofArguments ⟨positional, named⟩).nodes, n.Lawful :=
      forall_nodes_inner h _ (by simp)
    have hpositional := notes_expressions positional (forall_nodes_positional harguments)
    have hrun :
        Notes (record.rewriteExpression (.termRef id attr (some ⟨positional, named⟩))) _ _ :=
      hpositional.bind Notes.note
    rw [rewritten_inner rfl rfl]
    simpa using hrun
  | .call name ⟨positional, named⟩, h => by
    rw [ofExpression] at h ⊢
    have harguments : ∀ n ∈ (ofArguments ⟨positional, named⟩).nodes, n.Lawful :=
      forall_nodes_inner h _ (by simp)
    have hpositional := notes_expressions positional (forall_nodes_positional harguments)
    have hrun : Notes (record.rewriteExpression (.call name ⟨positional, named⟩)) _ _ :=
      hpositional.bind Notes.note
    rw [rewritten_inner rfl rfl]
    simpa using hrun
  | .select selector variants, h => by
    rw [ofExpression] at h ⊢
    obtain ⟨hselector, hvariants⟩ := List.forall_mem_cons.mp (forall_nodes_inner h)
    rw [rewritten_inner rfl rfl, rewrittenAll_cons, List.append_assoc]
    exact (notes_expression selector hselector).bind
      ((notes_variants variants hvariants).bind Notes.note)
  | .placeable inner, h => by
    rw [ofExpression] at h ⊢
    have hinner := notes_expression inner (forall_nodes_inner h _ List.mem_cons_self)
    have hrun : Notes (record.rewriteExpression (.placeable inner)) _ _ := hinner.bind Notes.note
    rw [rewritten_inner rfl rfl]
    simpa using hrun

/-- Arguments are kept, and their nodes are noted in order. -/
theorem notes_expressions : ∀ expressions : List Expression,
    (∀ o ∈ ofExpressions expressions, ∀ n ∈ o.nodes, n.Lawful) →
      Notes (record.rewriteExpressions expressions) expressions
        (rewrittenAll (ofExpressions expressions))
  | [], _ => Notes.pure
  | e :: rest, h => by
    obtain ⟨hfirst, hrest⟩ := List.forall_mem_cons.mp h
    exact (notes_expression e hfirst).bind (notes_expressions rest hrest).map

/-- Variants are kept, and their nodes are noted in order. -/
theorem notes_variants : ∀ variants : List Variant,
    (∀ o ∈ ofVariants variants, ∀ n ∈ o.nodes, n.Lawful) →
      Notes (record.rewriteVariants variants) variants (rewrittenAll (ofVariants variants))
  | [], _ => Notes.pure
  | ⟨key, value, isDefault⟩ :: rest, h => by
    obtain ⟨hvariant, hrest⟩ := List.forall_mem_cons.mp h
    rw [ofVariant] at hvariant
    have hpattern : ∀ n ∈ (ofPattern value).nodes, n.Lawful :=
      (forall_nodes_mk.mp hvariant).2 _ (by simp [ofPattern])
    obtain ⟨hregular, helements⟩ := forall_nodes_mk.mp hpattern
    have hvalue : value ≠ [] := Pattern.Regular.ne_nil hregular
    have hrun : Notes (record.rewriteVariants (⟨key, value, isDefault⟩ :: rest)) _ _ :=
      (notes_elements value helements).bind <| Notes.note.bind <|
        (notes_finishVariant hvalue).bind (notes_variants rest hrest).map
    simpa [ofVariants] using hrun

/-- The elements of a pattern are kept, and their nodes are noted in order. -/
theorem notes_elements : ∀ p : Pattern, (∀ o ∈ ofElements p, ∀ n ∈ o.nodes, n.Lawful) →
    Notes (record.rewriteElements p) p (rewrittenAll (ofElements p))
  | [], _ => Notes.pure
  | .text value :: rest, h => by
    obtain ⟨-, hrest⟩ := List.forall_mem_cons.mp h
    exact Notes.note.bind (notes_elements rest hrest).map
  | .placeable inner :: rest, h => by
    obtain ⟨helement, hrest⟩ := List.forall_mem_cons.mp h
    rw [ofElement] at helement
    have hinner := notes_expression inner (forall_nodes_inner helement _ List.mem_cons_self)
    have hrun : Notes (record.rewriteElements (.placeable inner :: rest)) _ _ :=
      hinner.bind <| Notes.note.bind (notes_elements rest hrest).map
    rw [ofElements, rewrittenAll_cons, ofElement, rewritten_inner rfl rfl]
    simpa using hrun

end

/-- A pattern is kept and noted after its elements. -/
theorem notes_pattern {p : Pattern} (h : ∀ n ∈ (ofPattern p).nodes, n.Lawful) :
    Notes (record.rewritePattern p) p (ofPattern p).rewritten := by
  rw [rewritten_ofPattern]
  exact (notes_elements p (forall_nodes_mk.mp h).2).bind Notes.note

/-- No pattern that was read is empty. -/
theorem ne_nil_of_lawful {p : Pattern} (h : ∀ n ∈ (ofPattern p).nodes, n.Lawful) : p ≠ [] :=
  Pattern.Regular.ne_nil (forall_nodes_mk.mp h).1

section Parts

variable {id : String} {value : Option Pattern} {attributes : List Attribute}
  {comment : Option Comment}

/-- An attribute is kept and noted after its value. -/
theorem notes_attribute {a : Attribute} (h : ∀ n ∈ (ofAttribute a).nodes, n.Lawful) :
    Notes (record.rewriteAttribute a) (some a) (ofAttribute a).rewritten := by
  have hpattern : ∀ n ∈ (ofPattern a.value).nodes, n.Lawful :=
    (forall_nodes_mk.mp h).2 _ (by simp)
  have hrun : Notes (record.rewriteAttribute a) _ _ :=
    (notes_pattern hpattern).bind (Notes.kept (by simpa using ne_nil_of_lawful hpattern))
  rw [ofAttribute, rewritten_note rfl]
  simpa using hrun

/-- A value is kept and noted. -/
theorem notes_value (h : ∀ p ∈ value, ∀ n ∈ (ofPattern p).nodes, n.Lawful) :
    Notes (record.rewriteValue value) value (rewrittenAll (value.toList.map ofPattern)) := by
  cases value with
  | none => exact Notes.pure
  | some p =>
    have hp := h p rfl
    have hkept : (some p).filter (fun p => !p.isEmpty) = some p := by
      simpa [Option.filter] using ne_nil_of_lawful hp
    have hrun : Notes (record.rewriteValue (some p)) _ _ :=
      (notes_pattern hp).bind Notes.pure
    rw [hkept] at hrun
    simpa using hrun

/-- A comment is kept and noted. -/
theorem notes_comment :
    Notes (record.rewriteComment comment) comment
      (rewrittenAll (comment.toList.map fun c => leaf (.comment c))) := by
  cases comment with
  | none => exact Notes.pure
  | some c => exact Notes.note

/-- Attributes are kept and noted in order. -/
theorem notes_attributes (h : ∀ a ∈ attributes, ∀ n ∈ (ofAttribute a).nodes, n.Lawful) :
    Notes (record.rewriteAttributes attributes) attributes
      (rewrittenAll (attributes.map ofAttribute)) := by
  rw [rewrittenAll, List.flatMap_map]
  exact Notes.filterMapM fun a ha => notes_attribute (h a ha)

/-- The value, the attributes and the comment of a message or term. -/
theorem rewrittenAll_ofParts :
    rewrittenAll (ofParts id value attributes comment) =
      rewrittenAll (value.toList.map ofPattern) ++ (rewrittenAll (attributes.map ofAttribute) ++
        rewrittenAll (comment.toList.map fun c => leaf (.comment c))) := by
  rw [ofParts, List.append_assoc, List.cons_append, rewrittenAll_cons, rewrittenAll_append,
    rewrittenAll_append, rewritten_name, List.nil_append]

end Parts

/-- A message is kept and noted after its parts. -/
theorem notes_message {m : Message} (hpresent : m.value.isSome ∨ m.attributes ≠ [])
    (h : ∀ o ∈ ofParts m.id m.value m.attributes m.comment, ∀ n ∈ o.nodes, n.Lawful) :
    Notes (record.rewriteMessage m) (some m)
      (rewrittenAll (ofParts m.id m.value m.attributes m.comment) ++ [.message m]) := by
  have hvalue := notes_value fun p hp => h _ (ofPattern_mem_ofParts hp)
  have hattributes := notes_attributes fun a ha => h _ (ofAttribute_mem_ofParts ha)
  have hrun : Notes (record.rewriteMessage m) _ _ :=
    hvalue.bind <| hattributes.bind <| notes_comment.bind <|
      Notes.kept (a := m) (by simpa using hpresent)
  rw [rewrittenAll_ofParts]
  simpa using hrun

/-- A term is kept and noted after its parts. -/
theorem notes_term {t : Term}
    (h : ∀ o ∈ ofParts t.id (some t.value) t.attributes t.comment, ∀ n ∈ o.nodes, n.Lawful) :
    Notes (record.rewriteTerm t) (some t)
      (rewrittenAll (ofParts t.id (some t.value) t.attributes t.comment) ++ [.term t]) := by
  have hpattern := h _ (ofPattern_mem_ofParts rfl)
  have hattributes := notes_attributes fun a ha => h _ (ofAttribute_mem_ofParts ha)
  have hrun : Notes (record.rewriteTerm t) _ _ :=
    (notes_pattern hpattern).bind <| hattributes.bind <| notes_comment.bind <|
      Notes.kept (a := t) (by simpa using ne_nil_of_lawful hpattern)
  rw [rewrittenAll_ofParts]
  simpa using hrun

/-- An entry is kept, and its nodes are noted. -/
theorem notes_entry {e : Entry} (h : ∀ n ∈ (ofEntry e).nodes, n.Lawful) :
    Notes (record.rewriteEntry e) (some e) (ofEntry e).rewritten := by
  obtain ⟨-, hinside⟩ := forall_nodes_mk.mp h
  rw [ofEntry.eq_def, rewritten_note rfl]
  cases e with
  | message m =>
    obtain ⟨hpresent, hparts⟩ := forall_nodes_mk.mp (hinside _ List.mem_cons_self)
    have hrun : Notes (record.rewriteEntry (.message m)) _ _ :=
      (notes_message hpresent hparts).map.bind Notes.note
    rw [rewrittenAll_cons, rewritten_note rfl]
    simpa using hrun
  | term t =>
    obtain ⟨-, hparts⟩ := forall_nodes_mk.mp (hinside _ List.mem_cons_self)
    have hrun : Notes (record.rewriteEntry (.term t)) _ _ :=
      (notes_term hparts).map.bind Notes.note
    rw [rewrittenAll_cons, rewritten_note rfl]
    simpa using hrun
  | comment c => exact (Notes.note (a := some c)).map.bind Notes.note
  | junk j => exact (Notes.note (a := some j)).map.bind Notes.note

/-- Of a tree whose nodes are lawful nothing is lost, and its nodes are noted from the inside
out. -/
theorem notes_resource {r : Resource} (h : ∀ e ∈ r.entries, ∀ n ∈ (ofEntry e).nodes, n.Lawful) :
    Notes (record.rewrite r) r (ofResource r).rewritten := by
  rw [ofResource, rewritten_skip rfl, rewrittenAll, List.flatMap_map]
  exact (Notes.filterMapM fun e he => notes_entry (h e he)).map

/-- Of a tree that was read nothing is lost, and the nodes that are noted are those that a walk
lists. -/
theorem record_rewrite_parse (source : String) :
    let r := Resource.parse source
    let run := record.rewrite r []
    run.1 = r ∧ run.2.Perm ((ofResource r).nodes.filter Node.isRewritten) := by
  have hrun := notes_resource (fun e he => (parse_lawful source e he).1) []
  dsimp only
  rw [hrun]
  exact ⟨rfl, (upward_perm_nodes _).filter _⟩

end Rewriter

end Phrasebook
