import Phrasebook.Proofs.Outline
import Phrasebook.Proofs.RoundTrip.ReadBack.Entry

/-!
# Headings

A heading tells what a unit and its attributes are called, and under which keys the select
expressions in it choose. Where a unit is read back from what was printed of it, its patterns may
have lost indentation and blanks, but its heading is the same.
-/

namespace Phrasebook

/-- The keys of a select expression, in order. -/
def Node.selectKeys? : Node → Option (List VariantKey)
  | .select _ variants => some (variants.map (·.key))
  | _ => none

/-- The keys of each select expression in an outline, in order. -/
def Outline.selectKeys (o : Outline) : List (List VariantKey) := o.nodes.filterMap Node.selectKeys?

/-- The names of a unit and of its attributes, and the keys of the select expressions in it. -/
structure Heading where
  isTerm : Bool
  id : String
  attributes : List String
  selectKeys : List (List VariantKey)
  deriving DecidableEq

/-- The heading of a message or term. -/
def Entry.heading? (e : Entry) : Option Heading :=
  match e with
  | .message m => some ⟨false, m.id, m.attributes.map (·.id), (Outline.ofEntry e).selectKeys⟩
  | .term t => some ⟨true, t.id, t.attributes.map (·.id), (Outline.ofEntry e).selectKeys⟩
  | _ => none

/-- The headings of the messages and terms, in order. -/
def Resource.headings (r : Resource) : List Heading := r.entries.filterMap Entry.heading?

/-! ## The placeables of a pattern -/

/-- The expression of a placeable. -/
def PatternElement.expression? : PatternElement → Option Expression
  | .text _ => none
  | .placeable e => some e

/-- The expression of a segment that is a placeable. -/
def Segment.expression? : Segment → Option Expression
  | text .. => none
  | placeable _ e => some e

/-- A segment of text holds no expression. -/
theorem Segment.expression?_of_isText {s : Segment} (h : s.isText) : s.expression? = none := by
  cases s with
  | text indent content newline => rfl
  | placeable atMargin e => cases h

namespace Pattern

open Segment

/-- The expressions of the placeables of a pattern, in order. -/
def placeables (p : Pattern) : List Expression := p.filterMap PatternElement.expression?

/-- Text in front adds nothing to the placeables of a pattern. -/
@[simp] theorem placeables_cons_text (value : String) (p : Pattern) :
    placeables (.text value :: p) = placeables p := rfl

/-- A placeable in front comes first among the placeables of a pattern. -/
@[simp] theorem placeables_cons_placeable (e : Expression) (p : Pattern) :
    placeables (.placeable e :: p) = e :: placeables p := rfl

private theorem placeables_join (elements : List PatternElement) :
    placeables (join elements) = placeables elements := by
  induction elements with
  | nil => rfl
  | cons element rest ih =>
    cases element with
    | placeable e => exact congrArg (e :: ·) ih
    | text value =>
      rw [join_cons, placeables_cons_text, ← ih]
      rcases join rest with _ | ⟨next | e, p⟩
      · by_cases hempty : value.isEmpty <;> simp [cons, hempty]
      · rfl
      · by_cases hempty : value.isEmpty <;> simp [cons, hempty]

private theorem placeables_trimEnd (p : Pattern) : placeables (trimEnd p) = placeables p := by
  fun_induction trimEnd p with
  | case1 => rfl
  | case2 value => rfl
  | case3 element rest _ ih =>
    cases element with
    | text value => exact ih
    | placeable e => exact congrArg (e :: ·) ih

private theorem placeables_map_element (common : Option Nat) (segments : List Segment) :
    placeables (segments.map (element common)) = segments.filterMap Segment.expression? := by
  rw [placeables, List.filterMap_map]
  exact List.filterMap_congr fun s _ => by cases s <;> rfl

/-- Text may be left out of the segments that a pattern is made of. -/
private theorem filterMap_append_text (front : List Segment) {back : List Segment}
    (h : ∀ s ∈ back, s.isText) :
    (front ++ back).filterMap Segment.expression? = front.filterMap Segment.expression? := by
  rw [List.filterMap_append,
    List.filterMap_eq_nil_iff.mpr fun s hs => expression?_of_isText (h s hs), List.append_nil]

private theorem isText_of_isBlank {s : Segment} (h : s.isBlank) : s.isText := by
  cases s with
  | text indent content newline => rfl
  | placeable atMargin e => cases h

/-- The placeables of a pattern are those of the segments that it is made of. -/
theorem placeables_ofSegments? (segments : List Segment) :
    placeables ((ofSegments? segments).getD []) = segments.filterMap Segment.expression? := by
  obtain ⟨blank, hsplit, hblank, -⟩ := Text.dropEndWhile_spec Segment.isBlank segments
  have hkept := filterMap_append_text (Text.dropEndWhile Segment.isBlank segments)
    fun s hs => isText_of_isBlank (hblank s hs)
  rw [← hsplit] at hkept
  rw [ofSegments?, hkept]
  by_cases hnil : Text.dropEndWhile Segment.isBlank segments = []
  · simp [hnil, placeables]
  · simp [hnil, placeables_trimEnd, placeables_join, placeables_map_element]

private theorem filterMap_opened (startsLine : Bool) (segments : List Segment) :
    (opened startsLine segments).filterMap Segment.expression? =
      segments.filterMap Segment.expression? := by
  cases startsLine with
  | true =>
    rw [opened]
    induction segments with
    | nil => rfl
    | cons s rest ih =>
      by_cases hempty : s.isEmptyLine
      · have htext : s.expression? = none := by
          cases s with
          | text indent content newline => rfl
          | placeable atMargin e => cases hempty
        rw [List.dropWhile_cons_of_pos hempty, ih, List.filterMap_cons_none htext]
      · rw [List.dropWhile_cons_of_neg hempty]
  | false =>
    rcases segments with _ | ⟨⟨indent, content, newline⟩ | ⟨atMargin, e⟩, rest⟩
    · rfl
    · rw [opened]
      split <;> rfl
    · rfl

private theorem filterMap_readSegments (p : Pattern) :
    p.readSegments.filterMap Segment.expression? =
      p.writtenSegments.filterMap Segment.expression? := by
  rw [readSegments, List.filterMap_filter, ← filterMap_opened p.ownLines p.writtenSegments]
  refine List.filterMap_congr fun s _ => ?_
  cases s with
  | text indent content newline => exact ite_self none
  | placeable atMargin e => rfl

/-- No placeable is lost where a pattern loses indentation and blanks. -/
theorem placeables_dedent (p : Pattern) :
    placeables p.dedent = p.placeables.map Expression.dedent := by
  have hdedent (elements : List PatternElement) :
      placeables (elements.map PatternElement.dedent) =
        (placeables elements).map Expression.dedent := by
    rw [placeables, placeables, List.filterMap_map, List.map_filterMap]
    exact List.filterMap_congr fun element _ => by cases element <;> rfl
  rw [dedent, dedent?, unindent?, placeables_ofSegments?, filterMap_readSegments,
    ← placeables_map_element (some 0), ← placeables_join, join_writtenSegments, placeables_join,
    hdedent]

end Pattern

/-! ## Select keys -/

namespace Outline

/-- The keys of each select expression in several outlines, in order. -/
def allSelectKeys (outlines : List Outline) : List (List VariantKey) := outlines.flatMap selectKeys

/-- No outlines have no selections. -/
@[simp] theorem allSelectKeys_nil : allSelectKeys [] = [] := rfl

/-- The selections of outlines are those of the first, and then those of the others. -/
@[simp] theorem allSelectKeys_cons (o : Outline) (rest : List Outline) :
    allSelectKeys (o :: rest) = o.selectKeys ++ allSelectKeys rest := rfl

/-- The selections of outlines in two lists come one after the other. -/
@[simp] theorem allSelectKeys_append (front back : List Outline) :
    allSelectKeys (front ++ back) = allSelectKeys front ++ allSelectKeys back :=
  List.flatMap_append

/-- The selections of an outline are that of its node, if it is one, and then those inside. -/
@[simp] theorem selectKeys_mk (node : Node) (inside : List Outline) :
    (mk node inside).selectKeys = node.selectKeys?.toList ++ allSelectKeys inside := by
  have hall (outlines : List Outline) :
      (walkAll (fun _ => false) outlines).filterMap Node.selectKeys? = allSelectKeys outlines := by
    induction outlines with
    | nil => rfl
    | cons o rest ih =>
      rw [walkAll, List.filterMap_append, ih]
      rfl
  have hwalk : (mk node inside).nodes = node :: walkAll (fun _ => false) inside := rfl
  rw [selectKeys, hwalk, List.filterMap_cons, hall]
  cases node.selectKeys? <;> rfl

/-- The select expressions of a pattern stand in its placeables. -/
theorem allSelectKeys_ofElements (p : Pattern) :
    allSelectKeys (ofElements p) = p.placeables.flatMap fun e => (ofExpression e).selectKeys := by
  induction p with
  | nil => rfl
  | cons element rest ih =>
    rw [ofElements, allSelectKeys_cons, ih]
    cases element <;> simp [ofElement, leaf, Node.selectKeys?]

private theorem map_key_dedentAll (variants : List Variant) :
    (Variant.dedentAll variants).map (·.key) = variants.map (·.key) := by
  rw [Variant.dedentAll_eq_map, List.map_map]
  exact List.map_congr_left fun v _ => by rw [Function.comp_apply, Variant.dedent_eq]

private theorem allSelectKeys_dedent_of {p : Pattern}
    (h : (p.placeables.flatMap fun e => (ofExpression e.dedent).selectKeys) =
      p.placeables.flatMap fun e => (ofExpression e).selectKeys) :
    allSelectKeys (ofElements p.dedent) = allSelectKeys (ofElements p) := by
  rw [allSelectKeys_ofElements, Pattern.placeables_dedent, List.flatMap_map, h,
    ← allSelectKeys_ofElements]

mutual

/-- Dedenting keeps the keys of all selections in an expression. -/
theorem selectKeys_dedent : ∀ e : Expression,
    (ofExpression e.dedent).selectKeys = (ofExpression e).selectKeys
  | .string l => rfl
  | .number l => rfl
  | .variableRef name => rfl
  | .messageRef id attr => rfl
  | .termRef id attr none => rfl
  | .termRef id attr (some ⟨positional, named⟩) => by
    have hpositional := allSelectKeys_dedentAll positional
    simp only [Expression.dedent, CallArguments.dedent, ofExpression, ofArguments, selectKeys_mk,
      allSelectKeys_cons, allSelectKeys_append, Node.selectKeys?, hpositional]
  | .call name ⟨positional, named⟩ => by
    have hpositional := allSelectKeys_dedentAll positional
    simp only [Expression.dedent, CallArguments.dedent, ofExpression, ofArguments, selectKeys_mk,
      allSelectKeys_cons, allSelectKeys_append, Node.selectKeys?, hpositional]
  | .select selector variants => by
    have hselector := selectKeys_dedent selector
    have hvariants := allSelectKeys_variants variants
    simp only [Expression.dedent, ofExpression, selectKeys_mk, allSelectKeys_cons, Node.selectKeys?,
      map_key_dedentAll, hselector, hvariants]
  | .placeable inner => by
    have hinner := selectKeys_dedent inner
    simp only [Expression.dedent, ofExpression, selectKeys_mk, allSelectKeys_cons, Node.selectKeys?,
      hinner]

/-- Dedenting keeps the keys of all selections in a list of expressions. -/
theorem allSelectKeys_dedentAll : ∀ expressions : List Expression,
    allSelectKeys (ofExpressions (Expression.dedentAll expressions)) =
      allSelectKeys (ofExpressions expressions)
  | [] => rfl
  | e :: rest => by
    rw [Expression.dedentAll, ofExpressions, ofExpressions, allSelectKeys_cons, allSelectKeys_cons,
      selectKeys_dedent e, allSelectKeys_dedentAll rest]

/-- Dedenting keeps the keys of all selections in variants. -/
theorem allSelectKeys_variants : ∀ variants : List Variant,
    allSelectKeys (ofVariants (Variant.dedentAll variants)) = allSelectKeys (ofVariants variants)
  | [] => rfl
  | ⟨key, value, isDefault⟩ :: rest => by
    have hvalue := allSelectKeys_dedent_of (flatMap_selectKeys_dedent value)
    rw [Variant.dedentAll, ofVariants, ofVariants, allSelectKeys_cons, allSelectKeys_cons,
      allSelectKeys_variants rest, Variant.dedent_eq]
    simp only [ofVariant, selectKeys_mk, allSelectKeys_cons, Node.selectKeys?, hvalue]

/-- Dedenting the expressions of a pattern keeps the keys of all selections in them. -/
theorem flatMap_selectKeys_dedent : ∀ p : Pattern,
    (p.placeables.flatMap fun e => (ofExpression e.dedent).selectKeys) =
      p.placeables.flatMap fun e => (ofExpression e).selectKeys
  | [] => rfl
  | .text _ :: rest => flatMap_selectKeys_dedent rest
  | .placeable e :: rest => by
    rw [Pattern.placeables_cons_placeable, List.flatMap_cons, List.flatMap_cons,
      selectKeys_dedent e, flatMap_selectKeys_dedent rest]

end

/-- The select expressions of a pattern keep their keys. -/
theorem selectKeys_ofPattern_dedent (p : Pattern) :
    (ofPattern p.dedent).selectKeys = (ofPattern p).selectKeys := by
  rw [ofPattern, ofPattern, selectKeys_mk, selectKeys_mk,
    allSelectKeys_dedent_of (flatMap_selectKeys_dedent p)]
  rfl

/-! ## Entries -/

private theorem allSelectKeys_attributes (attributes : List Attribute) :
    allSelectKeys ((attributes.map Attribute.dedent).map ofAttribute) =
      allSelectKeys (attributes.map ofAttribute) := by
  induction attributes with
  | nil => rfl
  | cons a rest ih =>
    have ha : (ofAttribute a.dedent).selectKeys = (ofAttribute a).selectKeys := by
      simp only [ofAttribute, Attribute.dedent, selectKeys_mk, allSelectKeys_cons, Node.selectKeys?,
        selectKeys_ofPattern_dedent]
    rw [List.map_cons, List.map_cons, List.map_cons, allSelectKeys_cons, allSelectKeys_cons, ha, ih]

private theorem allSelectKeys_value (value : Option Pattern) :
    allSelectKeys ((value.bind Pattern.dedent?).toList.map ofPattern) =
      allSelectKeys (value.toList.map ofPattern) := by
  cases value with
  | none => rfl
  | some p =>
    have hp := selectKeys_ofPattern_dedent p
    rw [Pattern.dedent] at hp
    rw [Option.bind_some]
    cases hdedent : p.dedent? with
    | none =>
      rw [hdedent, Option.getD_none] at hp
      simp only [Option.toList_none, Option.toList_some, List.map_nil, List.map_cons,
        allSelectKeys_cons, ← hp]
      rfl
    | some q =>
      rw [hdedent, Option.getD_some] at hp
      simp [hp]

/-- The select expressions of a unit stand in its value and its attributes. -/
theorem allSelectKeys_ofParts (id : String) (value : Option Pattern) (attributes : List Attribute)
    (comment : Option Comment) :
    allSelectKeys (ofParts id value attributes comment) =
      allSelectKeys (value.toList.map ofPattern) ++ allSelectKeys (attributes.map ofAttribute) := by
  cases comment <;> simp [ofParts, Outline.name, leaf, Node.selectKeys?]

end Outline

namespace Entry

open Outline

/-- What is read back of an entry has its heading. -/
theorem heading?_dedent (e : Entry) : e.dedent.heading? = e.heading? := by
  have hids (attributes : List Attribute) :
      (attributes.map Attribute.dedent).map (·.id) = attributes.map (·.id) := by
    rw [List.map_map]
    rfl
  cases e with
  | message m =>
    simp only [Entry.dedent, heading?, ofEntry, selectKeys_mk, allSelectKeys_cons,
      allSelectKeys_ofParts, allSelectKeys_value, allSelectKeys_attributes, hids, Node.selectKeys?]
  | term t =>
    simp only [Entry.dedent, heading?, ofEntry, selectKeys_mk, allSelectKeys_cons,
      allSelectKeys_ofParts, allSelectKeys_attributes, hids, Node.selectKeys?, Option.toList_some,
      List.map_cons, selectKeys_ofPattern_dedent]
  | comment c => rfl
  | junk j => rfl

/-- What is not written of an entry is not in its heading. -/
theorem heading?_plain (e : Entry) : e.plain.heading? = e.heading? := by
  cases e with
  | message m =>
    simp only [Entry.plain, heading?, ofEntry, selectKeys_mk, allSelectKeys_cons,
      allSelectKeys_ofParts, Node.selectKeys?]
  | term t =>
    simp only [Entry.plain, heading?, ofEntry, selectKeys_mk, allSelectKeys_cons,
      allSelectKeys_ofParts, Node.selectKeys?]
  | comment c => rfl
  | junk j => rfl

end Entry

end Phrasebook
