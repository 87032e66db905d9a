import Phrasebook.Proofs.Outline
import Phrasebook.Proofs.Resolution.Run

/-!
# Resolutions in lockstep

Two resolvers that differ only in how they open frames take the same steps. A relation between
resolutions that holds of equal steps, passes along sequences, and holds of the two ways to follow
each reference, therefore holds of the two resolutions of every expression and pattern. Which
references are followed is read off the tree: those met on a walk that does not enter the arguments
of terms.
-/

namespace Phrasebook

namespace Resolver

open Resolution

/-- A relation between resolutions that holds of equal steps and passes along sequences. -/
structure Congruent (Rel : ∀ {α : Type}, Resolution α → Resolution α → Prop) : Prop where
  pure {α : Type} (a : α) : Rel (pure a) (pure a)
  bind {α β : Type} {m m' : Resolution α} {f f' : α → Resolution β} :
    Rel m m' → (∀ a, Rel (f a) (f' a)) → Rel (m >>= f) (m' >>= f')
  report {e : ResolutionError} : e.isLimit = false → Rel (report e) (report e)
  exhausted : Rel exhausted exhausted
  count : Rel count count

/-- A relation between the resolutions of two resolvers that differ in how they open frames: it also
holds of the two ways to follow a reference that `uses` allows. -/
structure Lockstep (r : Resolver) (o o' : Opening) (uses : Node → Prop)
    (Rel : ∀ {α : Type}, Resolution α → Resolution α → Prop) : Prop extends Congruent Rel where
  variableValue {name : String} :
    uses (.variableRef name) → Rel (variableValue name) (variableValue name)
  openMessage {id : String} {attr : Option String} :
    uses (.messageRef id attr) → Rel (r.openMessage o id attr) (r.openMessage o' id attr)
  openTerm {id : String} {attr : Option String} {arguments : Option CallArguments} :
    uses (.termRef id attr arguments) →
      ∀ scope, Rel (r.openTerm o id attr scope) (r.openTerm o' id attr scope)

variable {r : Resolver} {o o' : Opening} {uses : Node → Prop}
  {Rel : ∀ {α : Type}, Resolution α → Resolution α → Prop} {α β : Type}

/-- That a message has no pattern is not a matter of limits. -/
theorem isLimit_of_messagePattern {id : String} {attr : Option String} {e : ResolutionError}
    (h : r.messagePattern id attr = .error e) : e.isLimit = false := by
  rw [messagePattern] at h
  split at h
  · cases h
    rfl
  · split at h
    · split at h <;> cases h
      rfl
    · split at h <;> cases h
      rfl

/-- That a term has no pattern is not a matter of limits. -/
theorem isLimit_of_termPattern {id : String} {attr : Option String} {e : ResolutionError}
    (h : r.termPattern id attr = .error e) : e.isLimit = false := by
  rw [termPattern] at h
  split at h
  · cases h
    rfl
  · split at h
    · cases h
    · split at h <;> cases h
      rfl

/-- That a call fails is not a matter of limits. -/
theorem isLimit_of_applied {name : String} {positional : List Value} {named : Arguments}
    {e : ResolutionError} (h : r.applied name positional named = .error e) : e.isLimit = false := by
  rw [applied] at h
  split at h
  · cases h
    rfl
  · rename_i function _
    cases hcall : function positional named r.locale with
    | ok value =>
      rw [hcall] at h
      cases h
    | error cause =>
      rw [hcall] at h
      cases h
      rfl

namespace Congruent

/-- A congruent relation passes to what is made of the results. -/
theorem map (h : Congruent Rel) (f : α → β) {m m' : Resolution α} (hm : Rel m m') :
    Rel (return f (← m)) (return f (← m')) :=
  h.bind hm fun a => h.pure (f a)

/-- A congruent relation holds of a fallback, unless a limit was met. -/
theorem orFallback (h : Congruent Rel) (fallback : String) {result : Except ResolutionError α}
    (hlimit : ∀ e, result = .error e → e.isLimit = false) :
    Rel (orFallback fallback result) (orFallback fallback result) := by
  cases result with
  | ok a => exact h.pure _
  | error e => exact h.bind (h.report (hlimit e rfl)) fun _ => h.pure _

/-- A congruent relation holds of writing a result. -/
theorem writeResult (h : Congruent Rel) (result : Except String Value) :
    Rel (r.writeResult result) (r.writeResult result) := by
  cases result with
  | error fallback => exact h.pure _
  | ok value =>
    rw [Resolver.writeResult, writeValue]
    cases value.format r.locale with
    | some text => exact h.pure _
    | none => exact h.bind (h.report rfl) fun _ => h.pure _

/-- A congruent relation holds of a call. -/
theorem call (h : Congruent Rel) (name : String) (positional : Option (List Value))
    (named : Arguments) : Rel (r.call name positional named) (r.call name positional named) := by
  cases positional with
  | none => exact h.pure _
  | some positional =>
    rw [call_some]
    exact h.orFallback _ fun _ => isLimit_of_applied

/-- The two ways to follow a reference to a message are related if the two ways to open the frame
of that message are. -/
theorem openMessage (h : Congruent Rel) (o o' : Opening) {id : String} {attr : Option String}
    (hopen : ∀ p fallback, r.messagePattern id attr = .ok p →
      Rel (reaching fallback (o (.message id attr) p))
        (reaching fallback (o' (.message id attr) p))) :
    Rel (r.openMessage o id attr) (r.openMessage o' id attr) :=
  openMessage_rel rfl (fun p => hopen p _) fun _ hp =>
    h.bind (h.report (isLimit_of_messagePattern hp)) fun _ => h.pure _

/-- The two ways to follow a reference to a term are related if the two ways to open the frame of
that term, with its own variables in sight, are. -/
theorem openTerm (h : Congruent Rel) (o o' : Opening) {id : String} {attr : Option String}
    {scope : Arguments}
    (hopen : ∀ p fallback, r.termPattern id attr = .ok p →
      Rel (withScope scope (reaching fallback (o (.term id attr) p)))
        (withScope scope (reaching fallback (o' (.term id attr) p)))) :
    Rel (r.openTerm o id attr scope) (r.openTerm o' id attr scope) :=
  openTerm_rel rfl (fun p => hopen p _) fun _ hp =>
    h.bind (h.report (isLimit_of_termPattern hp)) fun _ => h.pure _

end Congruent

namespace Lockstep

open Outline in
mutual

/-- The two resolutions of an expression are related if the references met in it are allowed. -/
theorem expression (h : Lockstep r o o' uses Rel) : ∀ e : Expression,
    (∀ node ∈ (ofExpression e).walk isPlainReference, uses node) →
    Rel (r.expression o e) (r.expression o' e)
  | .string l, _ => by
    rw [Resolver.expression, Resolver.expression]
    exact h.pure _
  | .number l, _ => by
    rw [Resolver.expression, Resolver.expression]
    exact h.pure _
  | .variableRef name, huses => by
    rw [Resolver.expression, Resolver.expression]
    exact h.variableValue (huses _ (by simp [ofExpression, walk, walkAll, isPlainReference]))
  | .messageRef id attr, huses => by
    rw [Resolver.expression, Resolver.expression]
    refine h.map _ (h.openMessage (huses _ ?_))
    simp [ofExpression, walk, walkAll, isPlainReference]
  | .termRef id attr none, huses => by
    rw [Resolver.expression, Resolver.expression]
    refine h.map _ (h.openTerm (huses (.termRef id attr none) ?_) _)
    simp [ofExpression, walk, walkAll, isPlainReference]
  | .termRef id attr (some ⟨positional, named⟩), huses => by
    rw [Resolver.expression, Resolver.expression]
    refine h.map _ (h.openTerm (huses (.termRef id attr (some ⟨positional, named⟩)) ?_) _)
    simp [ofExpression, walk, walkAll, isPlainReference]
  | .call name ⟨positional, named⟩, huses => by
    rw [Resolver.expression, Resolver.expression]
    refine h.bind (values h positional fun node hnode => huses node ?_) fun _ => h.call _ _ _
    simp [ofExpression, ofArguments, walk, walkAll, isPlainReference, hnode, walkAll_append]
  | .select selector variants, huses => by
    rw [expression_select, expression_select]
    have hselector := expression h selector fun node hnode => huses node (by
      simp [ofExpression, walk, walkAll, isPlainReference, hnode])
    have hvariants := variantText h variants fun node hnode => huses node (by
      simp [ofExpression, walk, walkAll, isPlainReference, hnode])
    refine h.bind hselector fun selected => ?_
    cases hchosen : Variant.chosen? r.locale variants selected.toOption with
    | none => exact h.orFallback _ fun e he => by cases he; rfl
    | some v => exact h.map _ (hvariants v (Variant.mem_of_chosen? hchosen))
  | .placeable inner, huses => by
    rw [Resolver.expression, Resolver.expression]
    refine expression h inner fun node hnode => huses node ?_
    simp [ofExpression, walk, walkAll, isPlainReference, hnode]

/-- Arguments are resolved in lockstep. -/
theorem values (h : Lockstep r o o' uses Rel) : ∀ expressions : List Expression,
    (∀ node ∈ walkAll isPlainReference (ofExpressions expressions), uses node) →
    Rel (r.values o expressions) (r.values o' expressions)
  | [], _ => by
    rw [Resolver.values, Resolver.values]
    exact h.pure _
  | first :: rest, huses => by
    rw [Resolver.values, Resolver.values]
    have hfirst := expression h first fun node hnode => huses node (by
      simp [ofExpressions, walkAll, hnode])
    have hrest := values h rest fun node hnode => huses node (by
      simp [ofExpressions, walkAll, hnode])
    refine h.bind hfirst fun result => ?_
    cases result with
    | ok value => exact h.map _ hrest
    | error _ => exact h.pure _

/-- Variants are resolved in lockstep. -/
theorem variantText (h : Lockstep r o o' uses Rel) : ∀ variants : List Variant,
    (∀ node ∈ walkAll isPlainReference (ofVariants variants), uses node) →
    ∀ v ∈ variants, Rel (r.variantText o v) (r.variantText o' v)
  | ⟨key, value, isDefault⟩ :: rest, huses, v, hv => by
    rcases List.mem_cons.mp hv with rfl | hv
    · refine elements h _ value fun node hnode => huses node ?_
      simp [ofVariants, ofVariant, walk, walkAll, isPlainReference, hnode]
    · refine variantText h rest (fun node hnode => huses node ?_) v hv
      simp [ofVariants, walkAll, hnode]

/-- The elements of a pattern are resolved in lockstep. -/
theorem elements (h : Lockstep r o o' uses Rel) (isolating : Bool) : ∀ p : Pattern,
    (∀ node ∈ walkAll isPlainReference (ofElements p), uses node) →
    Rel (r.elements o isolating p) (r.elements o' isolating p)
  | [], _ => by
    rw [Resolver.elements, Resolver.elements]
    exact h.pure _
  | .text value :: rest, huses => by
    rw [elements_text, elements_text]
    have hrest := elements h isolating rest fun node hnode => huses node (by
      simp [ofElements, walkAll, hnode])
    refine h.bind h.exhausted fun exhausted => ?_
    cases exhausted with
    | true => exact h.pure _
    | false => exact h.map _ hrest
  | .placeable inner :: rest, huses => by
    rw [elements_placeable, elements_placeable]
    have hinner := expression h inner fun node hnode => huses node (by
      simp [ofElements, ofElement, walk, walkAll, isPlainReference, hnode])
    have hrest := elements h isolating rest fun node hnode => huses node (by
      simp [ofElements, walkAll, hnode])
    refine h.bind h.count fun _ => h.bind h.exhausted fun exhausted => ?_
    cases exhausted with
    | true => exact h.pure _
    | false =>
      refine h.bind hinner fun result => h.bind (h.writeResult result) fun text => ?_
      exact h.map _ hrest

end

/-- The two resolutions of a pattern are related if the references met in it are allowed. -/
theorem pattern (h : Lockstep r o o' uses Rel) (p : Pattern)
    (huses : ∀ node ∈ (Outline.ofPattern p).walk Outline.isPlainReference, uses node) :
    Rel (r.pattern o p) (r.pattern o' p) :=
  h.elements _ p fun node hnode => huses node (by
    simp [Outline.ofPattern, Outline.walk, Outline.isPlainReference, hnode])

end Lockstep

end Resolver

end Phrasebook
