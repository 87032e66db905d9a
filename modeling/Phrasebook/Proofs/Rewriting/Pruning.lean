import Mathlib.Data.List.Forall2
import Phrasebook.Syntax.Rewrite

/-!
# Rewriting that only deletes

A rewriter that only deletes gives each node back as it is, or nothing in its place. What it makes
of a tree is the tree with some of its members left out, and with none of its units left empty,
whatever state the rewriter carries along.
-/

namespace Phrasebook

/-! ## What is left of a tree -/

mutual

/-- An expression, and what is left of it. -/
inductive Expression.PrunesTo : Expression → Expression → Prop
  | string (l : StringLiteral) : Expression.PrunesTo (.string l) (.string l)
  | number (l : NumberLiteral) : Expression.PrunesTo (.number l) (.number l)
  | variableRef (name : String) : Expression.PrunesTo (.variableRef name) (.variableRef name)
  | messageRef (id : String) (attr : Option String) :
    Expression.PrunesTo (.messageRef id attr) (.messageRef id attr)
  | termRef (id : String) (attr : Option String) :
    Expression.PrunesTo (.termRef id attr none) (.termRef id attr none)
  | termCall (id : String) (attr : Option String) {positional positional' : List Expression}
    (named : List NamedArgument) (h : Expression.AllPruneTo positional positional') :
    Expression.PrunesTo (.termRef id attr (some ⟨positional, named⟩))
      (.termRef id attr (some ⟨positional', named⟩))
  | call (name : String) {positional positional' : List Expression} (named : List NamedArgument)
    (h : Expression.AllPruneTo positional positional') :
    Expression.PrunesTo (.call name ⟨positional, named⟩) (.call name ⟨positional', named⟩)
  | select {selector selector' : Expression} {variants variants' : List Variant}
    (hselector : Expression.PrunesTo selector selector')
    (hvariants : Variant.AllPruneTo variants variants') :
    Expression.PrunesTo (.select selector variants) (.select selector' variants')
  | placeable {inner inner' : Expression} (h : Expression.PrunesTo inner inner') :
    Expression.PrunesTo (.placeable inner) (.placeable inner')

/-- Expressions, none of which is left out. -/
inductive Expression.AllPruneTo : List Expression → List Expression → Prop
  | nil : Expression.AllPruneTo [] []
  | cons {e e' : Expression} {rest rest' : List Expression} (h : Expression.PrunesTo e e')
    (hrest : Expression.AllPruneTo rest rest') : Expression.AllPruneTo (e :: rest) (e' :: rest')

/-- Variants, of which the default one is not left out, and no other is left empty. -/
inductive Variant.AllPruneTo : List Variant → List Variant → Prop
  | nil : Variant.AllPruneTo [] []
  | keep (key : VariantKey) {value value' : Pattern} (isDefault : Bool) {rest rest' : List Variant}
    (hvalue : PatternElement.AllPruneTo value value') (hne : isDefault = false → value' ≠ [])
    (hrest : Variant.AllPruneTo rest rest') :
    Variant.AllPruneTo (⟨key, value, isDefault⟩ :: rest) (⟨key, value', isDefault⟩ :: rest')
  | drop (key : VariantKey) (value : Pattern) {rest rest' : List Variant}
    (hrest : Variant.AllPruneTo rest rest') : Variant.AllPruneTo (⟨key, value, false⟩ :: rest) rest'

/-- The elements of a pattern. -/
inductive PatternElement.AllPruneTo : List PatternElement → List PatternElement → Prop
  | nil : PatternElement.AllPruneTo [] []
  | text (value : String) {rest rest' : List PatternElement}
    (hrest : PatternElement.AllPruneTo rest rest') :
    PatternElement.AllPruneTo (.text value :: rest) (.text value :: rest')
  | placeable {e e' : Expression} {rest rest' : List PatternElement}
    (h : Expression.PrunesTo e e') (hrest : PatternElement.AllPruneTo rest rest') :
    PatternElement.AllPruneTo (.placeable e :: rest) (.placeable e' :: rest')
  | drop (element : PatternElement) {rest rest' : List PatternElement}
    (hrest : PatternElement.AllPruneTo rest rest') :
    PatternElement.AllPruneTo (element :: rest) rest'

end

/-- A pattern, and what is left of it. -/
abbrev Pattern.PrunesTo (p p' : Pattern) : Prop := PatternElement.AllPruneTo p p'

/-- An attribute is not left empty. -/
structure Attribute.PrunesTo (a a' : Attribute) : Prop where
  id : a'.id = a.id
  value : Pattern.PrunesTo a.value a'.value
  ne_nil : a'.value ≠ []

/-- The attributes that are left, in order. -/
abbrev Attribute.AllPruneTo (attributes attributes' : List Attribute) : Prop :=
  List.SublistForall₂ (fun a' a => a.PrunesTo a') attributes' attributes

/-- A message is left with a value or an attribute, and its value is not left empty. -/
structure Message.PrunesTo (m m' : Message) : Prop where
  id : m'.id = m.id
  span : m'.span = m.span
  value : ∀ p' ∈ m'.value, p' ≠ [] ∧ ∃ p ∈ m.value, Pattern.PrunesTo p p'
  attributes : Attribute.AllPruneTo m.attributes m'.attributes
  comment : ∀ c ∈ m'.comment, c ∈ m.comment
  present : m'.value.isSome ∨ m'.attributes ≠ []

/-- A term is not left empty. -/
structure Term.PrunesTo (t t' : Term) : Prop where
  id : t'.id = t.id
  span : t'.span = t.span
  value : Pattern.PrunesTo t.value t'.value
  ne_nil : t'.value ≠ []
  attributes : Attribute.AllPruneTo t.attributes t'.attributes
  comment : ∀ c ∈ t'.comment, c ∈ t.comment

/-- An entry, and what is left of it. -/
inductive Entry.PrunesTo : Entry → Entry → Prop
  | message {m m' : Message} (h : m.PrunesTo m') : PrunesTo (.message m) (.message m')
  | term {t t' : Term} (h : t.PrunesTo t') : PrunesTo (.term t) (.term t')
  | comment (c : Comment) : PrunesTo (.comment c) (.comment c)
  | junk (j : Junk) : PrunesTo (.junk j) (.junk j)

/-- The entries that are left, in order. -/
def Resource.PrunesTo (r r' : Resource) : Prop :=
  List.SublistForall₂ (fun e' e => e.PrunesTo e') r'.entries r.entries

/-! ## The members that are left -/

/-- Every expression that is left is what is left of one. -/
theorem Expression.AllPruneTo.exists_of_mem {expressions expressions' : List Expression}
    (h : Expression.AllPruneTo expressions expressions') {e' : Expression}
    (he' : e' ∈ expressions') : ∃ e ∈ expressions, e.PrunesTo e' := by
  induction expressions generalizing expressions' with
  | nil =>
    cases h
    cases he'
  | cons first rest ih =>
    cases h with
    | cons hfirst hrest =>
      rcases List.mem_cons.mp he' with rfl | he'
      · exact ⟨first, List.mem_cons_self, hfirst⟩
      · obtain ⟨e, he, hprunes⟩ := ih hrest he'
        exact ⟨e, List.mem_cons_of_mem _ he, hprunes⟩

namespace Variant.AllPruneTo

variable {variants variants' : List Variant}

/-- Every variant that is left has the key of one and what is left of its value. -/
theorem exists_of_mem (h : Variant.AllPruneTo variants variants') {v' : Variant}
    (hv' : v' ∈ variants') :
    ∃ v ∈ variants, v'.key = v.key ∧ Pattern.PrunesTo v.value v'.value := by
  induction variants generalizing variants' with
  | nil =>
    cases h
    cases hv'
  | cons first rest ih =>
    have hbehind {rest' : List Variant} (hrest : Variant.AllPruneTo rest rest')
        (hmem : v' ∈ rest') :
        ∃ v ∈ first :: rest, v'.key = v.key ∧ Pattern.PrunesTo v.value v'.value := by
      obtain ⟨v, hv, hprunes⟩ := ih hrest hmem
      exact ⟨v, List.mem_cons_of_mem _ hv, hprunes⟩
    cases h with
    | keep key isDefault hvalue hne hrest =>
      rcases List.mem_cons.mp hv' with rfl | hv'
      · exact ⟨_, List.mem_cons_self, rfl, hvalue⟩
      · exact hbehind hrest hv'
    | drop key value hrest => exact hbehind hrest hv'

/-- No default variant is left out. -/
theorem countP_isDefault (h : Variant.AllPruneTo variants variants') :
    variants'.countP (·.isDefault) = variants.countP (·.isDefault) := by
  induction variants generalizing variants' with
  | nil =>
    cases h
    rfl
  | cons first rest ih =>
    cases h with
    | keep key isDefault hvalue hne hrest => rw [List.countP_cons, List.countP_cons, ih hrest]
    | drop key value hrest => simpa using ih hrest

end Variant.AllPruneTo

namespace Pattern

variable {p p' : Pattern}

/-- Text that is left was there. -/
theorem PrunesTo.mem_text (h : p.PrunesTo p') {value : String} (hvalue : .text value ∈ p') :
    .text value ∈ p := by
  induction p generalizing p' with
  | nil =>
    cases h
    cases hvalue
  | cons element rest ih =>
    cases h with
    | text first hrest =>
      rcases List.mem_cons.mp hvalue with heq | hvalue
      · rw [heq]
        exact List.mem_cons_self
      · exact List.mem_cons_of_mem _ (ih hrest hvalue)
    | placeable he hrest =>
      rcases List.mem_cons.mp hvalue with heq | hvalue
      · cases heq
      · exact List.mem_cons_of_mem _ (ih hrest hvalue)
    | drop _ hrest => exact List.mem_cons_of_mem _ (ih hrest hvalue)

/-- Every placeable that is left has what is left of an expression. -/
theorem PrunesTo.mem_placeable (h : p.PrunesTo p') {e' : Expression} (he' : .placeable e' ∈ p') :
    ∃ e, .placeable e ∈ p ∧ e.PrunesTo e' := by
  induction p generalizing p' with
  | nil =>
    cases h
    cases he'
  | cons element rest ih =>
    have hbehind (hmem : ∃ e, .placeable e ∈ rest ∧ e.PrunesTo e') :
        ∃ e, .placeable e ∈ element :: rest ∧ e.PrunesTo e' := by
      obtain ⟨e, he, hprunes⟩ := hmem
      exact ⟨e, List.mem_cons_of_mem _ he, hprunes⟩
    cases h with
    | text first hrest =>
      rcases List.mem_cons.mp he' with heq | he'
      · cases heq
      · exact hbehind (ih hrest he')
    | placeable hfirst hrest =>
      rcases List.mem_cons.mp he' with heq | he'
      · cases heq
        exact ⟨_, List.mem_cons_self, hfirst⟩
      · exact hbehind (ih hrest he')
    | drop _ hrest => exact hbehind (ih hrest he')

end Pattern

/-- What is left was made of a member. -/
theorem exists_of_sublistForall₂ {α β : Type} {R : β → α → Prop} {left : List β} {list : List α}
    (h : List.SublistForall₂ R left list) {b : β} (hb : b ∈ left) : ∃ a ∈ list, R b a := by
  induction h with
  | nil => cases hb
  | @cons _ a _ rest hfirst _ ih =>
    rcases List.mem_cons.mp hb with rfl | hb
    · exact ⟨a, List.mem_cons_self, hfirst⟩
    · obtain ⟨a, ha, hrest⟩ := ih hb
      exact ⟨a, List.mem_cons_of_mem _ ha, hrest⟩
  | cons_right _ ih =>
    obtain ⟨a, ha, hrest⟩ := ih hb
    exact ⟨a, List.mem_cons_of_mem _ ha, hrest⟩

namespace Rewriter

/-! ## Results -/

section Results

variable {σ α β : Type} {x : StateM σ α} {P : α → Prop} {Q : β → Prop}

/-- Whatever state it starts from, the result has the property. -/
def Always (x : StateM σ α) (P : α → Prop) : Prop := ∀ state, P (x state).1

/-- A value that is returned is always the one. -/
theorem Always.pure {a : α} (h : P a) : Always (pure a : StateM σ α) P := fun _ => h

/-- What is always so of a result may be used by what follows. -/
theorem Always.bind {f : α → StateM σ β} (hx : Always x P) (hf : ∀ a, P a → Always (f a) Q) :
    Always (x >>= f) Q := fun state => hf _ (hx state) _

/-- What is always so of a result is so of what is made of it. -/
theorem Always.map {f : α → β} (hx : Always x P) (hf : ∀ a, P a → Q (f a)) :
    Always (f <$> x) Q := fun state => hf _ (hx state)

/-- What is made of the members of a list is found in its order. -/
theorem Always.filterMapM {f : α → StateM σ (Option β)} {R : β → α → Prop}
    (hf : ∀ a, Always (f a) fun result => ∀ b ∈ result, R b a) (list : List α) :
    Always (list.filterMapM f) fun results => List.SublistForall₂ R results list := by
  induction list with
  | nil =>
    rw [List.filterMapM_nil]
    exact .pure .nil
  | cons a rest ih =>
    rw [List.filterMapM_cons]
    refine (hf a).bind ?_
    rintro (_ | b) hb
    · exact fun state => (ih state).cons_right
    · exact ih.bind fun _ hrest => .pure (.cons (hb b rfl) hrest)

end Results

/-! ## Deleting -/

variable {σ α : Type}

/-- A node is given back as it is, or nothing is. -/
def Spares (x : StateM σ (Option α)) (a : α) : Prop := Always x fun result => ∀ b ∈ result, b = a

/-- A rewriter that only deletes. -/
structure Deletes (w : Rewriter (StateM σ)) : Prop where
  entry : ∀ e, Spares (w.entry e) e
  message : ∀ m, Spares (w.message m) m
  term : ∀ t, Spares (w.term t) t
  comment : ∀ c, Spares (w.comment c) c
  junk : ∀ j, Spares (w.junk j) j
  attr : ∀ a, Spares (w.attr a) a
  pattern : ∀ p, Always (w.pattern p) (· = p)
  element : ∀ e, Spares (w.element e) e
  expression : ∀ e, Always (w.expression e) (· = e)
  variant : ∀ v, Spares (w.variant v) v

variable {w : Rewriter (StateM σ)}

/-- The default variant stays, and another one unless it is left empty. -/
theorem Deletes.finishVariant (h : w.Deletes) (v : Variant) :
    Always (w.finishVariant v) fun result =>
      result = some v ∧ (v.isDefault = false → v.value ≠ []) ∨
        result = none ∧ v.isDefault = false := by
  obtain ⟨key, value, isDefault⟩ := v
  refine (h.variant _).bind fun replaced hreplaced => ?_
  cases isDefault with
  | true =>
    refine Always.pure (Or.inl ⟨?_, by rintro ⟨⟩⟩)
    rcases replaced with _ | v
    · rfl
    · rw [hreplaced v rfl]
      rfl
  | false =>
    refine Always.pure ?_
    rcases replaced with _ | v
    · exact Or.inr ⟨rfl, rfl⟩
    · rw [hreplaced v rfl]
      by_cases hempty : value.isEmpty
      · exact Or.inr ⟨by simp [Option.filter, hempty], rfl⟩
      · exact Or.inl ⟨by simp [Option.filter, hempty], fun _ => by simpa using hempty⟩

private theorem Deletes.expression_of (h : w.Deletes) {e e' : Expression} (he : e.PrunesTo e') :
    Always (w.expression e') e.PrunesTo := by
  intro state
  rw [h.expression e' state]
  exact he

private theorem Deletes.pattern_of (h : w.Deletes) {p p' : Pattern} (hp : p.PrunesTo p') :
    Always (w.pattern p') p.PrunesTo := by
  intro state
  rw [h.pattern p' state]
  exact hp

mutual

/-- A deleting rewriter leaves a part of every expression, by induction on it. -/
theorem Deletes.rewriteExpression (h : w.Deletes) :
    ∀ e : Expression, Always (w.rewriteExpression e) e.PrunesTo
  | .string l => h.expression_of (.string l)
  | .number l => h.expression_of (.number l)
  | .variableRef name => h.expression_of (.variableRef name)
  | .messageRef id attr => h.expression_of (.messageRef id attr)
  | .termRef id attr none => h.expression_of (.termRef id attr)
  | .termRef id attr (some ⟨positional, named⟩) =>
    (h.rewriteExpressions positional).bind fun _ hpositional =>
      h.expression_of (.termCall id attr named hpositional)
  | .call name ⟨positional, named⟩ =>
    (h.rewriteExpressions positional).bind fun _ hpositional =>
      h.expression_of (.call name named hpositional)
  | .select selector variants =>
    (h.rewriteExpression selector).bind fun _ hselector =>
      (h.rewriteVariants variants).bind fun _ hvariants =>
        h.expression_of (.select hselector hvariants)
  | .placeable inner =>
    (h.rewriteExpression inner).bind fun _ hinner => h.expression_of (.placeable hinner)

/-- A deleting rewriter leaves every argument, each pruned. -/
theorem Deletes.rewriteExpressions (h : w.Deletes) :
    ∀ expressions : List Expression,
      Always (w.rewriteExpressions expressions) (Expression.AllPruneTo expressions)
  | [] => .pure .nil
  | expression :: rest =>
    (h.rewriteExpression expression).bind fun _ hexpression =>
      (h.rewriteExpressions rest).bind fun _ hrest => .pure (.cons hexpression hrest)

/-- A deleting rewriter leaves the default variant and maybe others, each pruned. -/
theorem Deletes.rewriteVariants (h : w.Deletes) :
    ∀ variants : List Variant, Always (w.rewriteVariants variants) (Variant.AllPruneTo variants)
  | [] => .pure .nil
  | ⟨key, value, isDefault⟩ :: rest => by
    refine (h.rewriteElements value).bind fun elements helements =>
      (h.pattern_of helements).bind fun value' hvalue => (h.finishVariant _).bind ?_
    rintro _ (⟨rfl, hne⟩ | ⟨rfl, hdefault⟩)
    · exact (h.rewriteVariants rest).bind fun _ hrest =>
        .pure (.keep key isDefault hvalue hne hrest)
    · obtain rfl : isDefault = false := hdefault
      exact (h.rewriteVariants rest).bind fun _ hrest => .pure (.drop key value hrest)

/-- A deleting rewriter leaves some of the elements of a pattern, each pruned. -/
theorem Deletes.rewriteElements (h : w.Deletes) :
    ∀ p : Pattern, Always (w.rewriteElements p) p.PrunesTo
  | [] => .pure .nil
  | .text value :: rest => by
    refine (h.element (.text value)).bind ?_
    rintro (_ | element) helement
    · exact (h.rewriteElements rest).bind fun _ hrest => .pure (.drop _ hrest)
    · obtain rfl := helement element rfl
      exact (h.rewriteElements rest).bind fun _ hrest => .pure (.text value hrest)
  | .placeable inner :: rest => by
    refine (h.rewriteExpression inner).bind fun inner' hinner => (h.element _).bind ?_
    rintro (_ | element) helement
    · exact (h.rewriteElements rest).bind fun _ hrest => .pure (.drop _ hrest)
    · obtain rfl := helement element rfl
      exact (h.rewriteElements rest).bind fun _ hrest => .pure (.placeable hinner hrest)

end

/-- A deleting rewriter leaves a part of every pattern. -/
theorem Deletes.rewritePattern (h : w.Deletes) (p : Pattern) :
    Always (w.rewritePattern p) p.PrunesTo :=
  (h.rewriteElements p).bind fun _ hp => h.pattern_of hp

/-- A deleting rewriter leaves some of the attributes, none of them empty. -/
theorem Deletes.rewriteAttributes (h : w.Deletes) (attributes : List Attribute) :
    Always (w.rewriteAttributes attributes) (Attribute.AllPruneTo attributes) := by
  refine Always.filterMapM (fun a => ?_) attributes
  refine (h.rewritePattern a.value).bind fun value hvalue => (h.attr _).bind fun replaced hkept =>
    Always.pure fun a' ha' => ?_
  rw [Option.mem_def, Option.filter_eq_some_iff] at ha'
  obtain rfl := hkept a' ha'.1
  exact ⟨rfl, hvalue, by simpa using ha'.2⟩

/-- A deleting rewriter leaves a comment as it is or drops it. -/
theorem Deletes.rewriteComment (h : w.Deletes) (comment : Option Comment) :
    Always (w.rewriteComment comment) fun result => ∀ c ∈ result, c ∈ comment := by
  cases comment with
  | none => exact Always.pure fun _ hc => hc
  | some c =>
    intro state c' hc'
    rw [h.comment c state c' hc']
    rfl

/-- A deleting rewriter leaves a value that is not empty, or none. -/
theorem Deletes.rewriteValue (h : w.Deletes) (value : Option Pattern) :
    Always (w.rewriteValue value) fun result =>
      ∀ p' ∈ result, p' ≠ [] ∧ ∃ p ∈ value, p.PrunesTo p' := by
  cases value with
  | none => exact Always.pure (by rintro _ ⟨⟩)
  | some p =>
    refine (h.rewritePattern p).bind fun p' hp' => Always.pure fun p'' hp'' => ?_
    rw [Option.mem_def, Option.filter_eq_some_iff] at hp''
    obtain rfl := Option.some.inj hp''.1
    exact ⟨by simpa using hp''.2, p, rfl, hp'⟩

/-- A deleting rewriter leaves a message with a value or an attribute, or none. -/
theorem Deletes.rewriteMessage (h : w.Deletes) (m : Message) :
    Always (w.rewriteMessage m) fun result => ∀ m' ∈ result, m.PrunesTo m' := by
  refine (h.rewriteValue m.value).bind fun value hvalue =>
    (h.rewriteAttributes m.attributes).bind fun attributes hattributes =>
      (h.rewriteComment m.comment).bind fun comment hcomment =>
        (h.message _).bind fun replaced hkept => Always.pure fun m' hm' => ?_
  rw [Option.mem_def, Option.filter_eq_some_iff] at hm'
  obtain rfl := hkept m' hm'.1
  exact ⟨rfl, rfl, hvalue, hattributes, hcomment, by simpa using hm'.2⟩

/-- A deleting rewriter leaves a term with a value, or none. -/
theorem Deletes.rewriteTerm (h : w.Deletes) (t : Term) :
    Always (w.rewriteTerm t) fun result => ∀ t' ∈ result, t.PrunesTo t' := by
  refine (h.rewritePattern t.value).bind fun value hvalue =>
    (h.rewriteAttributes t.attributes).bind fun attributes hattributes =>
      (h.rewriteComment t.comment).bind fun comment hcomment =>
        (h.term _).bind fun replaced hkept => Always.pure fun t' ht' => ?_
  rw [Option.mem_def, Option.filter_eq_some_iff] at ht'
  obtain rfl := hkept t' ht'.1
  exact ⟨rfl, rfl, hvalue, by simpa using ht'.2, hattributes, hcomment⟩

/-- An entry whose contents are left is given to the rewriter itself. -/
private theorem Deletes.entry_of (h : w.Deletes) {e : Entry} {contents : StateM σ (Option Entry)}
    {finish : Option Entry → StateM σ (Option Entry)}
    (hcontents : Always contents fun result => ∀ e' ∈ result, e.PrunesTo e')
    (hnone : finish none = pure none) (hsome : ∀ e', finish (some e') = w.entry e') :
    Always (contents >>= finish) fun result => ∀ e' ∈ result, e.PrunesTo e' := by
  refine hcontents.bind ?_
  rintro (_ | e') he'
  · rw [hnone]
    exact Always.pure (by rintro _ ⟨⟩)
  · intro state e'' he''
    rw [hsome] at he''
    rw [h.entry e' state e'' he'']
    exact he' e' rfl

private theorem always_map_option {β : Type} {e : Entry} {x : StateM σ (Option β)}
    {make : β → Entry}
    (hx : Always x fun result => ∀ b ∈ result, e.PrunesTo (make b)) :
    Always ((·.map make) <$> x) fun result => ∀ e' ∈ result, e.PrunesTo e' := by
  refine hx.map ?_
  intro result hresult e' he'
  obtain ⟨b, hb, rfl⟩ := Option.map_eq_some_iff.mp he'
  exact hresult b hb

/-- A deleting rewriter leaves a part of every entry, or nothing. -/
theorem Deletes.rewriteEntry (h : w.Deletes) (e : Entry) :
    Always (w.rewriteEntry e) fun result => ∀ e' ∈ result, e.PrunesTo e' := by
  cases e with
  | message m =>
    refine h.entry_of (always_map_option ?_) rfl fun _ => rfl
    exact fun state m' hm' => .message (h.rewriteMessage m state m' hm')
  | term t =>
    refine h.entry_of (always_map_option ?_) rfl fun _ => rfl
    exact fun state t' ht' => .term (h.rewriteTerm t state t' ht')
  | comment c =>
    refine h.entry_of (always_map_option ?_) rfl fun _ => rfl
    intro state c' hc'
    rw [h.comment c state c' hc']
    exact .comment c
  | junk j =>
    refine h.entry_of (always_map_option ?_) rfl fun _ => rfl
    intro state j' hj'
    rw [h.junk j state j' hj']
    exact .junk j

/-- A rewriter that only deletes leaves some of the members of a tree out, and no unit empty. -/
theorem Deletes.rewrite (h : w.Deletes) (r : Resource) : Always (w.rewrite r) r.PrunesTo :=
  (Always.filterMapM (fun e => h.rewriteEntry e) r.entries).bind fun _ hentries => .pure hentries

end Rewriter

end Phrasebook
