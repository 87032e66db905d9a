import Mathlib.Data.List.Forall2
import Phrasebook.Proofs.Resolution.ParsedTable
import Phrasebook.Proofs.TreeInduction
import Phrasebook.Syntax.Equality

/-!
# The order of variants

Variants are tried in order, but where their keys differ, at most one of them fits at each stage of
the choice. So it makes no difference to any text in which order the variants stand.
-/

namespace Phrasebook

/-! ## Trees with variants in another order -/

mutual

/-- The second expression is the first one with the variants of selects in another order, at any
depth. -/
inductive Expression.Reorders : Expression → Expression → Prop
  | string (l : StringLiteral) : Expression.Reorders (.string l) (.string l)
  | number (l : NumberLiteral) : Expression.Reorders (.number l) (.number l)
  | variableRef (name : String) : Expression.Reorders (.variableRef name) (.variableRef name)
  | messageRef (id : String) (attr : Option String) :
    Expression.Reorders (.messageRef id attr) (.messageRef id attr)
  | termRef (id : String) (attr : Option String) :
    Expression.Reorders (.termRef id attr none) (.termRef id attr none)
  | termCall (id : String) (attr : Option String) {positional positional' : List Expression}
    (named : List NamedArgument) : List.Forall₂ Expression.Reorders positional positional' →
      Expression.Reorders (.termRef id attr (some ⟨positional, named⟩))
        (.termRef id attr (some ⟨positional', named⟩))
  | call (name : String) {positional positional' : List Expression} (named : List NamedArgument) :
    List.Forall₂ Expression.Reorders positional positional' →
      Expression.Reorders (.call name ⟨positional, named⟩) (.call name ⟨positional', named⟩)
  | select {selector selector' : Expression} {variants among variants' : List Variant} :
    Expression.Reorders selector selector' → List.Forall₂ Variant.Reorders variants among →
      among.Perm variants' →
        Expression.Reorders (.select selector variants) (.select selector' variants')
  | placeable {inner inner' : Expression} : Expression.Reorders inner inner' →
      Expression.Reorders (.placeable inner) (.placeable inner')

/-- The variants have the same key, and the pattern of the second is that of the first with the
variants of selects in another order. -/
inductive Variant.Reorders : Variant → Variant → Prop
  | mk (key : VariantKey) {value value' : List PatternElement} (isDefault : Bool) :
    List.Forall₂ PatternElement.Reorders value value' →
      Variant.Reorders ⟨key, value, isDefault⟩ ⟨key, value', isDefault⟩

/-- The second element is the first one with the variants of selects in another order. -/
inductive PatternElement.Reorders : PatternElement → PatternElement → Prop
  | text (value : String) : PatternElement.Reorders (.text value) (.text value)
  | placeable {e e' : Expression} : Expression.Reorders e e' →
      PatternElement.Reorders (.placeable e) (.placeable e')

end

/-- The second pattern is the first one with the variants of selects in another order. -/
def Pattern.Reorders : Pattern → Pattern → Prop := List.Forall₂ PatternElement.Reorders

/-- The same attribute, but for the order of variants. -/
structure Attribute.Reorders (a a' : Attribute) : Prop where
  id : a.id = a'.id
  value : Pattern.Reorders a.value a'.value

/-- The same texts, but for the order of variants. -/
structure Message.Reorders (m m' : Message) : Prop where
  value : Option.Rel Pattern.Reorders m.value m'.value
  attributes : List.Forall₂ Attribute.Reorders m.attributes m'.attributes

/-- The same texts, but for the order of variants. -/
structure Term.Reorders (t t' : Term) : Prop where
  value : Pattern.Reorders t.value t'.value
  attributes : List.Forall₂ Attribute.Reorders t.attributes t'.attributes

/-- Messages or terms with the same id and the same texts, but for the order of variants. Comments
and junk have no texts. -/
inductive Entry.Reorders : Entry → Entry → Prop
  | message {m m' : Message} : m.id = m'.id → m.Reorders m' → Reorders (.message m) (.message m')
  | term {t t' : Term} : t.id = t'.id → t.Reorders t' → Reorders (.term t) (.term t')
  | comment (c c' : Comment) : Reorders (.comment c) (.comment c')
  | junk (j j' : Junk) : Reorders (.junk j) (.junk j')

/-- The second table is the first one with the variants of selects in another order. -/
structure EntryTable.Reorders (table table' : EntryTable) : Prop where
  message (id : String) : Option.Rel Message.Reorders (table.message? id) (table'.message? id)
  term (id : String) : Option.Rel Term.Reorders (table.term? id) (table'.term? id)

namespace EntryTable

variable {table table' : EntryTable}

/-- A message with variants in another order is added to the table. -/
theorem Reorders.insertMessage (h : table.Reorders table') {m m' : Message} (hid : m.id = m'.id)
    (hm : m.Reorders m') : (table.insertMessage m).Reorders (table'.insertMessage m') where
  message id := by
    rw [message?_insertMessage, message?_insertMessage, hid]
    split
    · exact .some hm
    · exact h.message id
  term := h.term

/-- A term with variants in another order is added to the table. -/
theorem Reorders.insertTerm (h : table.Reorders table') {t t' : Term} (hid : t.id = t'.id)
    (ht : t.Reorders t') : (table.insertTerm t).Reorders (table'.insertTerm t') where
  message := h.message
  term id := by
    rw [term?_insertTerm, term?_insertTerm, hid]
    split
    · exact .some ht
    · exact h.term id

/-- Entries with variants in another order are added to the table. -/
theorem Reorders.insertAll {entries entries' : List Entry} (h : table.Reorders table')
    (hentries : List.Forall₂ Entry.Reorders entries entries') :
    (table.insertAll entries).1.Reorders (table'.insertAll entries').1 := by
  induction hentries generalizing table table' with
  | nil => exact h
  | cons hentry _ ih =>
    cases hentry with
    | message hid hm => exact ih (h.insertMessage hid hm)
    | term hid ht => exact ih (h.insertTerm hid ht)
    | comment c c' => exact ih h
    | junk j j' => exact ih h

/-- Sources whose entries differ in the order of variants give tables that differ in it. -/
theorem reorders_ofSource {source source' : String}
    (h : List.Forall₂ Entry.Reorders (Resource.parse source).entries
      (Resource.parse source').entries) : (ofSource source).Reorders (ofSource source') :=
  Reorders.insertAll ⟨fun _ => .none, fun _ => .none⟩ h

end EntryTable

/-! ## Lists searched -/

section Search

variable {α β : Type} {l l' : List α} {p : α → Bool}

/-- Where at most one member fits, the order makes no difference to which one is found. -/
theorem find?_eq_of_perm (h : l.Perm l') (hone : l.Pairwise fun a b => ¬(p a ∧ p b)) :
    l.find? p = l'.find? p := by
  induction h with
  | nil => rfl
  | cons a h ih => rw [List.find?_cons, List.find?_cons, ih (List.pairwise_cons.mp hone).2]
  | swap a b l =>
    have hab := (List.pairwise_cons.mp hone).1 a List.mem_cons_self
    simp only [List.find?_cons]
    cases ha : p a <;> cases hb : p b <;> simp_all
  | trans h h' ih ih' =>
    refine (ih hone).trans (ih' (h.pairwise hone fun hab hba => hab ⟨hba.2, hba.1⟩))

/-- Where at most one member satisfies a condition, no two do. -/
theorem pairwise_of_countP_le_one (h : l.countP p ≤ 1) : l.Pairwise fun a b => ¬(p a ∧ p b) := by
  induction l with
  | nil => exact .nil
  | cons a rest ih =>
    rw [List.countP_cons] at h
    refine .cons (fun b hb hab => ?_) (ih (by omega))
    have hpos : 0 < rest.countP p := List.countP_pos_iff.mpr ⟨b, hb, hab.2⟩
    rw [if_pos hab.1] at h
    omega

/-- Searches of related lists, by what related members have in common, find related members. -/
theorem rel_find? {R : α → β → Prop} {l : List α} {l' : List β} {p : α → Bool} {q : β → Bool}
    (h : List.Forall₂ R l l') (hpq : ∀ a b, R a b → p a = q b) :
    Option.Rel R (l.find? p) (l'.find? q) := by
  induction h with
  | nil => exact .none
  | @cons a b _ _ hab _ ih =>
    rw [List.find?_cons, List.find?_cons, ← hpq a b hab]
    cases p a with
    | true => exact .some hab
    | false => exact ih

/-- Alternatives are related if both of them are. -/
theorem rel_orElse {R : α → β → Prop} {a b : Option α} {a' b' : Option β} (h : Option.Rel R a a')
    (h' : Option.Rel R b b') : Option.Rel R (a <|> b) (a' <|> b') := by
  cases h with
  | some h => exact .some h
  | none => exact h'

end Search

/-! ## One choice at each stage -/

/-- Two numbers that equal a third are equal. -/
theorem Double.numEq_of_numEq {x y z : Double} (hx : x.numEq z = true) (hy : y.numEq z = true) :
    x.numEq y = true := by
  simp only [numEq, Bool.and_eq_true, Bool.or_eq_true, beq_iff_eq] at hx hy ⊢
  obtain ⟨⟨hx, -⟩, hxz⟩ := hx
  obtain ⟨⟨hy, -⟩, hyz⟩ := hy
  have hzero {a b : Double} (h : a.bits = b.bits) : a.isZero = b.isZero := by
    rw [isZero, isZero, magnitude, magnitude, h]
  refine ⟨⟨hx, hy⟩, ?_⟩
  rcases hxz with hxz | ⟨hxz, hz⟩
  · rcases hyz with hyz | ⟨hyz, hz⟩
    · exact .inl (hxz.trans hyz.symm)
    · exact .inr ⟨(hzero hxz).trans hz, hyz⟩
  · rcases hyz with hyz | ⟨hyz, -⟩
    · exact .inr ⟨hxz, (hzero hyz).trans hz⟩
    · exact .inr ⟨hxz, hyz⟩

namespace VariantKey

/-- The keys are the same name, or they are the same number. -/
def same : VariantKey → VariantKey → Bool
  | .name a, .name b => a == b
  | .number a, .number b => a.value.numEq b.value
  | _, _ => false

variable {key key' : VariantKey}

/-- Keys that are the same value are the same. -/
theorem same_of_isValue {value : Value} (h : key.isValue value = true)
    (h' : key'.isValue value = true) : key.same key' = true := by
  cases key <;> cases key' <;> cases value <;> simp_all [isValue, same]
  exact Double.numEq_of_numEq h h'

/-- Two keys with one name are the same. -/
theorem same_of_isName {name : String} (h : key.isName name = true)
    (h' : key'.isName name = true) : key.same key' = true := by
  cases key <;> cases key' <;> simp_all [isName, same]

end VariantKey

namespace Variant

variable {variants variants' among : List Variant} {locale : String} {selector : Option Value}

/-- No two of the variants have the same key. -/
def Distinct (variants : List Variant) : Prop :=
  (variants.map fun v => v.key).Pairwise fun a b => a.same b = false

instance (variants : List Variant) : Decidable (Distinct variants) :=
  inferInstanceAs (Decidable
    ((variants.map fun v => v.key).Pairwise fun a b => a.same b = false))

/-- At each stage of the choice at most one variant fits, so their order makes no difference. -/
theorem chosen?_eq_of_perm (h : variants.Perm variants') (hkeys : Distinct variants)
    (hdefault : variants.countP (·.isDefault) = 1) :
    chosen? locale variants selector = chosen? locale variants' selector := by
  have hkeys := List.pairwise_map.mp hkeys
  have hvalue (value : Value) : (variants.find? fun v => v.key.isValue value) =
      variants'.find? fun v => v.key.isValue value :=
    find?_eq_of_perm h <| hkeys.imp fun hdiffer hfits => by
      rw [VariantKey.same_of_isValue hfits.1 hfits.2] at hdiffer
      cases hdiffer
  have hname (name : String) : (variants.find? fun v => v.key.isName name) =
      variants'.find? fun v => v.key.isName name :=
    find?_eq_of_perm h <| hkeys.imp fun hdiffer hfits => by
      rw [VariantKey.same_of_isName hfits.1 hfits.2] at hdiffer
      cases hdiffer
  have hmarked : (variants.find? fun v => v.isDefault) = variants'.find? fun v => v.isDefault :=
    find?_eq_of_perm h (pairwise_of_countP_le_one hdefault.le)
  -- With a default among them, the first variant of all is never taken.
  obtain ⟨v, hv⟩ : ∃ v, (variants.find? fun v => v.isDefault) = some v := by
    have hpos : 0 < variants.countP (·.isDefault) := by omega
    rw [← Option.isSome_iff_exists, List.find?_isSome]
    exact List.countP_pos_iff.mp hpos
  simp only [chosen?_eq, hvalue, hname, ← hmarked, hv, Option.orElse_eq_orElse,
    Option.orElse_some]

/-- Variants keep their keys. -/
theorem Reorders.key_eq {v w : Variant} (h : v.Reorders w) : v.key = w.key := by
  cases h
  rfl

/-- The default variant stays the default. -/
theorem Reorders.isDefault_eq {v w : Variant} (h : v.Reorders w) : v.isDefault = w.isDefault := by
  cases h
  rfl

/-- The value of a variant has its variants in another order. -/
theorem Reorders.value {v w : Variant} (h : v.Reorders w) : Pattern.Reorders v.value w.value := by
  cases h
  assumption

/-- Variants with the same keys are chosen alike. -/
theorem rel_chosen? (h : List.Forall₂ Variant.Reorders variants among) :
    Option.Rel Variant.Reorders (chosen? locale variants selector)
      (chosen? locale among selector) := by
  rw [chosen?_eq, chosen?_eq]
  refine rel_orElse ?_ (rel_orElse (rel_find? h fun _ _ h => h.isDefault_eq) ?_)
  · cases selector with
    | none => exact .none
    | some value =>
      refine rel_orElse (rel_find? h fun _ _ h => by rw [h.key_eq]) ?_
      cases value.asNumber? with
      | none => exact .none
      | some n => exact rel_find? h fun _ _ h => by rw [h.key_eq]
  · cases h with
    | nil => exact .none
    | cons h _ => exact .some h

/-- What does not depend on the order inside of variants is the same for all of them. -/
theorem map_eq_of_reorders {α : Type} {f : Variant → α}
    (hf : ∀ {v w : Variant}, v.Reorders w → f v = f w)
    (h : List.Forall₂ Variant.Reorders variants among) : variants.map f = among.map f := by
  induction h with
  | nil => rfl
  | cons h _ ih => rw [List.map_cons, List.map_cons, hf h, ih]

/-- Where the variants of a select stand in another order, the variant with the same key is
chosen. -/
theorem rel_chosen?_of_perm (hkeys : Distinct variants)
    (hdefault : variants.countP (·.isDefault) = 1)
    (h : List.Forall₂ Variant.Reorders variants among) (hperm : among.Perm variants')
    (locale : String) (selector : Option Value) :
    Option.Rel Variant.Reorders (chosen? locale variants selector)
      (chosen? locale variants' selector) := by
  have hkeys' : Distinct among := by
    rwa [Distinct, ← map_eq_of_reorders Reorders.key_eq h]
  have hdefault' : among.countP (·.isDefault) = 1 := by
    have hflags := congrArg (List.countP id) (map_eq_of_reorders Reorders.isDefault_eq h)
    rw [List.countP_map, List.countP_map] at hflags
    exact hflags.symm.trans hdefault
  rw [← chosen?_eq_of_perm hperm hkeys' hdefault']
  exact rel_chosen? h

end Variant

/-! ## The same resolution -/

/-- Of two related options both have a member or neither. -/
theorem rel_isSome_eq {α β : Type} {R : α → β → Prop} {a : Option α} {b : Option β}
    (h : Option.Rel R a b) : a.isSome = b.isSome := by
  cases h <;> rfl

/-- The attributes that are found by a name are related. -/
theorem rel_attribute {attributes attributes' : List Attribute}
    (h : List.Forall₂ Attribute.Reorders attributes attributes') (name : String) :
    Option.Rel Attribute.Reorders (Attribute.find? attributes name)
      (Attribute.find? attributes' name) :=
  rel_find? h fun _ _ h => by rw [h.id]

/-- The tables hold messages with the same ids. -/
theorem EntryTable.Reorders.messageIds_eq {table table' : EntryTable} (h : table.Reorders table') :
    table.messageIds = table'.messageIds := by
  have hmem (id : String) : id ∈ table.messages.keys ↔ id ∈ table'.messages.keys := by
    rw [Std.TreeMap.mem_keys, Std.TreeMap.mem_keys, Std.TreeMap.mem_iff_isSome_getElem?,
      Std.TreeMap.mem_iff_isSome_getElem?]
    exact iff_of_eq (congrArg (· = true) (rel_isSome_eq (h.message id)))
  have hnodup (messages : Std.TreeMap String Message) : messages.keys.Nodup :=
    Std.TreeMap.ordered_keys.imp fun hlt heq => by
      subst heq
      simp at hlt
  have hperm := (List.perm_ext_iff_of_nodup (hnodup _) (hnodup _)).mpr hmem
  have hantisymm (a b : String) (_ : a ∈ table.messages.keys) (_ : b ∈ table'.messages.keys)
      (hlt : compare a b = .lt) (hgt : compare b a = .lt) : a = b :=
    absurd hgt (Std.OrientedCmp.not_lt_of_lt hlt)
  exact hperm.eq_of_pairwise hantisymm Std.TreeMap.ordered_keys Std.TreeMap.ordered_keys

namespace Resolver

open Resolution

/-- The same resolver, but for its entries. -/
def withEntries (r : Resolver) (table : EntryTable) : Resolver := { r with entries := table }

variable {r : Resolver} {table : EntryTable} {o o' : Opening}

/-- A message is found in both tables, with the same pattern but for the order of variants, or the
same is wrong with the reference. -/
theorem messagePattern_reorders (h : r.entries.Reorders table) (id : String)
    (attr : Option String) :
    (∃ p p', r.messagePattern id attr = .ok p ∧
        (r.withEntries table).messagePattern id attr = .ok p' ∧ Pattern.Reorders p p') ∨
      ∃ e, r.messagePattern id attr = .error e ∧
        (r.withEntries table).messagePattern id attr = .error e := by
  have hmessage := h.message id
  simp only [messagePattern, withEntries, h.messageIds_eq]
  generalize r.entries.message? id = found at hmessage
  generalize table.message? id = found' at hmessage
  cases hmessage with
  | none => exact .inr ⟨_, rfl, rfl⟩
  | @some m m' hm =>
    cases attr with
    | none =>
      have hvalue := hm.value
      dsimp only
      generalize m.value = value at hvalue
      generalize m'.value = value' at hvalue
      cases hvalue with
      | none => exact .inr ⟨_, rfl, rfl⟩
      | some hp => exact .inl ⟨_, _, rfl, rfl, hp⟩
    | some name =>
      have hattribute := rel_attribute hm.attributes name
      dsimp only
      generalize Attribute.find? m.attributes name = a at hattribute
      generalize Attribute.find? m'.attributes name = a' at hattribute
      cases hattribute with
      | none => exact .inr ⟨_, rfl, rfl⟩
      | some ha => exact .inl ⟨_, _, rfl, rfl, ha.value⟩

/-- A term is found in both tables, with the same pattern but for the order of variants, or the same
is wrong with the reference. -/
theorem termPattern_reorders (h : r.entries.Reorders table) (id : String)
    (attr : Option String) :
    (∃ p p', r.termPattern id attr = .ok p ∧
        (r.withEntries table).termPattern id attr = .ok p' ∧ Pattern.Reorders p p') ∨
      ∃ e, r.termPattern id attr = .error e ∧
        (r.withEntries table).termPattern id attr = .error e := by
  have hterm := h.term id
  simp only [termPattern, withEntries]
  generalize r.entries.term? id = found at hterm
  generalize table.term? id = found' at hterm
  cases hterm with
  | none => exact .inr ⟨_, rfl, rfl⟩
  | @some t t' ht =>
    cases attr with
    | none => exact .inl ⟨_, _, rfl, rfl, ht.value⟩
    | some name =>
      have hattribute := rel_attribute ht.attributes name
      dsimp only
      generalize Attribute.find? t.attributes name = a at hattribute
      generalize Attribute.find? t'.attributes name = a' at hattribute
      cases hattribute with
      | none => exact .inr ⟨_, rfl, rfl⟩
      | some ha => exact .inl ⟨_, _, rfl, rfl, ha.value⟩

section Steps

variable (h : r.entries.Reorders table)
  (hopen : ∀ frame p p', p ∈ r.entries.patterns → Pattern.Reorders p p' → o frame p = o' frame p')

include h hopen

/-- A message is opened alike in both tables. -/
theorem openMessage_reorders (id : String) (attr : Option String) :
    r.openMessage o id attr = (r.withEntries table).openMessage o' id attr := by
  rcases messagePattern_reorders h id attr with ⟨p, p', hp, hp', hreorders⟩ | ⟨e, he, he'⟩
  · rw [openMessage_of_ok hp, openMessage_of_ok hp',
      hopen _ p p' (mem_patterns_of_messagePattern hp) hreorders]
  · rw [openMessage_of_error he, openMessage_of_error he']

/-- A term is opened alike in both tables. -/
theorem openTerm_reorders (id : String) (attr : Option String) (scope : Arguments) :
    r.openTerm o id attr scope = (r.withEntries table).openTerm o' id attr scope := by
  rcases termPattern_reorders h id attr with ⟨p, p', hp, hp', hreorders⟩ | ⟨e, he, he'⟩
  · rw [openTerm_of_ok hp, openTerm_of_ok hp',
      hopen _ p p' (mem_patterns_of_termPattern hp) hreorders]
  · rw [openTerm_of_error he, openTerm_of_error he']

end Steps

/-- Reordered, the expression is resolved the same way, and it is isolated if it was. -/
def Unmoved (r : Resolver) (table : EntryTable) (o o' : Opening) (e : Expression) : Prop :=
  ∀ e', e.Reorders e' → r.expression o e = (r.withEntries table).expression o' e' ∧
    e.isIsolated = e'.isIsolated

/-- Arguments with variants in another order have the same values. -/
theorem values_reorders {es es' : List Expression} (h : List.Forall₂ Expression.Reorders es es')
    (hes : ∀ e ∈ es, Unmoved r table o o' e) :
    r.values o es = (r.withEntries table).values o' es' := by
  induction h with
  | nil => rw [values, values]
  | cons h _ ih =>
    rw [values, values, (hes _ List.mem_cons_self _ h).1,
      ih fun e he => hes e (List.mem_cons_of_mem _ he)]

/-- The elements of a pattern with variants in another order write the same. -/
theorem elements_reorders (isolating : Bool) {p p' : Pattern} (h : Pattern.Reorders p p')
    (hp : ∀ e, .placeable e ∈ p → Unmoved r table o o' e) :
    r.elements o isolating p = (r.withEntries table).elements o' isolating p' := by
  induction h with
  | nil => rw [elements, elements]
  | cons h _ ih =>
    have ih := ih fun e he => hp e (List.mem_cons_of_mem _ he)
    cases h with
    | text value => rw [elements_text, elements_text, ih]
    | placeable he =>
      obtain ⟨hexpression, hisolated⟩ := hp _ List.mem_cons_self _ he
      rw [elements_placeable, elements_placeable, ih, hexpression, hisolated]
      rfl

/-- A select expression with distinct keys writes the same in every order of its variants. -/
theorem select_reorders {selector selector' : Expression} {variants among variants' : List Variant}
    (hkeys : Variant.Distinct variants) (hdefault : variants.countP (·.isDefault) = 1)
    (h : List.Forall₂ Variant.Reorders variants among) (hperm : among.Perm variants')
    (hselector : r.expression o selector = (r.withEntries table).expression o' selector')
    (hvariants : ∀ v ∈ variants, ∀ p', Pattern.Reorders v.value p' →
      r.pattern o v.value = (r.withEntries table).pattern o' p') :
    r.expression o (.select selector variants) =
      (r.withEntries table).expression o' (.select selector' variants') := by
  -- The selectors come to the same, and then the chosen variants differ at most inside.
  rw [expression_select, expression_select, hselector]
  refine bind_congr fun selected => ?_
  have hchosen := Variant.rel_chosen?_of_perm hkeys hdefault h hperm r.locale
    selected.toOption
  have hlocale : (r.withEntries table).locale = r.locale := rfl
  rw [hlocale]
  generalize hv : Variant.chosen? r.locale variants selected.toOption = v at hchosen
  generalize Variant.chosen? r.locale variants' selected.toOption = v' at hchosen
  cases hchosen with
  | none => rfl
  | @some v v' hreorders =>
    have htext : r.variantText o v = (r.withEntries table).variantText o' v' :=
      hvariants v (Variant.mem_of_chosen? hv) _ hreorders.value
    dsimp only
    rw [htext]

/-- Expressions and patterns write the same if the references in them do, constructor by
constructor. -/
theorem ascends_reorders (h : r.entries.Reorders table)
    (hopen : ∀ frame p p', p ∈ r.entries.patterns → Pattern.Reorders p p' →
      o frame p = o' frame p') :
    Ascends
      (fun node => node.Lawful ∧
        ∀ selector variants, node = .select selector variants → Variant.Distinct variants)
      (Unmoved r table o o')
      fun p => ∀ p', Pattern.Reorders p p' →
        r.pattern o p = (r.withEntries table).pattern o' p' where
  string l := by
    rintro _ ⟨⟩
    exact ⟨by rw [expression, expression], rfl⟩
  number l := by
    rintro _ ⟨⟩
    exact ⟨by rw [expression, expression], rfl⟩
  variableRef name _ _ := by
    rintro _ ⟨⟩
    exact ⟨by rw [expression, expression], rfl⟩
  messageRef id attr _ _ _ := by
    rintro _ ⟨⟩
    exact ⟨by rw [expression, expression, openMessage_reorders h hopen], rfl⟩
  -- Arguments may be reordered inside, but only the named ones, which are literals, reach the term.
  termRef id attr arguments _ _ _ := by
    intro e' he'
    cases he' with
    | termRef =>
      exact ⟨by rw [expression_termRef, expression_termRef, openTerm_reorders h hopen], rfl⟩
    | termCall _ _ named _ =>
      exact ⟨by rw [expression_termRef, expression_termRef, openTerm_reorders h hopen]; rfl, rfl⟩
  call name arguments _ harguments := by
    intro e' he'
    cases he' with
    | call _ named hpositional =>
      refine ⟨?_, rfl⟩
      rw [expression, expression, values_reorders hpositional harguments]
      rfl
  -- The keys are distinct, so the same variant is chosen from either order.
  select selector variants hnode hselector hvariants := by
    intro e' he'
    cases he' with
    | select hselector' hamong hperm =>
      refine ⟨?_, rfl⟩
      exact select_reorders (hnode.2 selector variants rfl) hnode.1.2 hamong hperm
        (hselector _ hselector').1 hvariants
  placeable inner hinner := by
    intro e' he'
    cases he' with
    | placeable hinner' =>
      obtain ⟨hexpression, hisolated⟩ := hinner _ hinner'
      exact ⟨by rw [expression, expression, hexpression], hisolated⟩
  pattern p _ hp := by
    intro p' hp'
    rw [pattern, pattern, ← hp'.length_eq]
    exact elements_reorders _ hp' hp

/-- A frame writes the same in both tables, by induction on the depth that is left. -/
theorem opening_reorders (hparsed : r.entries.Parsed)
    (hkeys : ∀ selector variants, .select selector variants ∈ r.entries.nodes →
      Variant.Distinct variants) (h : r.entries.Reorders table) (room : Nat) (frame : Frame)
    {p p' : Pattern} (hp : p ∈ r.entries.patterns) (hreorders : Pattern.Reorders p p') :
    opening r room frame p = opening (r.withEntries table) room frame p' := by
  induction room generalizing frame p p' with
  | zero => rw [opening, opening]
  | succ room ih =>
    -- Below the frame there is less room, so its references write the same by induction.
    have hsteps := ascends_reorders h fun frame p p' hp hreorders => ih frame hp hreorders
    have hpattern : r.pattern (r.opening room) p =
        (r.withEntries table).pattern ((r.withEntries table).opening room) p' := by
      refine hsteps.of_pattern p (fun node hnode => ?_) p' hreorders
      have hnode := EntryTable.mem_nodes hp hnode
      refine ⟨hparsed.lawful node hnode, ?_⟩
      rintro selector variants rfl
      exact hkeys selector variants hnode
    rw [opening, opening]
    dsimp only
    rw [hpattern]

/-- Where the variants of each select have different keys, it makes no difference to any text, nor
to the errors, in which order the variants stand. -/
theorem resolve_reorders (r : Resolver) {table : EntryTable} (h : r.entries.Reorders table)
    (hparsed : r.entries.Parsed)
    (hkeys : ∀ selector variants, .select selector variants ∈ r.entries.nodes →
      Variant.Distinct variants)
    (id : String) (attr : Option String) (args : Option Arguments) :
    (r.withEntries table).resolve id attr args = r.resolve id attr args := by
  have hopen := openMessage_reorders h (fun frame p p' hp hreorders =>
    opening_reorders hparsed hkeys h r.maxDepth frame hp hreorders) id attr
  have hstart : (r.withEntries table).start args = r.start args := rfl
  have hdepth : (r.withEntries table).maxDepth = r.maxDepth := rfl
  rw [resolve_eq, resolve_eq, hstart, hdepth, hopen]

/-- A select inside a select. -/
def nestedSource : String :=
  "a = \x7b $n ->\n [x] X\n [y] \x7b $m ->\n [u] U\n *[v] V\n \x7d\n *[z] Z\n \x7d\n"

/-- The same selects with their variants turned around. -/
def turnedSource : String :=
  "a = \x7b $n ->\n *[z] Z\n [y] \x7b $m ->\n *[v] V\n [u] U\n \x7d\n [x] X\n \x7d\n"

/-- The message of both sources, given the order of the variants. -/
def nestedMessage (order : List Variant → List Variant) : Message where
  id := "a"
  value := some [.placeable (.select (.variableRef "n") (order [
    ⟨.name "x", [.text "X"], false⟩,
    ⟨.name "y", [.placeable (.select (.variableRef "m") (order [
      ⟨.name "u", [.text "U"], false⟩,
      ⟨.name "v", [.text "V"], true⟩]))], false⟩,
    ⟨.name "z", [.text "Z"], true⟩]))]
  attributes := []
  comment := none
  span := ⟨0, 60⟩

/-- The message has its variants in reverse in the other source. -/
theorem nestedMessage_reorders : (nestedMessage fun variants => variants).Reorders
    (nestedMessage List.reverse) := by
  have htext (key : VariantKey) (value : String) (isDefault : Bool) :
      Variant.Reorders ⟨key, [.text value], isDefault⟩ ⟨key, [.text value], isDefault⟩ :=
    .mk key isDefault (.cons (.text value) .nil)
  have hinner := Expression.Reorders.select (.variableRef "m")
    (.cons (htext (.name "u") "U" false) (.cons (htext (.name "v") "V" true) .nil))
    (List.reverse_perm _).symm
  have houter := Expression.Reorders.select (.variableRef "n")
    (.cons (htext (.name "x") "X" false) (.cons
      (.mk (.name "y") false (.cons (.placeable hinner) .nil))
      (.cons (htext (.name "z") "Z" true) .nil)))
    (List.reverse_perm _).symm
  exact ⟨.some (.cons (.placeable houter) .nil), .nil⟩

/-- The variant that fits is chosen from the reversed source. -/
theorem resolve_reorders_nested :
    ((ofSource nestedSource).withEntries (.ofSource turnedSource)).resolve "a" none
        (some [("n", .string "y"), ("m", .string "u")]) =
      ("U", []) := by
  have hnested : (Resource.parse nestedSource).entries =
      [.message (nestedMessage fun variants => variants)] := by decide +kernel
  have hturned : (Resource.parse turnedSource).entries =
      [.message (nestedMessage List.reverse)] := by decide +kernel
  have hreorders : (ofSource nestedSource).entries.Reorders (.ofSource turnedSource) := by
    rw [entries_ofSource]
    refine EntryTable.reorders_ofSource ?_
    rw [hnested, hturned]
    exact .cons (.message rfl nestedMessage_reorders) .nil
  have hkeys : ∀ select ∈ (ofSource nestedSource).entries.nodes.filterMap Node.select?,
      Variant.Distinct select.2 := by decide +kernel
  have htext : (ofSource nestedSource).resolve "a" none
      (some [("n", .string "y"), ("m", .string "u")]) = ("U", []) := by decide +kernel
  exact (resolve_reorders (ofSource nestedSource) hreorders (parsed_entries_ofSource _)
    (fun selector variants h => hkeys (selector, variants) (List.mem_filterMap.mpr ⟨_, h, rfl⟩))
    _ _ _).trans htext

end Resolver

end Phrasebook
