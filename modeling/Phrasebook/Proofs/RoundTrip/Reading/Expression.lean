import Phrasebook.Proofs.RoundTrip.Reading.Pattern

/-!
# What reading makes of expressions

Every expression that is read has the shape of its level, whatever the level: each reader of the
grammar yields what the shape says if the readers one level deeper do.
-/

namespace Phrasebook.Reader

variable {α β σ : Type} {source : List Char}

/-- On the endings of a source a reader yields results of one kind, and leaves endings. -/
def Yields (source : List Char) (r : Reader α) (P : α → Prop) : Prop :=
  ∀ ⦃text⦄, text <:+ source → Ensures r text (fun a rest => P a ∧ rest <:+ source) fun _ => True

variable {r : Reader α} {P : α → Prop} {Q : β → Prop}

/-- What a reader that stays inside its text ensures on every ending of a source, it yields
there. -/
theorem Contained.yields (h : Contained r)
    (hr : ∀ text, text <:+ source → Ensures r text (fun a _ => P a) fun _ => True) :
    Yields source r P :=
  fun _ htext => (hr _ htext).and (h.ensures htext)

/-- A reader that stays inside its text yields something of which nothing is said. -/
theorem Contained.yields_true (h : Contained r) : Yields source r fun _ => True :=
  h.yields fun _ htext => (h.ensures htext).mono (fun _ _ _ => trivial) fun _ _ => trivial

/-- A result that is there already is yielded without reading. -/
theorem yields_pure {a : α} (h : P a) : Yields source (pure a) P := fun _ htext => ⟨h, htext⟩

/-- A reader that fails yields results of any kind. -/
theorem yields_fail (problem : Problem) : Yields source (fail problem) P := fun _ _ => trivial

/-- Two readers in a row yield what the second one yields for the results of the first. -/
theorem Yields.bind {f : α → Reader β} (h : Yields source r P)
    (hf : ∀ a, P a → Yields source (f a) Q) : Yields source (r >>= f) Q :=
  fun _ htext => Ensures.bind (h htext) fun a _ hr => hf a hr.1 hr.2

/-- A result of a reader may be worked on further inside a sequence of readers. -/
theorem Yields.bind_pure {f : α → β} (h : Yields source r P) (hf : ∀ a, P a → Q (f a)) :
    Yields source (r >>= fun a => pure (f a)) Q :=
  h.bind fun a ha => yields_pure (hf a ha)

/-- A function that takes one kind of result to another does so for what a reader yields. -/
theorem Yields.map {f : α → β} (h : Yields source r P) (hf : ∀ a, P a → Q (f a)) :
    Yields source (f <$> r) Q :=
  fun _ htext => Ensures.map ((h htext).mono (fun a _ hr => ⟨hf a hr.1, hr.2⟩) fun _ h => h)

/-- The kind of result that a reader yields may be widened. -/
theorem Yields.mono {P' : α → Prop} (h : Yields source r P) (hP : ∀ a, P a → P' a) :
    Yields source r P' :=
  fun _ htext => (h htext).mono (fun a _ hr => ⟨hP a hr.1, hr.2⟩) fun _ h => h

/-- What a step of a loop yields: a state to go on from, or the result. -/
def StepKind (P : σ → Prop) (Q : β → Prop) : Step σ β → Prop
  | .again state => P state
  | .done result => Q result

/-- A loop whose steps keep a state to one kind yields results of the kind its steps end with. -/
theorem Yields.loop {step : σ → Reader (Step σ β)} {P : σ → Prop}
    (hstep : ∀ state, P state → Yields source (step state) (StepKind P Q)) {start : σ}
    (hstart : P start) : Yields source (loop step start) Q := by
  intro text htext
  refine Ensures.loop (I := fun state rest => P state ∧ rest <:+ source) ?_ (fun _ _ _ => trivial)
    ⟨hstart, htext⟩
  rintro state rest ⟨hstate, hrest⟩
  refine (hstep state hstate hrest).mono ?_ fun _ h => h
  rintro (next | result) after h <;> exact h

/-- What is read as an identifier is one. -/
theorem yields_identifier : Yields source identifier IsIdentifier :=
  contained_identifier.yields fun text _ => identifier_sound text

/-- A number that is read is written in the form of a number literal. -/
theorem yields_numberLiteral : Yields source numberLiteral NumberLiteral.Sound :=
  contained_numberLiteral.yields fun text _ => numberLiteral_sound text

/-- A string that is read stands on one line, and is read back from the text it has in the
source. -/
theorem yields_stringLiteral : Yields source stringLiteral StringLiteral.Sound :=
  contained_stringLiteral.yields fun text _ => stringLiteral_sound text

/-- A literal that is read is a sound number or a sound string. -/
theorem yields_literal : Yields source literal Literal.Sound :=
  contained_literal.yields fun text _ => literal_sound text

/-- An attribute that is referred to is named by an identifier. -/
theorem yields_accessor : Yields source accessor fun attr => ∀ a ∈ attr, IsIdentifier a := by
  refine (contained_accept '.').yields_true.bind fun accepted _ => ?_
  split
  · refine yields_identifier.bind fun id hid => yields_pure ?_
    rintro _ ⟨⟩
    exact hid
  · exact yields_pure (by rintro _ ⟨⟩)

variable {shape : Shape} {nested : Nested}

/-- The readers one level deeper yield what the shape says. -/
structure Nested.Yields (source : List Char) (nested : Nested) (shape : Shape) : Prop where
  contained : nested.Contained
  placeable : Reader.Yields source nested.placeable shape.placeable
  arguments : Reader.Yields source nested.arguments shape.arguments
  pattern : ∀ p : Pattern, p.Sound → (BraceFree source → p.Aligned) → shape.pattern p

variable (h : Nested.Yields source nested shape)
include h

/-- A pattern that is read is one of its shape, if what stands in its placeables is. -/
theorem yields_pattern :
    Yields source (pattern nested.placeable) fun value => ∀ p ∈ value, shape.Value p := by
  refine (contained_pattern h.contained.placeable).yields fun text htext => ?_
  refine value_pattern h.contained.placeable ?_ h.pattern htext
  exact fun rest hrest => (h.placeable hrest).mono (fun _ _ hr => hr.1) fun _ h => h

/-! ## References -/

private theorem yields_termReference : Yields source (termReference nested) shape.Inline := by
  refine yields_identifier.bind fun id hid => yields_accessor.bind fun attr hattr =>
    contained_reachArguments.yields_true.bind fun reached _ => ?_
  split
  · refine h.arguments.bind fun arguments harguments => yields_pure ⟨hid, hattr, ?_⟩
    rintro _ ⟨⟩
    exact harguments
  · exact yields_pure ⟨hid, hattr, by rintro _ ⟨⟩⟩

private theorem yields_nameReference : Yields source (nameReference nested) shape.Inline := by
  refine yields_identifier.bind fun id hid => yields_accessor.bind fun attr hattr => ?_
  split
  · next name =>
    refine yields_pure ⟨hid, ?_⟩
    exact hattr
  · refine contained_reachArguments.yields_true.bind fun reached _ => ?_
    split
    · by_cases hcallee : isCallee id
      · simp only [hcallee, Bool.not_true, Bool.false_eq_true, if_false]
        exact h.arguments.bind fun arguments harguments => yields_pure ⟨hid, hcallee, harguments⟩
      · simp only [hcallee, Bool.not_false, if_true]
        exact yields_fail _
    · exact yields_pure ⟨hid, by rintro _ ⟨⟩⟩

/-- An inline expression that is read is one of its shape. -/
theorem yields_inlineExpression : Yields source (inlineExpression nested) shape.Inline := by
  intro text htext
  rw [Ensures, inlineExpression_apply]
  split_ifs
  · exact Yields.bind_pure (f := .string) (Q := shape.Inline) yields_stringLiteral
      (fun _ hl => hl) htext
  · exact Yields.bind_pure (f := .number) (Q := shape.Inline) yields_numberLiteral
      (fun _ hl => hl) htext
  rcases text with _ | ⟨c, rest⟩
  · trivial
  have hrest : rest <:+ source := (List.suffix_cons c rest).trans htext
  rw [reference_cons]
  split_ifs
  · exact Yields.bind_pure (f := .variableRef) (Q := shape.Inline) yields_identifier
      (fun _ h => h) hrest
  · exact yields_termReference h hrest
  · exact Yields.bind_pure (f := .placeable) (Q := shape.Inline) h.placeable (fun _ he => he) hrest
  · exact yields_nameReference h htext
  · trivial

/-! ## Arguments -/

omit h in
private theorem yields_namedArgument {arguments : CallArguments} {e : Expression}
    (harguments : shape.Listed arguments) (he : shape.Inline e) :
    Yields source (namedArgument arguments e) shape.Listed := by
  unfold namedArgument
  split
  · next name =>
    refine contained_skipBlanks.yields_true.bind fun _ _ =>
      yields_literal.bind fun value hvalue => ?_
    by_cases hany : arguments.named.any (·.name == name)
    · simp only [hany, if_true]
      exact yields_fail _
    · simp only [hany]
      refine yields_pure ⟨harguments.positional, ?_, ?_⟩
      · intro n hn
        rcases List.mem_append.mp hn with hn | hn
        · exact harguments.named n hn
        · obtain rfl := List.mem_singleton.mp hn
          exact ⟨he.1, hvalue⟩
      · rw [List.map_append, List.nodup_append]
        refine ⟨harguments.distinct, by simp, ?_⟩
        intro a ha b hb
        rw [List.map_singleton, List.mem_singleton] at hb
        rintro rfl
        obtain ⟨n, hn, hname⟩ := List.mem_map.mp ha
        refine hany (List.any_eq_true.mpr ⟨n, hn, ?_⟩)
        rw [beq_iff_eq, hname, hb]
  · exact yields_fail _

omit h in
private theorem yields_positionalArgument {arguments : CallArguments} {e : Expression}
    (harguments : shape.Listed arguments) (he : shape.Inline e) :
    Yields source (positionalArgument arguments e) shape.Listed := by
  unfold positionalArgument
  split
  · refine yields_pure ⟨?_, harguments.named, harguments.distinct⟩
    intro e' he'
    rcases List.mem_append.mp he' with he' | he'
    · exact harguments.positional e' he'
    · obtain rfl := List.mem_singleton.mp he'
      exact he
  · exact yields_fail _

private theorem yields_argumentStep (arguments : CallArguments)
    (harguments : shape.Listed arguments) :
    Yields source (argumentStep nested arguments) (StepKind shape.Listed shape.Listed) := by
  have hargument : Yields source (argument nested arguments) shape.Listed := by
    rw [argument_eq]
    refine (yields_inlineExpression h).bind fun e he =>
      contained_skipBlanks.yields_true.bind fun _ _ =>
        (contained_accept ':').yields_true.bind fun named _ => ?_
    split
    · exact yields_namedArgument harguments he
    · exact yields_positionalArgument harguments he
  have hnext : Yields source (argumentAndComma nested arguments)
      (StepKind shape.Listed shape.Listed) := by
    refine hargument.bind fun arguments harguments =>
      contained_skipBlanks.yields_true.bind fun _ _ =>
        (contained_accept ',').yields_true.bind fun comma _ => ?_
    split
    · exact yields_pure harguments
    · exact yields_pure harguments
  intro text htext
  have hrest := (List.dropWhile_suffix Text.isBlank (l := text)).trans htext
  rw [Ensures, argumentStep_apply]
  split_ifs
  · exact ⟨harguments, hrest⟩
  · exact hnext hrest

private theorem yields_argumentList : Yields source (argumentList nested) shape.Listed := by
  refine (contained_expect '(').yields_true.bind fun _ _ => ?_
  refine (Yields.loop (yields_argumentStep h) ⟨by simp, by simp, by simp⟩).bind
    fun arguments harguments => contained_skipBlanks.yields_true.bind fun _ _ =>
      (contained_expect ')').yields_true.bind fun _ _ => yields_pure harguments

/-! ## Select expressions -/

omit h in
private theorem yields_variantKey : Yields source variantKey VariantKey.Sound := by
  have hbare : Yields source bareKey VariantKey.Sound := by
    intro text htext
    rcases text with _ | ⟨c, rest⟩
    · trivial
    rw [Ensures, bareKey_cons]
    split_ifs
    · trivial
    · exact Yields.map (f := .number) (Q := VariantKey.Sound) yields_numberLiteral
        (fun _ hl => hl) htext
    · exact Yields.map (f := .name) (Q := VariantKey.Sound) yields_identifier
        (fun _ hid => hid) htext
  rw [variantKey_eq]
  exact contained_skipBlanks.yields_true.bind fun _ _ => hbare.bind fun key hkey =>
    contained_skipBlanks.yields_true.bind fun _ _ =>
      (contained_expect ']').yields_true.bind fun _ _ => yields_pure hkey

private theorem yields_variant (isDefault : Bool) :
    Yields source (variant nested isDefault)
      fun v => (v.key.Sound ∧ shape.Value v.value) ∧ v.isDefault = isDefault := by
  refine (contained_expect '[').yields_true.bind fun _ _ => yields_variantKey.bind fun key hkey =>
    (yields_pattern h).bind fun value hvalue => ?_
  split
  · exact yields_fail _
  · exact contained_skipBlanks.yields_true.bind fun _ _ =>
      yields_pure ⟨⟨hkey, hvalue _ rfl⟩, rfl⟩

/-- The variants so far, of which at most one is the default. -/
private def ArmsSoFar (shape : Shape) (read : List Variant) : Prop :=
  (∀ v ∈ read, v.key.Sound ∧ shape.Value v.value) ∧ read.countP (·.isDefault) ≤ 1

omit h in
private theorem ArmsSoFar.cons {read : List Variant} {v : Variant} (hread : ArmsSoFar shape read)
    (hv : v.key.Sound ∧ shape.Value v.value)
    (hdefault : v.isDefault → read.any (·.isDefault) = false) : ArmsSoFar shape (v :: read) := by
  refine ⟨?_, ?_⟩
  · intro w hw
    rcases List.mem_cons.mp hw with rfl | hw
    · exact hv
    · exact hread.1 w hw
  · by_cases hd : v.isDefault
    · have hnone : read.countP (·.isDefault) = 0 := by
        rw [List.countP_eq_zero]
        intro w hw hwd
        exact absurd (List.any_eq_true.mpr ⟨w, hw, hwd⟩) (by simp [hdefault hd])
      rw [List.countP_cons_of_pos hd, hnone]
    · rw [List.countP_cons_of_neg hd]
      exact hread.2

private theorem yields_variants : Yields source (variants nested) shape.Arms := by
  refine contained_skipBlanks.yields_true.bind fun _ _ => ?_
  refine (Yields.loop (P := ArmsSoFar shape) (Q := ArmsSoFar shape) ?_ ⟨by simp, by simp⟩).bind
    fun variants hvariants => ?_
  -- The loop keeps to one default at most, and the check behind it asks for one.
  · intro read hread text htext
    have hdone : ArmsSoFar shape read.reverse := by
      refine ⟨fun v hv => hread.1 v (List.mem_reverse.mp hv), ?_⟩
      rw [List.countP_reverse]
      exact hread.2
    rcases text with _ | ⟨c, rest⟩
    · exact ⟨hdone, htext⟩
    have hrest : rest <:+ source := (List.suffix_cons c rest).trans htext
    rw [Ensures, variantStep_cons]
    split_ifs with h₁ h₂ h₃
    · trivial
    · refine Yields.bind_pure (f := fun v => .again (v :: read))
        (Q := StepKind (ArmsSoFar shape) (ArmsSoFar shape)) (yields_variant h true) ?_ hrest
      exact fun v hv => hread.cons hv.1 fun _ => by simpa using h₂
    · refine Yields.bind_pure (f := fun v => .again (v :: read))
        (Q := StepKind (ArmsSoFar shape) (ArmsSoFar shape)) (yields_variant h false) ?_ htext
      intro v hv
      refine hread.cons hv.1 fun hd => ?_
      rw [hv.2] at hd
      cases hd
    · exact ⟨hdone, htext⟩
  · by_cases hempty : variants.isEmpty
    · simp only [hempty, if_true]
      exact yields_fail _
    by_cases hany : variants.any (·.isDefault)
    · simp only [hempty, hany, Bool.not_true, Bool.false_eq_true, if_false]
      refine yields_pure ⟨by simpa using hempty, fun v hv => (hvariants.1 v hv).1,
        fun v hv => (hvariants.1 v hv).2, ?_⟩
      obtain ⟨v, hv, hdefault⟩ := List.any_eq_true.mp hany
      have hpos : 0 < variants.countP (·.isDefault) := List.countP_pos_iff.mpr ⟨v, hv, hdefault⟩
      have hle := hvariants.2
      omega
    · simp only [hempty, hany, Bool.not_false, if_true, Bool.false_eq_true, if_false]
      exact yields_fail _

omit h in
private theorem yields_standalone {e : Expression} (he : shape.Inline e) :
    Yields source (standalone e) shape.Full := by
  unfold standalone
  split
  · exact yields_fail _
  · next hattr =>
    refine yields_pure ?_
    cases e with
    | select selector variants => exact he.elim
    | termRef id attr arguments =>
      cases attr with
      | none => exact he
      | some attr => exact absurd rfl (hattr id attr arguments)
    | _ => exact he

private theorem yields_expression : Yields source (expression nested) shape.Full := by
  rw [expression_eq]
  refine (yields_inlineExpression h).bind fun selector hselector =>
    contained_skipBlanks.yields_true.bind fun _ _ => ?_
  have hselection (hproblem : selectorProblem? selector = none) :
      Yields source (selection nested selector) shape.Full := by
    refine contained_skipSpaces.yields_true.bind fun _ _ =>
      contained_acceptLineEnd.yields_true.bind fun ended _ => ?_
    split
    · exact yields_fail _
    · exact (yields_variants h).bind fun variants hvariants =>
        yields_pure ⟨hselector, hproblem, hvariants⟩
  intro text htext
  by_cases harrow : ∃ rest, text = '-' :: '>' :: rest
  · obtain ⟨rest, rfl⟩ := harrow
    have hrest : rest <:+ source :=
      (List.suffix_cons _ _).trans ((List.suffix_cons _ _).trans htext)
    rw [Ensures, expressionFrom_arrow]
    cases hproblem : selectorProblem? selector with
    | some problem => trivial
    | none => exact hselection hproblem hrest
  · have hne : ∀ rest, text ≠ '-' :: '>' :: rest := fun rest hrest => harrow ⟨rest, hrest⟩
    rw [Ensures, expressionFrom_of_ne nested selector hne]
    exact yields_standalone hselector htext

omit h in
/-- Each level of the grammar yields the shape of that level. -/
theorem yields_levels {Q : Pattern → Prop}
    (hQ : ∀ p : Pattern, p.Sound → (BraceFree source → p.Aligned) → Q p) (level : Nat) :
    (Nested.levels level).Yields source (Shape.levels Q level) := by
  induction level with
  | zero =>
    exact
      { contained := contained_levels 0
        placeable := yields_fail _
        arguments := yields_fail _
        pattern := hQ }
  | succ level ih =>
    exact
      { contained := contained_levels (level + 1)
        placeable := contained_skipBlanks.yields_true.bind fun _ _ =>
          (yields_expression ih).bind fun e he => contained_skipBlanks.yields_true.bind fun _ _ =>
            (contained_expect '}').yields_true.bind fun _ _ => yields_pure he
        arguments := yields_argumentList ih
        pattern := hQ }

end Phrasebook.Reader
