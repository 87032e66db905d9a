import Phrasebook.Proofs.Reader.Contained

/-!
# Loops advance

Each step of a loop of the grammar that asks for another one has consumed a character. The loops
therefore unfold without a bound. So does the reading of a source, as every entry takes a character
at least.
-/

namespace Phrasebook.Reader

variable {α β σ : Type} {text : List Char}

/-- A successful run leaves fewer than `size` characters. -/
def Below (size : Nat) (r : Reader α) (text : List Char) : Prop :=
  Ensures r text (fun _ rest => rest.length < size) fun _ => True

/-- A contained reader leaves less than any greater size. -/
theorem Contained.below {r : Reader α} (h : Contained r) {size : Nat} (ht : text.length < size) :
    Below size r text :=
  (h List.suffix_rfl).mono (fun _ _ hr => Nat.lt_of_le_of_lt hr.length_le ht) fun _ _ => trivial

/-- What is less stays so if more is read. -/
theorem Below.bind {r : Reader α} {f : α → Reader β} {size : Nat} (h : Below size r text)
    (hf : ∀ a, Contained (f a)) : Below size (r >>= f) text :=
  Ensures.bind h fun a _ hr => (hf a).below hr

private theorem advances_of_below {step : σ → Reader (Step σ β)}
    (h : ∀ state text, Below text.length (step state) text ∨
      ∃ b rest, step state text = .ok (.done b, rest)) : Advances step := by
  intro state text next rest hs
  rcases h state text with hb | ⟨b, rest', hd⟩
  · exact hb.ok hs
  · rw [hs] at hd
    cases hd

/-- Every step of a string reads a character. -/
theorem advances_stringStep : Advances stringStep := by
  refine advances_of_below fun read text => ?_
  cases text with
  | nil => exact Or.inl trivial
  | cons c rest =>
    rw [Below, Ensures, stringStep_cons]
    have hlt : rest.length < (c :: rest).length := Nat.lt_succ_self _
    split_ifs
    · exact Or.inr ⟨_, _, rfl⟩
    · exact Or.inl ((contained_escape.bind fun _ => contained_pure _).below hlt)
    · exact Or.inl trivial
    · exact Or.inl hlt

/-- Text before a line end or a placeable is not empty where neither stands at once. -/
theorem below_textSegment {c : Char} (rest : List Char) (hc : c ≠ '{') (indent : Option Nat) :
    Below (c :: rest).length (textSegment indent) (c :: rest) := by
  rw [Below, Ensures, textSegment_apply]
  by_cases ht : isTextChar c
  · have hlt : ((c :: rest).dropWhile isTextChar).length < (c :: rest).length := by
      rw [List.dropWhile_cons_of_pos ht]
      exact Nat.lt_succ_of_le (List.dropWhile_suffix _).length_le
    split_ifs
    · trivial
    · cases he : Text.afterLineEnd? ((c :: rest).dropWhile isTextChar) with
      | none => exact hlt
      | some after => exact (Text.afterLineEnd?_length_lt he).trans hlt
  · rw [List.dropWhile_cons_of_neg ht]
    split_ifs with hb
    · trivial
    · have hbreak : Text.isBreak c := by
        simp_all [isTextChar]
      obtain ⟨after, he⟩ := Text.afterLineEnd?_isSome_of_isBreak hbreak rest
      rw [he]
      exact Text.afterLineEnd?_length_lt he

section Placeable

variable {placeable : Reader Expression}

private theorem below_some {r : Reader Segment} {size : Nat} (h : Below size r text) :
    Below size (r >>= fun segment => pure (some segment)) text :=
  h.bind fun _ => contained_pure _

private theorem below_inLine (h : Contained placeable) (text : List Char) :
    inLine placeable text = .ok (none, []) ∨ Below text.length (inLine placeable) text := by
  cases text with
  | nil => exact Or.inl rfl
  | cons c rest =>
    refine Or.inr ?_
    rw [Below, Ensures, inLine_cons]
    split_ifs with hc
    · exact (h.bind fun _ => contained_pure _).below (Nat.lt_succ_self _)
    · exact below_some (below_textSegment rest hc none)

private theorem below_atLine (h : Contained placeable) (text : List Char) :
    (∃ rest, atLine placeable text = .ok (none, rest)) ∨
      Below text.length (atLine placeable) text := by
  have hle := (List.dropWhile_suffix (· == ' ') (l := text)).length_le
  rw [Below, Ensures, atLine_apply]
  cases hd : text.dropWhile (· == ' ') with
  | nil => exact Or.inl ⟨[], rfl⟩
  | cons c rest =>
    rw [hd] at hle
    have htext (hc : c ≠ '{') (indent : Option Nat) :
        Below text.length (textSegment indent >>= fun segment => pure (some segment))
          (c :: rest) :=
      (below_some (below_textSegment rest hc indent)).mono
        (fun _ _ hr => Nat.lt_of_lt_of_le hr hle) fun _ hf => hf
    dsimp only
    split_ifs with hc hi hb he
    · exact Or.inr ((h.bind fun _ => contained_pure _).below (Nat.lt_of_succ_le hle))
    · exact Or.inr (htext hc _)
    · exact Or.inl ⟨_, rfl⟩
    · exact Or.inl ⟨_, rfl⟩
    · exact Or.inr (htext hc _)

/-- Every step of a pattern reads a character. -/
theorem advances_segmentStep (h : Contained placeable) (startsLine : Bool) :
    Advances (segmentStep placeable startsLine) := by
  intro read text next rest hs
  rw [segmentStep_eq] at hs
  obtain ⟨segment, mid, hsegment, hs⟩ := bind_eq_ok hs
  cases segment with
  | none => cases hs
  | some segment =>
    cases hs
    have hnext : (∃ rest, nextSegment placeable startsLine read text = .ok (none, rest)) ∨
        Below text.length (nextSegment placeable startsLine read) text := by
      unfold nextSegment
      split_ifs
      · exact below_atLine h text
      · exact (below_inLine h text).imp_left fun hr => ⟨[], hr⟩
    rcases hnext with ⟨rest, hr⟩ | hb
    · rw [hsegment] at hr
      cases hr
    · exact hb.ok hsegment

end Placeable

section Nested

variable {nested : Nested}

/-- An identifier has a character. -/
theorem below_identifier (text : List Char) : Below text.length identifier text := by
  cases text with
  | nil => exact trivial
  | cons c rest =>
    rw [Below, Ensures, identifier]
    split_ifs
    · exact Nat.lt_succ_of_le (List.dropWhile_suffix _).length_le
    · trivial

private theorem below_nameReference (h : nested.Contained) (text : List Char) :
    Below text.length (nameReference nested) text := by
  refine (below_identifier text).bind fun id => contained_accessor.bind fun attr => ?_
  split
  · exact contained_pure _
  · refine contained_reachArguments.bind fun reached => ?_
    split
    · split
      · exact contained_fail_bind _ _
      · exact h.arguments.bind fun _ => contained_pure _
    · exact contained_pure _

private theorem below_reference (h : nested.Contained) (text : List Char) :
    Below text.length (reference nested) text := by
  cases text with
  | nil => exact trivial
  | cons c rest =>
    have hlt : rest.length < (c :: rest).length := Nat.lt_succ_self _
    rw [Below, Ensures, reference_cons]
    split_ifs
    · exact (contained_identifier.bind fun _ => contained_pure _).below hlt
    · exact (contained_termReference h).below hlt
    · exact (h.placeable.bind fun _ => contained_pure _).below hlt
    · exact below_nameReference h (c :: rest)
    · trivial

private theorem below_expect (c : Char) (text : List Char) :
    Below text.length (expect c) text := by
  rw [Below, Ensures, expect_apply]
  cases text with
  | nil => trivial
  | cons d rest =>
    dsimp only
    split_ifs
    · exact Nat.lt_succ_self _
    · trivial

/-- A string has its quotes. -/
theorem below_stringLiteral (text : List Char) : Below text.length stringLiteral text :=
  (below_expect '"' text).bind fun _ => (Contained.withText (.loop contained_stringStep [])).bind
    fun _ => contained_advance.bind fun _ => contained_pure _

private theorem below_digits (text : List Char) : Below text.length digits text := by
  rw [Below, Ensures, digits, bind_ok (takeWhile_apply _ _)]
  cases text with
  | nil => trivial
  | cons c rest =>
    by_cases hc : c.isDigit
    · rw [List.takeWhile_cons_of_pos hc, List.dropWhile_cons_of_pos hc]
      exact Nat.lt_succ_of_le (List.dropWhile_suffix Char.isDigit).length_le
    · rw [List.takeWhile_cons_of_neg hc]
      trivial

/-- A number has a digit. -/
theorem below_numberLiteral (text : List Char) : Below text.length numberLiteral text := by
  unfold numberLiteral
  refine Ensures.bind ((contained_accept '-') List.suffix_rfl |>.mono
    (fun _ _ h => h) fun _ _ => trivial) fun negative rest hrest => ?_
  have hbelow : Below rest.length (do
      let whole ← digits
      return NumberLiteral.ofDigits negative whole (← fraction)) rest :=
    (below_digits rest).bind fun _ => contained_fraction.bind fun _ => contained_pure _
  exact hbelow.mono (fun _ _ hr => Nat.lt_of_lt_of_le hr hrest.length_le) fun _ h => h

private theorem below_inlineExpression (h : nested.Contained) (text : List Char) :
    Below text.length (inlineExpression nested) text := by
  rw [Below, Ensures, inlineExpression_apply]
  split_ifs
  · exact (below_stringLiteral text).bind fun _ => contained_pure _
  · exact (below_numberLiteral text).bind fun _ => contained_pure _
  · exact below_reference h text

/-- Every step of an argument list reads a character. -/
theorem advances_argumentStep (h : nested.Contained) : Advances (argumentStep nested) := by
  refine advances_of_below fun arguments text => ?_
  have hle := (List.dropWhile_suffix Text.isBlank (l := text)).length_le
  rw [Below, Ensures, argumentStep_apply]
  split_ifs
  · exact Or.inr ⟨_, _, rfl⟩
  · have hbelow : Below (text.dropWhile Text.isBlank).length (argumentAndComma nested arguments)
        (text.dropWhile Text.isBlank) := by
      rw [argumentAndComma, argument_eq, bind_assoc]
      exact (below_inlineExpression h _).bind fun expression =>
        (contained_argumentEnd arguments expression).bind fun _ => contained_skipBlanks.bind
          fun _ => (contained_accept ',').bind fun _ => contained_pure _
    exact Or.inl (hbelow.mono (fun _ _ hr => Nat.lt_of_lt_of_le hr hle) fun _ hf => hf)

/-- Every step of a variant list reads a character. -/
theorem advances_variantStep (h : nested.Contained) : Advances (variantStep nested) := by
  refine advances_of_below fun read text => ?_
  cases text with
  | nil => exact Or.inr ⟨_, _, rfl⟩
  | cons c rest =>
    have hvariant (isDefault : Bool) (text : List Char) :
        Below text.length (variant nested isDefault >>= fun v =>
          pure (.again (v :: read) : Step (List Variant) (List Variant))) text := by
      refine Below.bind ((below_expect '[' text).bind fun _ => contained_variantKey.bind fun key =>
        (contained_pattern h.placeable).bind fun value => ?_) fun _ => contained_pure _
      split
      · exact contained_fail _
      · exact contained_skipBlanks.bind fun _ => contained_pure _
    rw [Below, Ensures, variantStep_cons]
    split_ifs
    · exact Or.inl trivial
    · exact Or.inl ((hvariant true rest).mono (fun _ _ hr => Nat.lt_succ_of_lt hr) fun _ hf => hf)
    · exact Or.inl (hvariant false (c :: rest))
    · exact Or.inr ⟨_, _, rfl⟩

end Nested

/-- Every step of an attribute list reads a character. -/
theorem advances_attributeStep : Advances attributeStep := by
  refine advances_of_below fun read text => ?_
  have hle := (List.dropWhile_suffix (· == ' ') (l := text)).length_le
  rw [Below, Ensures, attributeStep_apply]
  rcases hd : text.dropWhile (· == ' ') with _ | ⟨c, rest⟩
  · exact Or.inr ⟨_, _, rfl⟩
  rw [hd] at hle
  by_cases hc : c = '.'
  · subst hc
    have hbody : Contained attributeBody := by
      refine contained_definition.bind fun _ => ?_
      split
      · exact contained_pure _
      · exact contained_fail _
    exact Or.inl ((hbody.bind fun _ => contained_pure _).below (Nat.lt_of_succ_le hle))
  · refine Or.inr ⟨read.reverse, text, ?_⟩
    simp [hc]

/-- Every step of a comment reads a character. -/
theorem advances_commentStep (level : CommentLevel) : Advances (commentStep level) := by
  refine advances_of_below fun read text => ?_
  rw [Below, Ensures, commentStep_apply]
  cases hp : afterSigil? level text with
  | none => exact Or.inr ⟨_, _, rfl⟩
  | some rest =>
    have hlt : rest.length < text.length := by
      have hpos : 0 < level.sigil.toList.length := by cases level <;> decide
      have hlen := congrArg List.length (afterSigil?_eq_some hp).1
      rw [List.length_append] at hlen
      omega
    exact Or.inl ((contained_commentLine.bind fun _ => contained_pure _).below hlt)

/-! ## Entries -/

private theorem below_withText {r : Reader α} {size : Nat} (h : Below size r text) :
    Below size (withText r) text := by
  rw [Below, Ensures, withText]
  rcases hr : r text with failure | ⟨a, rest⟩
  · trivial
  · exact h.ok hr

/-- A message has a name. -/
theorem below_messageBody (text : List Char) : Below text.length messageBody text := by
  have hdefinition : Below text.length definition text :=
    (below_identifier text).bind fun _ => contained_skipSpaces.bind fun _ =>
      (contained_expect '=').bind fun _ => contained_entryPattern.bind fun _ => contained_pure _
  refine hdefinition.bind fun _ => contained_attributes.bind fun _ => ?_
  dsimp only
  split
  · exact contained_fail_bind _ _
  · exact contained_pure _

/-- A term has its hyphen. -/
theorem below_termBody (text : List Char) : Below text.length termBody text := by
  refine (below_expect '-' text).bind fun _ => contained_definition.bind fun _ => ?_
  split
  · exact contained_fail _
  · exact contained_attributes.bind fun _ => contained_pure _

private theorem below_comment (text : List Char) : Below text.length comment text := by
  have hlevel : Below text.length commentLevel text := by
    rw [Below, Ensures]
    cases hr : commentLevel text with
    | error failure => trivial
    | ok result =>
      unfold commentLevel at hr
      split at hr <;> cases hr <;> simp only [List.length_cons] <;> omega
  exact hlevel.bind fun level => contained_commentLine.bind fun _ =>
    (Contained.loop (contained_commentStep level) _).bind fun _ => contained_pure _

/-- An entry takes at least one character. -/
theorem below_entry (offset : Nat) (text : List Char) : Below text.length (entry offset) text := by
  rw [Below, Ensures, entry_apply]
  split_ifs
  · exact (below_comment text).bind fun _ => contained_pure _
  · exact ((below_withText (below_termBody text)).bind fun _ => contained_pure _).bind
      fun _ => contained_pure _
  · exact ((below_withText (below_messageBody text)).bind fun _ => contained_pure _).bind
      fun _ => contained_pure _

end Phrasebook.Reader
