import Mathlib.Data.List.Basic
import Phrasebook.Proofs.Reader.Ensures
import Phrasebook.Proofs.Reader.Steps
import Phrasebook.Proofs.Text

/-!
# Readers leave an ending of their text

Every reader of the grammar, whether it succeeds or fails, leaves an ending of the text it was
given. Readers that look ahead go back only to a place they have been at. From this follows that the
steps of all loops advance.
-/

namespace Phrasebook.Reader

variable {α β σ : Type} {whole text : List Char}

/-- Two readers stay within a text if the first does and the second does wherever that ends. -/
theorem Within.bind {r : Reader α} {f : α → Reader β} (h : Within whole r text)
    (hf : ∀ a rest, rest <:+ whole → Within whole (f a) rest) : Within whole (r >>= f) text :=
  Ensures.bind h hf

/-- Nothing is read by returning a value. -/
theorem contained_pure (a : α) : Contained (pure a : Reader α) := fun _ _ h => h

/-- Nothing is read by failing. -/
theorem contained_fail (problem : Problem) : Contained (fail problem : Reader α) := fun _ _ h => h

/-- A reader that begins by failing reads nothing. -/
theorem contained_fail_bind (problem : Problem) (f : α → Reader β) :
    Contained (fail problem >>= f) := fun _ _ h => h

/-- Two contained readers are contained one after the other. -/
theorem Contained.bind {r : Reader α} {f : α → Reader β} (h : Contained r)
    (hf : ∀ a, Contained (f a)) : Contained (r >>= f) :=
  fun _ _ ht => (h ht).bind fun a _ hr => hf a hr

/-- To change the result is not to read. -/
theorem Contained.map {r : Reader α} (h : Contained r) (f : α → β) : Contained (f <$> r) :=
  fun _ _ ht => Ensures.map (h ht)

/-- Looking at the next character reads nothing. -/
theorem contained_peek : Contained peek := fun _ _ h => h

/-- Skipping a character leaves a suffix. -/
theorem contained_advance : Contained advance :=
  fun _ text h => (List.tail_suffix text).trans h

/-- Reading characters that satisfy a condition leaves a suffix. -/
theorem contained_takeWhile (p : Char → Bool) : Contained (takeWhile p) :=
  fun _ _ h => (List.dropWhile_suffix p).trans h

/-- Skipping spaces leaves a suffix. -/
theorem contained_skipSpaces : Contained skipSpaces :=
  fun _ _ h => (List.dropWhile_suffix _).trans h

/-- Skipping blanks leaves a suffix. -/
theorem contained_skipBlanks : Contained skipBlanks :=
  fun _ _ h => (List.dropWhile_suffix _).trans h

/-- A character that may follow is read within the text. -/
theorem contained_accept (c : Char) : Contained (accept c) := by
  intro whole text h
  cases text with
  | nil => exact h
  | cons d rest =>
    by_cases hd : d = c
    · simpa [Within, Ensures, hd] using (List.suffix_cons d rest).trans h
    · simpa [Within, Ensures, hd] using h

/-- A character that has to follow is read within the text. -/
theorem contained_expect (c : Char) : Contained (expect c) := by
  refine (contained_accept c).bind fun accepted => ?_
  cases accepted
  · exact contained_fail _
  · exact contained_pure _

/-- A line end that may follow is read within the text. -/
theorem contained_acceptLineEnd : Contained acceptLineEnd := by
  intro whole text h
  unfold Within Ensures acceptLineEnd
  cases he : Text.afterLineEnd? text with
  | none => exact h
  | some rest => exact (Text.afterLineEnd?_suffix he).trans h

/-- Skipping blank lines leaves a suffix. -/
theorem contained_skipBlankLines : Contained skipBlankLines :=
  fun _ text h => (Text.dropBlankLines_suffix text).trans h

/-- A reader that also tells its text is contained if it is so without. -/
theorem Contained.withText {r : Reader α} (h : Contained r) : Contained (withText r) := by
  intro whole text ht
  have hr := h ht
  unfold Within Ensures Reader.withText at *
  cases hrun : r text with
  | error failure => simpa only [hrun] using hr
  | ok result => simpa only [hrun] using hr

/-- A loop is contained if its steps are. -/
theorem Contained.loop {step : σ → Reader (Step σ β)} (h : ∀ state, Contained (step state))
    (state : σ) : Contained (loop step state) := by
  intro whole text ht
  refine Ensures.loop (I := fun _ rest => rest <:+ whole) ?_ (fun _ _ hr => hr) ht
  intro state text hr
  refine (h state hr).mono (fun outcome rest hrest => ?_) fun _ hf => hf
  cases outcome <;> exact hrest

/-- Identifiers are read within the text. -/
theorem contained_identifier : Contained identifier := by
  intro whole text h
  unfold Within Ensures
  cases text with
  | nil => exact h
  | cons c rest =>
    by_cases hc : c.isAlpha
    · simpa [identifier, hc] using
        (List.dropWhile_suffix _).trans ((List.suffix_cons c rest).trans h)
    · simpa [identifier, hc] using h

/-! ## Literals -/

/-- Digits are read within the text. -/
theorem contained_digits : Contained digits := by
  refine (contained_takeWhile _).bind fun ds => ?_
  dsimp only
  split
  · exact contained_fail_bind _ _
  · exact contained_pure _

/-- The fraction of a number is read within the text. -/
theorem contained_fraction : Contained fraction := by
  intro whole text h
  rcases text with _ | ⟨c, rest⟩
  · exact h
  by_cases hc : c = '.'
  · subst hc
    have hrest := (List.suffix_cons '.' rest).trans h
    unfold Within Ensures fraction
    by_cases hd : (rest.takeWhile Char.isDigit).isEmpty
    · simpa only [hd, if_true] using h
    · simpa [hd] using (List.dropWhile_suffix Char.isDigit).trans hrest
  · unfold Within Ensures fraction
    simpa [hc] using h

/-- Numbers are read within the text. -/
theorem contained_numberLiteral : Contained numberLiteral :=
  (contained_accept '-').bind fun _ => contained_digits.bind fun _ =>
    contained_fraction.bind fun _ => contained_pure _

/-- The hexadecimal digits of an escape are read within the text. -/
theorem contained_codePoint (marker : Char) (count : Nat) : Contained (codePoint marker count) := by
  intro whole text h
  have hrest := (List.drop_suffix ((text.take count).takeWhile isHexDigit).length text).trans h
  unfold Within Ensures codePoint
  dsimp only
  by_cases hl : ((text.take count).takeWhile isHexDigit).length = count
  · rw [if_pos hl]
    exact hrest
  · rw [if_neg hl]
    exact hrest

/-- Escapes are read within the text. -/
theorem contained_escape : Contained escape := by
  refine contained_peek.bind fun c => ?_
  split
  · exact contained_advance.bind fun _ => contained_pure _
  · exact contained_advance.bind fun _ => contained_pure _
  · exact contained_advance.bind fun _ => contained_codePoint _ _
  · exact contained_advance.bind fun _ => contained_codePoint _ _
  · exact contained_fail _
  · exact contained_fail _

/-- A step of a string stays within the text. -/
theorem contained_stringStep (read : List Char) : Contained (stringStep read) := by
  refine contained_peek.bind fun c => ?_
  split
  · exact contained_fail _
  · exact contained_pure _
  · exact contained_advance.bind fun _ => contained_escape.bind fun _ => contained_pure _
  · dsimp only
    split
    · exact contained_fail_bind _ _
    · exact contained_advance.bind fun _ => contained_pure _

/-- Strings are read within the text. -/
theorem contained_stringLiteral : Contained stringLiteral :=
  (contained_expect '"').bind fun _ =>
    (Contained.withText (.loop contained_stringStep [])).bind fun _ =>
      contained_advance.bind fun _ => contained_pure _

/-- Literals that may follow are read within the text. -/
theorem contained_literal? : Contained literal? := by
  intro whole text h
  refine Within.bind (r := get) h fun line rest hrest => ?_
  split
  · exact (contained_stringLiteral.bind fun _ => contained_pure _) hrest
  · split
    · exact (contained_numberLiteral.bind fun _ => contained_pure _) hrest
    · exact contained_pure _ hrest
  · split
    · exact (contained_numberLiteral.bind fun _ => contained_pure _) hrest
    · exact contained_pure _ hrest
  · exact contained_pure _ hrest

/-- Literals that have to follow are read within the text. -/
theorem contained_literal : Contained literal := by
  refine contained_literal?.bind fun literal => ?_
  split
  · exact contained_pure _
  · exact contained_fail _

/-! ## Patterns and expressions -/

/-- Segments of text are read within the text. -/
theorem contained_textSegment (indent : Option Nat) : Contained (textSegment indent) := by
  refine (contained_takeWhile _).bind fun content => contained_peek.bind fun c => ?_
  split
  · exact contained_fail _
  · exact contained_acceptLineEnd.bind fun _ => contained_pure _

/-- The segments of a line are read within the text. -/
theorem contained_inLine {placeable : Reader Expression} (h : Contained placeable) :
    Contained (inLine placeable) := by
  refine contained_peek.bind fun c => ?_
  split
  · exact contained_pure _
  · exact contained_advance.bind fun _ => h.bind fun _ => contained_pure _
  · exact (contained_textSegment _).bind fun _ => contained_pure _

/-- The segments that begin a line are read within the text. -/
theorem contained_atLine {placeable : Reader Expression} (h : Contained placeable) :
    Contained (atLine placeable) := by
  intro whole text ht
  refine Ensures.bind (r := get) (m := fun line rest => line <:+ whole ∧ rest <:+ whole)
    ⟨ht, ht⟩ fun line rest ⟨hline, hrest⟩ => ?_
  refine (contained_skipSpaces hrest).bind fun indent rest hrest => ?_
  refine (contained_peek hrest).bind fun c rest hrest => ?_
  split
  · exact contained_pure _ hrest
  · exact (contained_advance.bind fun _ => h.bind fun _ => contained_pure _) hrest
  · split
    · split
      · exact ((contained_textSegment _).bind fun _ => contained_pure _) hrest
      · exact contained_pure _ hrest
    · split
      · exact hline
      · exact ((contained_textSegment _).bind fun _ => contained_pure _) hrest

/-- A step of a pattern stays within the text. -/
theorem contained_segmentStep {placeable : Reader Expression} (h : Contained placeable)
    (startsLine : Bool) (read : List Segment) :
      Contained (segmentStep placeable startsLine read) := by
  unfold segmentStep
  dsimp only
  split
  · refine (contained_atLine h).bind fun next => ?_
    split <;> exact contained_pure _
  · refine (contained_inLine h).bind fun next => ?_
    split <;> exact contained_pure _

/-- Patterns are read within the text. -/
theorem contained_pattern {placeable : Reader Expression} (h : Contained placeable) :
    Contained (pattern placeable) := by
  refine contained_skipSpaces.bind fun _ => contained_acceptLineEnd.bind fun startsLine => ?_
  have hloop := Contained.loop (contained_segmentStep h startsLine) []
  dsimp only
  split
  · exact contained_skipBlankLines.bind fun _ => hloop.bind fun _ => contained_pure _
  · exact hloop.bind fun _ => contained_pure _

/-- The attribute of a reference is read within the text. -/
theorem contained_accessor : Contained accessor := by
  refine (contained_accept '.').bind fun accepted => ?_
  split
  · exact contained_identifier.bind fun _ => contained_pure _
  · exact contained_pure _

/-- The parenthesis of arguments is looked for within the text. -/
theorem contained_reachArguments : Contained reachArguments := by
  intro whole text h
  unfold Within Ensures
  rw [reachArguments_apply]
  by_cases hp : (text.dropWhile Text.isBlank).head? = some '('
  · simpa only [hp, if_true] using (List.dropWhile_suffix _).trans h
  · simpa only [hp, if_false] using h

/-- The readers of the next level are contained. -/
structure Nested.Contained (nested : Nested) : Prop where
  placeable : Reader.Contained nested.placeable
  arguments : Reader.Contained nested.arguments

variable {nested : Nested}

/-- References to terms are read within the text. -/
theorem contained_termReference (h : nested.Contained) : Contained (termReference nested) := by
  refine contained_identifier.bind fun _ => contained_accessor.bind fun _ =>
    contained_reachArguments.bind fun reached => ?_
  split
  · exact h.arguments.bind fun _ => contained_pure _
  · exact contained_pure _

/-- References to messages and calls are read within the text. -/
theorem contained_nameReference (h : nested.Contained) : Contained (nameReference nested) := by
  refine contained_identifier.bind fun id => contained_accessor.bind fun attr => ?_
  split
  · exact contained_pure _
  · refine contained_reachArguments.bind fun reached => ?_
    dsimp only
    split
    · split
      · exact contained_fail_bind _ _
      · exact h.arguments.bind fun _ => contained_pure _
    · exact contained_pure _

/-- References of every kind are read within the text. -/
theorem contained_reference (h : nested.Contained) : Contained (reference nested) := by
  intro whole text htext
  rcases text with _ | ⟨c, rest⟩
  · exact htext
  have hrest : rest <:+ whole := (List.suffix_cons c rest).trans htext
  rw [Within, Ensures, reference_cons]
  split_ifs
  · exact (contained_identifier.bind fun _ => contained_pure _) hrest
  · exact contained_termReference h hrest
  · exact (h.placeable.bind fun _ => contained_pure _) hrest
  · exact contained_nameReference h htext
  · exact htext

/-- Inline expressions are read within the text. -/
theorem contained_inlineExpression (h : nested.Contained) :
    Contained (inlineExpression nested) := by
  refine contained_literal?.bind fun literal => ?_
  split
  · exact contained_pure _
  · exact contained_pure _
  · exact contained_reference h

/-- Named arguments are read within the text. -/
theorem contained_namedArgument (arguments : CallArguments) (expression : Expression) :
    Contained (namedArgument arguments expression) := by
  unfold namedArgument
  split
  · refine contained_skipBlanks.bind fun _ => contained_literal.bind fun value => ?_
    dsimp only
    split
    · exact contained_fail_bind _ _
    · exact contained_pure _
  · exact contained_fail _

/-- A positional argument is taken without reading more. -/
theorem contained_positionalArgument (arguments : CallArguments) (expression : Expression) :
    Contained (positionalArgument arguments expression) := by
  unfold positionalArgument
  split
  · exact contained_pure _
  · exact contained_fail _

/-- What follows the expression of an argument. -/
theorem contained_argumentEnd (arguments : CallArguments) (expression : Expression) :
    Contained (do
      skipBlanks
      if ← accept ':' then namedArgument arguments expression
      else positionalArgument arguments expression) := by
  refine contained_skipBlanks.bind fun _ => (contained_accept ':').bind fun named => ?_
  split
  · exact contained_namedArgument arguments expression
  · exact contained_positionalArgument arguments expression

/-- Arguments of either kind are read within the text. -/
theorem contained_argument (h : nested.Contained) (arguments : CallArguments) :
    Contained (argument nested arguments) := by
  rw [argument_eq]
  exact (contained_inlineExpression h).bind (contained_argumentEnd arguments)

/-- A step of an argument list stays within the text. -/
theorem contained_argumentStep (h : nested.Contained) (arguments : CallArguments) :
    Contained (argumentStep nested arguments) := by
  refine contained_skipBlanks.bind fun _ => contained_peek.bind fun c => ?_
  split
  · exact contained_pure _
  · exact (contained_argument h arguments).bind fun _ => contained_skipBlanks.bind fun _ =>
      (contained_accept ',').bind fun _ => contained_pure _

/-- Argument lists are read within the text. -/
theorem contained_argumentList (h : nested.Contained) : Contained (argumentList nested) :=
  (contained_expect '(').bind fun _ => (Contained.loop (contained_argumentStep h) _).bind fun _ =>
    contained_skipBlanks.bind fun _ => (contained_expect ')').bind fun _ => contained_pure _

/-- Keys are read within the text. -/
theorem contained_variantKey : Contained variantKey := by
  have hend (key : VariantKey) : Contained (do skipBlanks; expect ']'; return key) :=
    contained_skipBlanks.bind fun _ => (contained_expect ']').bind fun _ => contained_pure _
  refine contained_skipBlanks.bind fun _ => contained_peek.bind fun c => ?_
  dsimp only
  split
  · exact contained_fail_bind _ _
  · exact contained_fail_bind _ _
  · split
    · exact (contained_numberLiteral.map _).bind hend
    · exact (contained_identifier.map _).bind hend

/-- Variants are read within the text. -/
theorem contained_variant (h : nested.Contained) (isDefault : Bool) :
    Contained (variant nested isDefault) := by
  refine (contained_expect '[').bind fun _ => contained_variantKey.bind fun key =>
    (contained_pattern h.placeable).bind fun value => ?_
  split
  · exact contained_fail _
  · exact contained_skipBlanks.bind fun _ => contained_pure _

/-- A step of a variant list stays within the text. -/
theorem contained_variantStep (h : nested.Contained) (read : List Variant) :
    Contained (variantStep nested read) := by
  intro whole text htext
  rcases text with _ | ⟨c, rest⟩
  · exact htext
  have hrest : rest <:+ whole := (List.suffix_cons c rest).trans htext
  rw [Within, Ensures, variantStep_cons]
  split_ifs
  · exact hrest
  · exact ((contained_variant h true).bind fun _ => contained_pure _) hrest
  · exact ((contained_variant h false).bind fun _ => contained_pure _) htext
  · exact htext

/-- Variant lists are read within the text. -/
theorem contained_variants (h : nested.Contained) : Contained (variants nested) := by
  refine contained_skipBlanks.bind fun _ =>
    (Contained.loop (contained_variantStep h) []).bind fun variants => ?_
  have hdefault : Contained (do
      if !variants.any (·.isDefault) then fail .missingDefaultVariant
      return variants) := by
    dsimp only
    split
    · exact contained_fail_bind _ _
    · exact contained_pure _
  dsimp only
  split
  · exact contained_fail_bind _ _
  · exact hdefault

/-- Expressions are read within the text. -/
theorem contained_expression (h : nested.Contained) : Contained (expression nested) := by
  intro whole text ht
  refine (contained_inlineExpression h ht).bind fun selector rest hrest => ?_
  refine (contained_skipBlanks hrest).bind fun _ rest hrest => ?_
  refine Ensures.bind (r := get) (m := fun line rest => line <:+ whole ∧ rest <:+ whole)
    ⟨hrest, hrest⟩ fun line rest ⟨hline, hrest⟩ => ?_
  split
  · next after _ =>
    have hselect : Contained (do
        let _ ← skipSpaces
        if !(← acceptLineEnd) then fail (.expectedToken '⏎')
        return Expression.select selector (← variants nested)) := by
      refine contained_skipSpaces.bind fun _ => contained_acceptLineEnd.bind fun ended => ?_
      dsimp only
      split
      · exact contained_fail_bind _ _
      · exact (contained_variants h).bind fun _ => contained_pure _
    have hafter : after <:+ whole := .trans ⟨['-', '>'], rfl⟩ hline
    dsimp only
    split
    · exact contained_fail_bind _ _ hrest
    · exact hselect hafter
  · split
    · exact contained_fail _ hrest
    · exact contained_pure _ hrest

/-- The readers of every number of levels are contained, by induction on it. -/
theorem contained_levels (level : Nat) : (Nested.levels level).Contained := by
  induction level with
  | zero => exact ⟨contained_fail _, contained_fail _⟩
  | succ level ih =>
    exact
      { placeable := contained_skipBlanks.bind fun _ => (contained_expression ih).bind fun _ =>
          contained_skipBlanks.bind fun _ => (contained_expect '}').bind fun _ => contained_pure _
        arguments := contained_argumentList ih }

/-! ## Entries -/

/-- The pattern of an entry is read within the text. -/
theorem contained_entryPattern : Contained entryPattern :=
  contained_pattern (contained_levels maxNesting).placeable

/-- A name and its pattern are read within the text. -/
theorem contained_definition : Contained definition :=
  contained_identifier.bind fun _ => contained_skipSpaces.bind fun _ =>
    (contained_expect '=').bind fun _ => contained_entryPattern.bind fun _ => contained_pure _

/-- A step of an attribute list stays within the text. -/
theorem contained_attributeStep (read : List Attribute) : Contained (attributeStep read) := by
  intro whole text ht
  refine Ensures.bind (r := get) (m := fun line rest => line <:+ whole ∧ rest <:+ whole)
    ⟨ht, ht⟩ fun line rest ⟨hline, hrest⟩ => ?_
  refine (contained_skipSpaces hrest).bind fun _ rest hrest => ?_
  refine (contained_accept '.' hrest).bind fun accepted rest hrest => ?_
  split
  · refine (contained_definition hrest).bind fun _ rest hrest => ?_
    split
    · exact contained_pure _ hrest
    · exact contained_fail _ hrest
  · exact hline

/-- Attribute lists are read within the text. -/
theorem contained_attributes : Contained attributes := .loop contained_attributeStep []

/-- The parts of a message are read within the text. -/
theorem contained_messageBody : Contained messageBody := by
  refine contained_definition.bind fun _ => contained_attributes.bind fun _ => ?_
  dsimp only
  split
  · exact contained_fail_bind _ _
  · exact contained_pure _

/-- Messages are read within the text. -/
theorem contained_message (offset : Nat) : Contained (message offset) :=
  contained_messageBody.withText.bind fun _ => contained_pure _

/-- The parts of a term are read within the text. -/
theorem contained_termBody : Contained termBody := by
  refine (contained_expect '-').bind fun _ => contained_definition.bind fun _ => ?_
  split
  · exact contained_fail _
  · exact contained_attributes.bind fun _ => contained_pure _

/-- Terms are read within the text. -/
theorem contained_term (offset : Nat) : Contained (term offset) :=
  contained_termBody.withText.bind fun _ => contained_pure _

/-- The sigil of a comment is read within the text. -/
theorem contained_commentLevel : Contained commentLevel := by
  intro whole text h
  have htail (marks rest : List Char) : marks ++ rest <:+ whole → rest <:+ whole :=
    (List.suffix_append marks rest).trans
  unfold Within Ensures
  cases hr : commentLevel text with
  | ok result =>
    unfold commentLevel at hr
    split at hr <;> cases hr
    · exact htail ['#', '#', '#'] _ h
    · exact htail ['#', '#'] _ h
    · exact htail ['#'] _ h
  | error failure =>
    unfold commentLevel at hr
    split at hr <;> cases hr
    · exact htail ['#', '#', '#'] _ h
    · exact h

/-- The lines of a comment are read within the text. -/
theorem contained_commentLine : Contained commentLine := by
  have htext : Contained (do
      expect ' '
      let text ← takeWhile fun c => !Text.isBreak c
      let _ ← acceptLineEnd
      return String.ofList text) :=
    (contained_expect ' ').bind fun _ => (contained_takeWhile _).bind fun _ =>
      contained_acceptLineEnd.bind fun _ => contained_pure _
  refine contained_acceptLineEnd.bind fun ended => ?_
  split
  · exact contained_pure _
  · refine contained_peek.bind fun c => ?_
    split
    · exact contained_pure _
    · exact htext

/-- Sigils are made of number signs. -/
theorem eq_of_mem_sigil {level : CommentLevel} {c : Char} (h : c ∈ level.sigil.toList) :
    c = '#' := by
  cases level <;> simpa [CommentLevel.sigil] using h

/-- What follows the sigil of a comment is a space, a break or nothing. -/
theorem afterSigil?_eq_some {level : CommentLevel} {rest : List Char}
    (h : afterSigil? level text = some rest) :
    text = level.sigil.toList ++ rest ∧ ∀ c ∈ rest.head?, c = ' ' ∨ Text.isBreak c := by
  rw [afterSigil?, Option.filter_eq_some_iff, List.isPrefixOf?_eq_some_iff_append_eq] at h
  exact ⟨h.1.symm, fun c hc => by simpa [Option.mem_def.mp hc] using h.2⟩

/-- A step of a comment stays within the text. -/
theorem contained_commentStep (level : CommentLevel) (read : List String) :
    Contained (commentStep level read) := by
  intro whole text h
  rw [Within, Ensures, commentStep_apply]
  cases hp : afterSigil? level text with
  | none => exact h
  | some rest =>
    have hrest : rest <:+ whole := by
      rw [(afterSigil?_eq_some hp).1] at h
      exact (List.suffix_append _ rest).trans h
    exact (contained_commentLine.bind fun _ => contained_pure _) hrest

/-- Comments are read within the text. -/
theorem contained_comment : Contained comment :=
  contained_commentLevel.bind fun level => contained_commentLine.bind fun _ =>
    (Contained.loop (contained_commentStep level) _).bind fun _ => contained_pure _

/-- Entries are read within the text. -/
theorem contained_entry (offset : Nat) : Contained (entry offset) := by
  refine contained_peek.bind fun c => ?_
  split
  · exact contained_comment.bind fun _ => contained_pure _
  · exact (contained_term offset).bind fun _ => contained_pure _
  · exact (contained_message offset).bind fun _ => contained_pure _

end Phrasebook.Reader
