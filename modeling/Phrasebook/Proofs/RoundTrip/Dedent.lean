import Phrasebook.Proofs.RoundTrip.Lines
import Phrasebook.Syntax.Printer

/-!
# Taking away the common indentation

Where a pattern is written below its `=`, all its lines are indented alike, and reading takes away
the indentation that they share. What their own spaces have in common goes with it. A tree from
which that has been taken, in all its patterns, is what is read back from the text of the tree.
-/

namespace Phrasebook

namespace Segment

/-- Spaces that are not read as text, since a placeable follows them or nothing does. -/
def isHidden : Segment → Bool
  | text _ content newline => content.isEmpty && !newline
  | placeable .. => false

/-- A line of nothing but spaces. -/
def isEmptyLine : Segment → Bool
  | text _ content newline => content.isEmpty && newline
  | placeable .. => false

/-- The segments of a pattern from where it begins: below empty lines, or behind spaces. -/
def opened : (startsLine : Bool) → List Segment → List Segment
  | true, segments => segments.dropWhile isEmptyLine
  | false, text indent content newline :: rest =>
    match content.dropWhile (· == ' ') with
    | [] => rest
    | c :: behind => text indent (c :: behind) newline :: rest
  | false, segments => segments

end Segment

namespace Pattern

/-- A pattern is written on lines of its own, below what it belongs to. -/
def ownLines (p : Pattern) : Bool := p.isMultiline && !p.startsSpecial

/-- The segments of a pattern as it is written. -/
def writtenSegments (p : Pattern) : List Segment := (join p).segments p.ownLines

/-- No line of the pattern, where it is written, would be read as something else. -/
def Legible (p : Pattern) : Prop := Segment.Laid p.ownLines p.writtenSegments

/-- The segments of a pattern as it is read where it is written. -/
def readSegments (p : Pattern) : List Segment :=
  (Segment.opened p.ownLines p.writtenSegments).filter fun s => !s.isHidden

/-- The spaces that the lines of a pattern, as it is written, have in common. -/
def margin (p : Pattern) : Option Nat := Segment.commonIndent p.writtenSegments

/-- The pattern without the spaces that its lines have in common, unless it is blank. -/
def unindent? (p : Pattern) : Option Pattern := ofSegments? p.readSegments

end Pattern

mutual

/-- An expression without the spaces that lines have in common, in every pattern inside it. -/
def Expression.dedent : Expression → Expression
  | .string literal => .string literal
  | .number literal => .number literal
  | .variableRef name => .variableRef name
  | .messageRef id attr => .messageRef id attr
  | .termRef id attr none => .termRef id attr none
  | .termRef id attr (some arguments) => .termRef id attr (some arguments.dedent)
  | .call name arguments => .call name arguments.dedent
  | .select selector variants => .select selector.dedent (Variant.dedentAll variants)
  | .placeable inner => .placeable inner.dedent

/-- Call arguments without the spaces that lines of their patterns have in common. -/
def CallArguments.dedent : CallArguments → CallArguments
  | ⟨positional, named⟩ => ⟨Expression.dedentAll positional, named⟩

/-- Expressions without the spaces that lines of their patterns have in common. -/
def Expression.dedentAll : List Expression → List Expression
  | [] => []
  | expression :: rest => expression.dedent :: Expression.dedentAll rest

/-- Variants without the spaces that lines of their patterns have in common. -/
def Variant.dedentAll : List Variant → List Variant
  | [] => []
  | variant :: rest => variant.dedent :: Variant.dedentAll rest

/-- A variant without the spaces that lines of its patterns have in common. -/
def Variant.dedent : Variant → Variant
  | ⟨key, value, isDefault⟩ =>
    ⟨key, (Pattern.unindent? (PatternElement.dedentAll value)).getD [], isDefault⟩

/-- Elements without the spaces that lines of the patterns inside them have in common. -/
def PatternElement.dedentAll : List PatternElement → List PatternElement
  | [] => []
  | element :: rest => element.dedent :: PatternElement.dedentAll rest

/-- An element without the spaces that lines of the patterns inside it have in common. -/
def PatternElement.dedent : PatternElement → PatternElement
  | .text value => .text value
  | .placeable expression => .placeable expression.dedent

end

/-- Arguments are dedented one by one. -/
theorem Expression.dedentAll_eq_map (expressions : List Expression) :
    Expression.dedentAll expressions = expressions.map Expression.dedent := by
  induction expressions with
  | nil => rfl
  | cons expression rest ih => rw [Expression.dedentAll, ih, List.map_cons]

/-- Variants are dedented one by one. -/
theorem Variant.dedentAll_eq_map (variants : List Variant) :
    Variant.dedentAll variants = variants.map Variant.dedent := by
  induction variants with
  | nil => rfl
  | cons variant rest ih => rw [Variant.dedentAll, ih, List.map_cons]

/-- Elements are dedented one by one. -/
theorem PatternElement.dedentAll_eq_map (elements : List PatternElement) :
    PatternElement.dedentAll elements = elements.map PatternElement.dedent := by
  induction elements with
  | nil => rfl
  | cons element rest ih => rw [PatternElement.dedentAll, ih, List.map_cons]

/-- A pattern without the spaces that its lines, or those of a pattern inside it, have in common,
unless it is blank. -/
def Pattern.dedent? (p : Pattern) : Option Pattern :=
  Pattern.unindent? (p.map PatternElement.dedent)

/-- The pattern without those spaces, which is empty if it is blank. -/
def Pattern.dedent (p : Pattern) : Pattern := p.dedent?.getD []

/-- An attribute without the spaces that lines of its patterns have in common. -/
def Attribute.dedent (a : Attribute) : Attribute := { a with value := a.value.dedent }

/-- An entry without the spaces that lines of its patterns have in common. A message has no blank
value. -/
def Entry.dedent : Entry → Entry
  | .message m => .message
      { m with value := m.value.bind Pattern.dedent?, attributes := m.attributes.map .dedent }
  | .term t => .term { t with value := t.value.dedent, attributes := t.attributes.map .dedent }
  | .comment c => .comment c
  | .junk j => .junk j

/-- A variant is dedented in its value. -/
theorem Variant.dedent_eq (v : Variant) :
    v.dedent = ⟨v.key, Pattern.dedent v.value, v.isDefault⟩ := by
  obtain ⟨key, value, isDefault⟩ := v
  rw [Variant.dedent, PatternElement.dedentAll_eq_map]
  rfl

/-! ## What stays as it is -/

/-- A select expression stays one. -/
@[simp] theorem Expression.isSelect_dedent : ∀ e : Expression, e.dedent.isSelect = e.isSelect
  | .placeable inner => Expression.isSelect_dedent inner
  | .termRef _ _ none | .termRef _ _ (some _) => rfl
  | .string _ | .number _ | .variableRef _ | .messageRef _ _ | .call _ _ | .select _ _ => rfl

/-- A segment whose placeable is dedented. -/
def Segment.dedent : Segment → Segment
  | .text indent content newline => .text indent content newline
  | .placeable atMargin expression => .placeable atMargin expression.dedent

namespace Segment

/-- Text stays text. -/
@[simp] theorem isText_dedent (segment : Segment) : segment.dedent.isText = segment.isText := by
  cases segment <;> rfl

/-- A line ends as before. -/
@[simp] theorem endsLine_dedent (segment : Segment) :
    segment.dedent.endsLine = segment.endsLine := by
  cases segment <;> rfl

/-- A segment stays blank or not. -/
@[simp] theorem isBlank_dedent (segment : Segment) :
    segment.dedent.isBlank = segment.isBlank := by
  cases segment <;> rfl

/-- The margin of a segment stays. -/
@[simp] theorem margin?_dedent (segment : Segment) : segment.dedent.margin? = segment.margin? := by
  cases segment <;> rfl

/-- The whole of a segment is dedented with it. -/
theorem whole_dedent (segment : Segment) : whole segment.dedent = (whole segment).dedent := by
  cases segment <;> rfl

/-- Text has nothing in it to dedent. -/
theorem dedent_of_isText {segment : Segment} (h : segment.isText) : segment.dedent = segment := by
  cases segment with
  | text indent content newline => rfl
  | placeable atMargin expression => cases h

/-- A pattern begins at the same segment. -/
theorem opened_map_dedent (startsLine : Bool) (segments : List Segment) :
    opened startsLine (segments.map Segment.dedent) =
      (opened startsLine segments).map Segment.dedent := by
  cases startsLine with
  | true =>
    rw [opened, opened, List.dropWhile_map]
    congr 2
    funext s
    cases s <;> rfl
  | false =>
    rcases segments with _ | ⟨⟨indent, content, newline⟩ | ⟨atMargin, e⟩, rest⟩
    · rfl
    · rw [List.map_cons, Segment.dedent, opened, opened]
      split <;> rfl
    · rfl

/-- A line of text is text. -/
theorem isText_ofLine (startsLine : Bool) (line : List Char) : (ofLine startsLine line).isText := by
  cases startsLine <;> rfl

/-- The lines of a text are text. -/
theorem isText_ofText {startsLine : Bool} {value : String} :
    ∀ segment ∈ ofText startsLine value, segment.isText := by
  intro segment hmem
  unfold ofText at hmem
  split at hmem
  · cases hmem
  · rcases List.mem_cons.mp hmem with rfl | hmem
    · exact isText_ofLine _ _
    · obtain ⟨line, -, rfl⟩ := List.mem_map.mp hmem
      exact isText_ofLine _ _

end Segment

namespace Pattern

open Segment

/-- A pattern stays on one line or on several. -/
@[simp] theorem isMultiline_map_dedent (p : Pattern) :
    isMultiline (p.map PatternElement.dedent) = p.isMultiline := by
  induction p with
  | nil => rfl
  | cons element rest ih =>
    simp only [isMultiline, List.map_cons, List.any_cons] at ih ⊢
    rw [ih]
    cases element with
    | text value => rfl
    | placeable expression =>
      exact congrArg (· || _) (Expression.isSelect_dedent expression)

/-- A pattern starts with the same character. -/
@[simp] theorem startsSpecial_map_dedent (p : Pattern) :
    startsSpecial (p.map PatternElement.dedent) = p.startsSpecial := by
  rcases p with _ | ⟨_ | _, rest⟩ <;> rfl

/-- A pattern is written on lines of its own as before. -/
@[simp] theorem ownLines_map_dedent (p : Pattern) :
    ownLines (p.map PatternElement.dedent) = p.ownLines := by
  simp only [ownLines, isMultiline_map_dedent, startsSpecial_map_dedent]

/-- A segment of a pattern is text, or a placeable of the pattern that is not at the margin. -/
theorem mem_segments {startsLine : Bool} {p : Pattern} {s : Segment}
    (hs : s ∈ p.segments startsLine) :
    s.isText ∨ ∃ e, .placeable e ∈ p ∧ s = .placeable false e := by
  induction p generalizing startsLine with
  | nil => cases hs
  | cons element rest ih =>
    have hbehind {startsLine : Bool} (hs : s ∈ segments startsLine rest) :
        s.isText ∨ ∃ e, .placeable e ∈ element :: rest ∧ s = .placeable false e := by
      apply (ih hs).imp_right
      rintro ⟨e, he, hplaceable⟩
      exact ⟨e, List.mem_cons_of_mem _ he, hplaceable⟩
    cases element with
    | text value => exact (List.mem_append.mp hs).elim (fun hs => .inl (isText_ofText s hs)) hbehind
    | placeable expression =>
      rcases List.mem_cons.mp hs with rfl | hs
      · exact .inr ⟨expression, List.mem_cons_self, rfl⟩
      · exact hbehind hs

/-- The segments of a pattern are dedented with it. -/
theorem segments_map_dedent (startsLine : Bool) (p : Pattern) :
    segments startsLine (p.map PatternElement.dedent) =
      (p.segments startsLine).map Segment.dedent := by
  induction p generalizing startsLine with
  | nil => rfl
  | cons element rest ih =>
    cases element with
    | placeable expression =>
      exact congrArg (.placeable false expression.dedent :: ·) (ih false)
    | text value =>
      have htext : (ofText startsLine value).map Segment.dedent = ofText startsLine value := by
        rw [List.map_congr_left fun s hs => dedent_of_isText (isText_ofText s hs), List.map_id']
      rw [List.map_cons, PatternElement.dedent, segments, segments, List.map_append, htext, ih]

/-- Elements may be dedented before or after they are joined. -/
theorem join_map_dedent (elements : List PatternElement) :
    join (elements.map PatternElement.dedent) = (join elements).map PatternElement.dedent := by
  induction elements with
  | nil => rfl
  | cons element rest ih =>
    rw [List.map_cons, join_cons, join_cons, ih]
    rcases element with value | inner
    · rcases join rest with _ | ⟨next | inner, p⟩
      · by_cases hempty : value.isEmpty <;> simp [cons, hempty, PatternElement.dedent]
      · simp [cons, PatternElement.dedent]
      · by_cases hempty : value.isEmpty <;> simp [cons, hempty, PatternElement.dedent]
    · rfl

/-- The segments that are written are dedented with the pattern. -/
theorem writtenSegments_map_dedent (p : Pattern) :
    writtenSegments (p.map PatternElement.dedent) = p.writtenSegments.map Segment.dedent := by
  rw [writtenSegments, ownLines_map_dedent, join_map_dedent, segments_map_dedent, writtenSegments]

/-- The segments that are read are dedented with the pattern. -/
theorem readSegments_map_dedent (p : Pattern) :
    readSegments (p.map PatternElement.dedent) = p.readSegments.map Segment.dedent := by
  rw [readSegments, readSegments, writtenSegments_map_dedent, ownLines_map_dedent,
    opened_map_dedent, List.filter_map]
  exact congrArg (List.map _) (List.filter_congr fun s _ => by cases s <;> rfl)

end Pattern

end Phrasebook
