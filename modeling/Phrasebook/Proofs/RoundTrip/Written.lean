import Phrasebook.Proofs.RoundTrip.Grammar
import Phrasebook.Proofs.RoundTrip.Layout

/-!
# The text of a tree

What the pieces of each construct write, as one equation of texts for each of them. The text of a
pattern is that of its segments: each line stands behind the column of its level and its own
indentation, except that an empty line is left empty.
-/

namespace Phrasebook

open Piece (Writes)

/-- The text of an expression inside a pattern whose lines stand at a level. -/
def Expression.written (level : Nat) (e : Expression) : List Char :=
  Piece.layout false (e.pieces level)

/-- The text of call arguments. -/
def CallArguments.written (level : Nat) (a : CallArguments) : List Char :=
  Piece.layout false (a.pieces level)

/-- The text of an element of a pattern that is a placeable. -/
def Expression.braced (level : Nat) (e : Expression) : List Char :=
  Piece.layout false (PatternElement.pieces level (.placeable e))

/-- The text of a variant and the end of its line. -/
def Variant.written (level : Nat) (v : Variant) : List Char := Piece.layout true (v.pieces level)

/-- The text of a pattern, behind the `=` or the key of what it belongs to. -/
def Pattern.written (outer : Nat) (p : Pattern) : List Char := Piece.layout false (p.pieces outer)

/-- The spaces before a level. -/
def indentation (level : Nat) : List Char := List.replicate (columnOf level) ' '

/-- A select expression leaves the output at the start of a line. -/
def Expression.endsLine : Expression → Bool
  | .select .. => true
  | _ => false

/-- The spaces between an expression and the brace that closes it. -/
def Expression.gap (level : Nat) (e : Expression) : List Char :=
  if e.endsLine then indentation level else []

namespace Piece

variable {lineStart : Bool} {pieces : List Piece}

/-- A piece that ends in a character other than a line end leaves the output inside a line. -/
theorem endsLine_concat {piece : Piece} {c : Char} (h : piece.text.getLast? = some c)
    (hc : c ≠ '\n') : endsLine lineStart (pieces ++ [piece]) = false := by
  have hempty : ¬piece.text.isEmpty := by
    intro hempty
    rw [List.isEmpty_iff] at hempty
    rw [hempty] at h
    cases h
  rw [endsLine_append, endsLine, if_neg hempty, h]
  simpa [endsLine] using hc

/-- A piece without line feeds is written inside a line as it is. -/
theorem writes_at {level : Nat} {text : String} (h : '\n' ∉ text.toList) :
    Writes false [.at level text] text.toList false :=
  writes_inline h

/-- A piece inside a level that begins a line. -/
theorem writes_at_lineStart {level : Nat} {text : String} (hne : text ≠ "")
    (h : '\n' ∉ text.toList) :
    Writes true [.at level text] (indentation level ++ text.toList) false :=
  writes_lineStart (by simpa [Piece.at] using hne) h

end Piece

/-- A separator is written before every text but the first. -/
theorem intercalate_cons (separator text : List Char) (texts : List (List Char)) :
    separator.intercalate (text :: texts) = text ++ texts.flatMap (separator ++ ·) := by
  induction texts generalizing text with
  | nil => simp
  | cons next texts ih => rw [List.intercalate_cons_cons, ih]; simp

/-! ## Expressions -/

/-- Expressions deeper down leave the output where they should. -/
def Shape.Tidy (shape : Shape) : Prop :=
  ∀ e, shape.placeable e → ∀ level, Writes false (e.pieces level) (e.written level) e.endsLine

namespace Shape

variable {shape : Shape} {e : Expression} {a : CallArguments}

/-- Arguments end inside a line. -/
theorem endsLine_arguments (level : Nat) (a : CallArguments) (lineStart : Bool) :
    Piece.endsLine lineStart (a.pieces level) = false := by
  obtain ⟨_ | ⟨first, rest⟩, named⟩ := a
  · rw [CallArguments.pieces, ← List.nil_append [Piece.at _ _]]
    refine Piece.endsLine_concat (c := ')') ?_ (by decide)
    simp [Piece.at, List.getLast?_cons]
  · rw [CallArguments.pieces]
    refine Piece.endsLine_concat (c := ')') ?_ (by decide)
    simp [Piece.at]

/-- Arguments are written inside a line. -/
theorem writes_arguments (level : Nat) (a : CallArguments) :
    Writes false (a.pieces level) (a.written level) false :=
  ⟨rfl, endsLine_arguments level a false⟩

/-- A reference with arguments is its name and then the arguments. -/
theorem writes_before_arguments {name : String} (h : '\n' ∉ name.toList) (level : Nat)
    (a : CallArguments) :
    Writes false (.at level name :: a.pieces level) (name.toList ++ a.written level) false :=
  (Piece.writes_at h).append (writes_arguments level a)

/-- What stands between two braces, whether they stand apart from it or not. -/
theorem writes_between (htidy : shape.Tidy) (h : shape.placeable e) (level : Nat)
    {opening closing : String} (hopening : '\n' ∉ opening.toList)
    (hclosing : '\n' ∉ closing.toList) (hne : closing ≠ "") :
    Writes false ([.at level opening] ++ e.pieces level ++ [.at level closing])
      (opening.toList ++ e.written level ++ (e.gap level ++ closing.toList)) false := by
  have hclose : Writes e.endsLine [.at level closing] (e.gap level ++ closing.toList) false := by
    rw [Expression.gap]
    cases e.endsLine with
    | true => exact Piece.writes_at_lineStart hne hclosing
    | false => exact Piece.writes_at hclosing
  exact ((Piece.writes_at hopening).append (htidy e h level)).append hclose

/-- A nested placeable is written between braces and spaces. -/
theorem writes_placeable (htidy : shape.Tidy) (h : shape.placeable e) (level : Nat) :
    Writes false ((Expression.placeable e).pieces level)
      ('{' :: ' ' :: e.written level ++ (e.gap level ++ [' ', '}'])) false := by
  have hbetween : Writes false ([.at level "\x7b "] ++ e.pieces level ++ [.at level " \x7d"])
      ("\x7b ".toList ++ e.written level ++ (e.gap level ++ " \x7d".toList)) false :=
    writes_between htidy h level (by simp) (by simp) (by simp)
  simpa [Expression.pieces] using hbetween

/-- A placeable is written between its opening and its closing. -/
theorem writes_braced (htidy : shape.Tidy) (h : shape.placeable e) (level : Nat) :
    Writes false (PatternElement.pieces level (.placeable e))
      (e.opening.toList ++ e.written level ++ (e.gap level ++ e.closing.toList)) false := by
  rw [PatternElement.pieces]
  refine writes_between htidy h level ?_ ?_ ?_
  · cases e <;> simp [Expression.opening]
  · cases e <;> simp [Expression.closing]
  · cases e <;> simp [Expression.closing]

/-- An inline expression ends inside a line. -/
theorem Inline.endsLine_eq_false (h : shape.Inline e) : e.endsLine = false := by
  cases e with
  | select selector variants => exact h.elim
  | _ => rfl

/-- An inline expression is written inside a line. -/
theorem Inline.writes (htidy : shape.Tidy) (h : shape.Inline e) (level : Nat) :
    Writes false (e.pieces level) (e.written level) false := by
  refine ⟨rfl, ?_⟩
  cases e with
  | string l => exact (Piece.writes_at (StringLiteral.Sound.inline h)).endsLine
  | number l => exact (Piece.writes_at (NumberLiteral.Sound.inline h)).endsLine
  | variableRef name =>
    have hname : '\n' ∉ ("$" ++ name).toList := by simpa using IsIdentifier.inline h
    exact (Piece.writes_at hname).endsLine
  | messageRef id attr => exact (Piece.writes_at (inline_referenceName h.1 h.2)).endsLine
  | termRef id attr arguments =>
    have hname : '\n' ∉ ("-" ++ referenceName id attr).toList := by
      simpa using inline_referenceName h.1 h.2.1
    cases arguments with
    | none => exact (Piece.writes_at hname).endsLine
    | some a => exact (writes_before_arguments hname level a).endsLine
  | call name arguments => exact (writes_before_arguments h.1.inline level arguments).endsLine
  | select selector variants => exact h.elim
  | placeable inner => exact (writes_placeable htidy h level).endsLine

/-- The texts of arguments, the positional ones first. -/
def argumentTexts (level : Nat) (a : CallArguments) : List (List Char) :=
  a.positional.map (Expression.written level) ++ a.named.map (·.source.toList)

private theorem writes_piecesAfter (htidy : shape.Tidy) {expressions : List Expression}
    (h : ∀ e ∈ expressions, shape.Inline e) (level : Nat) :
    Writes false (Expression.piecesAfter level expressions)
      ((expressions.map (Expression.written level)).flatMap ([',', ' '] ++ ·)) false := by
  induction expressions with
  | nil => exact Piece.writes_nil
  | cons e rest ih =>
    have hcomma : Writes false [.at level ", "] ", ".toList false := Piece.writes_at (by simp)
    have hfirst := (h e List.mem_cons_self).writes htidy level
    have hrest := ih fun e he => h e (List.mem_cons_of_mem _ he)
    simpa [Expression.piecesAfter] using hcomma.append (hfirst.append hrest)

private theorem inline_flatMap {texts : List (List Char)} (h : ∀ t ∈ texts, '\n' ∉ t) :
    '\n' ∉ texts.flatMap ([',', ' '] ++ ·) := by
  simp only [List.mem_flatMap, not_exists, not_and]
  intro t ht
  simpa using h t ht

/-- Call arguments stand between parentheses, with a comma and a space between them. -/
theorem Listed.written_eq (htidy : shape.Tidy) (h : shape.Listed a) (level : Nat) :
    a.written level = '(' :: [',', ' '].intercalate (argumentTexts level a) ++ [')'] := by
  obtain ⟨positional, named⟩ := a
  have hnamed : ∀ t ∈ named.map (·.source.toList), '\n' ∉ t := by
    intro t ht
    obtain ⟨n, hn, rfl⟩ := List.mem_map.mp ht
    exact (h.named n hn).inline
  have hopen : Writes false [.at level "("] "(".toList false := Piece.writes_at (by simp)
  -- The first positional argument stands without a comma before it; if there is none, the named
  -- ones are put together at once.
  cases positional with
  | nil =>
    have htext : ("(" ++ ", ".intercalate (named.map (·.source)) ++ ")").toList =
        '(' :: [',', ' '].intercalate (named.map (·.source.toList)) ++ [')'] := by
      simp [Function.comp_def]
    have hline : '\n' ∉ [',', ' '].intercalate (named.map (·.source.toList)) := by
      cases named with
      | nil => simp
      | cons n rest =>
        rw [List.map_cons, intercalate_cons, List.mem_append, not_or]
        exact ⟨hnamed _ List.mem_cons_self,
          inline_flatMap fun t ht => hnamed t (List.mem_cons_of_mem _ ht)⟩
    rw [CallArguments.written, CallArguments.pieces, (Piece.writes_at _).layout, htext]
    · rfl
    · rw [htext]
      simp [hline]
  | cons first rest =>
    have hfirst := (h.positional first List.mem_cons_self).writes htidy level
    have hrest := writes_piecesAfter htidy
      (fun e he => h.positional e (List.mem_cons_of_mem first he)) level
    have hclose : Writes false
        [.at level (String.join (named.map fun a => ", " ++ a.source) ++ ")")]
        ((named.map (·.source.toList)).flatMap ([',', ' '] ++ ·) ++ [')']) false := by
      have htext : (String.join (named.map fun a => ", " ++ a.source) ++ ")").toList =
          (named.map (·.source.toList)).flatMap ([',', ' '] ++ ·) ++ [')'] := by
        simp [List.flatMap_map]
      rw [← htext]
      refine Piece.writes_at ?_
      rw [htext, List.mem_append, not_or]
      exact ⟨inline_flatMap hnamed, by simp⟩
    have hall := ((hopen.append hfirst).append hrest).append hclose
    have htexts : argumentTexts level ⟨first :: rest, named⟩ = first.written level ::
        (rest.map (Expression.written level) ++ named.map (·.source.toList)) := rfl
    rw [CallArguments.written, CallArguments.pieces, hall.layout, htexts, intercalate_cons]
    simp

end Shape

/-! ## Patterns -/

namespace Segment

/-- The text of a segment, with the column of its level where it starts a line. -/
def written (level : Nat) (startsLine : Bool) : Segment → List Char
  | text indent content newline =>
    let line := line (text indent content newline)
    if startsLine && line != ['\n'] then indentation level ++ line else line
  | placeable _ expression =>
    if startsLine then indentation level ++ expression.braced level else expression.braced level

/-- The text of segments, one after the other. -/
def writtenAll (level : Nat) : (startsLine : Bool) → List Segment → List Char
  | _, [] => []
  | startsLine, segment :: rest =>
    segment.written level startsLine ++ writtenAll level segment.endsLine rest

variable {startsLine newline : Bool} {indent : Option Nat} {content : List Char}
  {segment : Segment} {segments rest : List Segment}

/-- A placeable is written behind the column of its level where it starts a line. -/
theorem writes_placeable (level : Nat) (atMargin : Bool) (e : Expression) :
    Writes startsLine (PatternElement.pieces level (.placeable e))
      (written level startsLine (.placeable atMargin e)) false := by
  constructor
  · cases startsLine with
    | false => rfl
    | true =>
      have hopening : (Piece.at level e.opening).text ≠ [] := by
        cases e <;> simp [Piece.at, Expression.opening]
      simp only [written, if_true, Expression.braced, PatternElement.pieces, List.cons_append,
        List.nil_append]
      exact Piece.layout_lineStart hopening _
  · rw [PatternElement.pieces]
    refine Piece.endsLine_concat (c := '}') ?_ (by decide)
    cases e <;> simp [Piece.at, Expression.closing]

/-- A line of text is written behind the column of its level unless it is empty. -/
theorem writes_text (level : Nat) (h : (text indent content newline).Lies startsLine) :
    Writes startsLine
      (Piece.lines (columnOf level) (String.ofList (line (text indent content newline))))
      (written level startsLine (text indent content newline)) newline := by
  obtain ⟨-, hchars, -, hcontent⟩ := h
  have hlines : Writes startsLine
      (Piece.lines (columnOf level) (String.ofList (line (text indent content newline))))
      (Piece.flow (columnOf level) startsLine (line (text indent content newline)))
      (Piece.textEndsLine startsLine (line (text indent content newline))) := by
    simpa using Piece.writes_lines (columnOf level)
      (String.ofList (line (text indent content newline)))
  have hmem : '\n' ∉ List.replicate (indent.getD 0) ' ' ++ content := by
    simp [newline_not_mem_of_isTextChar hchars]
  have hnil : newline = false → List.replicate (indent.getD 0) ' ' ++ content ≠ [] := by
    intro hnewline hnil
    rw [List.append_eq_nil_iff, List.replicate_eq_nil_iff] at hnil
    exact hcontent hnewline hnil.2 hnil.1
  obtain ⟨hflow, hends⟩ := Piece.flow_line (columnOf level) rfl hmem hnil
  exact ⟨hlines.layout.trans hflow, hlines.endsLine.trans hends⟩

end Segment

namespace PatternElement

/-- What is put before a pattern is written before it. -/
theorem writes_cons (level : Nat) (lineStart : Bool) (element : PatternElement) (p : Pattern) :
    Piece.layout lineStart (piecesOf level (Pattern.cons element p)) =
        Piece.layout lineStart (element.pieces level ++ piecesOf level p) ∧
      Piece.endsLine lineStart (piecesOf level (Pattern.cons element p)) =
        Piece.endsLine lineStart (element.pieces level ++ piecesOf level p) := by
  rcases element with value | expression
  · rcases p with _ | ⟨next | expression, p⟩
    · by_cases hempty : value.isEmpty
      · obtain rfl : value = "" := by simpa using hempty
        exact ⟨rfl, rfl⟩
      · simp [Pattern.cons, hempty, piecesOf]
    · simp only [Pattern.cons, piecesOf, pieces, ← List.append_assoc, Piece.layout_append,
        Piece.endsLine_append]
      have hlines := Piece.writes_lines_append (columnOf level) lineStart value next
      rw [Piece.layout_append, Piece.endsLine_append] at hlines
      rw [hlines.1, hlines.2]
      exact ⟨rfl, rfl⟩
    · by_cases hempty : value.isEmpty
      · obtain rfl : value = "" := by simpa using hempty
        exact ⟨rfl, rfl⟩
      · simp [Pattern.cons, hempty, piecesOf]
  · exact ⟨rfl, rfl⟩

/-- What has been joined is written as before. -/
theorem writes_join (level : Nat) (lineStart : Bool) (p : Pattern) :
    Piece.layout lineStart (piecesOf level (Pattern.join p)) =
        Piece.layout lineStart (piecesOf level p) ∧
      Piece.endsLine lineStart (piecesOf level (Pattern.join p)) =
        Piece.endsLine lineStart (piecesOf level p) := by
  induction p generalizing lineStart with
  | nil => exact ⟨rfl, rfl⟩
  | cons element rest ih =>
    obtain ⟨hlayout, hends⟩ := writes_cons level lineStart element (Pattern.join rest)
    obtain ⟨hlayout', hends'⟩ := ih (Piece.endsLine lineStart (element.pieces level))
    rw [Pattern.join_cons, hlayout, hends, piecesOf, Piece.layout_append, Piece.layout_append,
      Piece.endsLine_append, Piece.endsLine_append, hlayout', hends']
    exact ⟨rfl, rfl⟩

end PatternElement

open Segment in
/-- The text of the pattern that segments are joined to is that of the segments. -/
theorem Segment.Laid.writes {startsLine : Bool} {segments : List Segment}
    (h : Laid startsLine segments) (level : Nat) :
    Writes startsLine (PatternElement.piecesOf level (Pattern.join (segments.map whole)))
      (writtenAll level startsLine segments) (lineStart startsLine segments) := by
  induction segments generalizing startsLine with
  | nil => exact Piece.writes_nil
  | cons segment rest ih =>
    obtain ⟨hlies, -, hrest⟩ := h
    have hfirst : Writes startsLine (segment.whole.pieces level) (segment.written level startsLine)
        segment.endsLine := by
      cases segment with
      | placeable atMargin expression => exact writes_placeable level atMargin expression
      | text indent content newline =>
        rw [whole_text]
        exact writes_text level hlies
    have hall := hfirst.append (ih hrest)
    obtain ⟨hlayout, hends⟩ := PatternElement.writes_cons level startsLine segment.whole
      (Pattern.join (rest.map whole))
    exact ⟨hlayout.trans hall.layout, hends.trans hall.endsLine⟩

namespace Pattern

open Segment

variable {p : Pattern}

/-- A pattern is written below what it belongs to, or behind a space. -/
theorem Legible.writes (h : p.Legible) (outer : Nat) :
    Writes false (p.pieces outer)
      ((if p.ownLines then '\n' else ' ') ::
        writtenAll (p.level outer) p.ownLines p.writtenSegments)
      (lineStart p.ownLines p.writtenSegments) := by
  have hlines : Writes p.ownLines (PatternElement.piecesOf (p.level outer) p)
      (writtenAll (p.level outer) p.ownLines p.writtenSegments)
      (lineStart p.ownLines p.writtenSegments) := by
    have hwhole := Laid.writes h (p.level outer)
    obtain ⟨hlayout, hends⟩ := PatternElement.writes_join (p.level outer) p.ownLines p
    rw [writtenSegments, join_segments, join_join] at hwhole
    exact ⟨hlayout.symm.trans hwhole.layout, hends.symm.trans hwhole.endsLine⟩
  rw [pieces, ← List.singleton_append]
  have hseparator : Writes false [p.separator] [if p.ownLines then '\n' else ' '] p.ownLines := by
    unfold separator
    cases hown : p.ownLines with
    | true =>
      rw [ownLines] at hown
      rw [if_pos hown]
      exact Piece.writes_newline
    | false =>
      rw [ownLines] at hown
      rw [hown]
      exact Piece.writes_at (by simp)
  exact hseparator.append hlines

end Pattern

/-! ## Variants and select expressions -/

namespace Shape

variable {shape : Shape}

/-- The mark before the key of a variant; that of the default stands one column to the left. -/
def bracket (level : Nat) (isDefault : Bool) : List Char :=
  if isDefault then List.replicate (columnOf level - 1) ' ' ++ ['*', '[']
  else indentation level ++ ['[']

/-- A variant stands on lines of its own. -/
theorem writes_variant {v : Variant} (hkey : v.key.Sound) (level : Nat) :
    Writes true (v.pieces level)
      (bracket level v.isDefault ++ v.key.source.toList ++ [']'] ++ Pattern.written level v.value ++
        ['\n'])
      true := by
  obtain ⟨key, value, isDefault⟩ := v
  have hbracket : Writes true
      [if isDefault then ⟨columnOf level - 1, ['*', '[']⟩ else .at level "["]
      (bracket level isDefault) false := by
    cases isDefault with
    | true => exact Piece.writes_lineStart (by simp) (by simp)
    | false => exact Piece.writes_at_lineStart (by simp) (by simp)
  have hclose : Writes false [.at level (key.source ++ "]")] (key.source ++ "]").toList false :=
    Piece.writes_at (by simpa using hkey.inline)
  have hpattern : Writes false (Pattern.pieces level value) (Pattern.written level value) _ :=
    ⟨rfl, rfl⟩
  have hall := ((hbracket.append hclose).append hpattern).append Piece.writes_newline
  simpa [Variant.pieces, Pattern.pieces] using hall

/-- Variants are written one after the other, each on lines of its own. -/
theorem Arms.writes {variants : List Variant} (hkeys : ∀ v ∈ variants, v.key.Sound)
    (level : Nat) :
    Writes true (Variant.piecesOf level variants)
      (variants.flatMap fun v => v.written level) true := by
  induction variants with
  | nil => exact Piece.writes_nil
  | cons v rest ih =>
    have hfirst : Writes true (v.pieces level) (v.written level) true :=
      ⟨rfl, (writes_variant (hkeys v List.mem_cons_self) level).endsLine⟩
    exact hfirst.append (ih fun v hv => hkeys v (List.mem_cons_of_mem _ hv))

/-- A select expression ends the line of its selector, and the line of each variant. -/
theorem writes_select (htidy : shape.Tidy) {selector : Expression} {variants : List Variant}
    (hselector : shape.Inline selector) (harms : shape.Arms variants) (level : Nat) :
    Writes false ((Expression.select selector variants).pieces level)
      (selector.written level ++ [' ', '-', '>', '\n'] ++
        variants.flatMap fun v => v.written (level + 1)) true := by
  have harrow : Writes false [.at level " ->"] " ->".toList false := Piece.writes_at (by simp)
  have hall := (((hselector.writes htidy level).append harrow).append Piece.writes_newline).append
    (Arms.writes harms.keys (level + 1))
  simpa [Expression.pieces] using hall

/-- An expression leaves the output at the start of a line if it is a select expression. -/
theorem Full.writes (htidy : shape.Tidy) {e : Expression} (h : shape.Full e) (level : Nat) :
    Writes false (e.pieces level) (e.written level) e.endsLine := by
  refine ⟨rfl, ?_⟩
  rcases h.select_or_inline with ⟨selector, variants, rfl, hselector, -, harms⟩ | ⟨hinline, -⟩
  · exact (writes_select htidy hselector harms level).endsLine
  · rw [hinline.endsLine_eq_false]
    exact (hinline.writes htidy level).endsLine

/-- The placeables of every number of levels are written tidily, by induction on it. -/
theorem tidy_levels (pattern : Pattern → Prop) (level : Nat) : (levels pattern level).Tidy := by
  induction level with
  | zero => exact fun e he => he.elim
  | succ level ih => exact fun e he column => Full.writes ih he column

end Shape

end Phrasebook
