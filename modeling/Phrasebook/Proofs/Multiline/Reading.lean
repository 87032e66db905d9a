import Phrasebook.Proofs.Blocks
import Phrasebook.Proofs.Multiline.Line
import Phrasebook.Proofs.RoundTrip.ReadBack.Select

/-!
# Lines read as a pattern

Lines of text and variables that stand below the name of a message are read segment by segment, to
the end of the source. The message has the value that the lines have without the spaces that they
share, however deep they stand.
-/

namespace Phrasebook

/-- The text of a glyph. -/
def Glyph.source : Glyph → List Char
  | char c => [c]
  | variableRef name => ['{', ' ', '$'] ++ name.toList ++ [' ', '}']

/-- The text of a line behind more spaces, with its line end. -/
def GlyphLine.source (depth : Nat) (l : GlyphLine) : List Char :=
  List.replicate depth ' ' ++ (List.replicate l.spaces ' ' ++ l.body.flatMap Glyph.source) ++ ['\n']

namespace Reader

variable {indent : Option Nat} {text rest : List Char} {body : List Glyph} {startsLine : Bool}
  {read : List Segment} {l : GlyphLine} {lines : List GlyphLine} {depth : Nat}

/-- The step with which a pattern of a unit is read whose first line is below its name. -/
abbrev entryStep : List Segment → Reader (Step (List Segment) (List Segment)) :=
  segmentStep (Nested.levels maxNesting).placeable true

/-- A variable between braces is read where some text of the line stands before it. -/
theorem loop_variable {name : String} (hname : IsIdentifier name)
    (hstart : atLineStart true read = false) :
    loop entryStep read ((Glyph.variableRef name).source ++ rest) =
      loop entryStep (.placeable false (.variableRef name) :: read) rest := by
  have hplaceable : (Nested.levels maxNesting).placeable
      (' ' :: '$' :: (name.toList ++ ' ' :: '}' :: rest)) = .ok (.variableRef name, rest) := by
    have hline : '\n' ∉ ("$" ++ name).toList := by simpa using IsIdentifier.inline hname
    have hwritten : (Expression.variableRef name).written 0 = '$' :: name.toList := by
      rw [Expression.written, Expression.pieces, (Piece.writes_at hline).layout]
      simp
    have hread := placeable_reads (e := .variableRef name) hname rest
    rwa [hwritten, Expression.dedent] at hread
  have hspaces : atLineStart true read = true ↔ (0 : Nat) ≠ 0 := by simp [hstart]
  have hsource : (Glyph.variableRef name).source ++ rest =
      '{' :: ' ' :: '$' :: (name.toList ++ ' ' :: '}' :: rest) := by
    simp [Glyph.source]
  rw [hsource]
  exact segmentStep_reads (readsBack_levels (fun _ => True) maxNesting)
    (nextSegment_placeable hspaces hplaceable)

/-- A line is read on behind the text that was read of it. The text grows until a placeable or the
line end makes it a segment, so that it stays part of what is to be read. -/
theorem loop_body (hfits : (Segment.text indent text true).Fits startsLine)
    (hbody : ∀ g ∈ body, g.Sound) (hstart : atLineStart true read = startsLine)
    (hindent : indent ≠ some 0) (htext : body ≠ [] → text = [] → startsLine = false) :
    loop entryStep read (List.replicate (indent.getD 0) ' ' ++
        (text ++ (body.flatMap Glyph.source ++ '\n' :: rest))) =
      loop entryStep ((Glyph.segments indent text body).reverse ++ read) rest := by
  have hreads := readsBack_levels (fun _ => True) maxNesting
  induction body generalizing indent text startsLine read with
  | nil =>
    have hends : Ends true ('\n' :: rest) rest := rfl
    exact segmentStep_reads hreads
      (nextSegment_text hfits hstart (fun h => absurd h hindent) hends)
  | cons g body ih =>
    obtain ⟨hg, hothers⟩ := List.forall_mem_cons.mp hbody
    have hstop := htext (List.cons_ne_nil _ _)
    cases g with
    | char c =>
      have hread := ih (Glyph.fits_concat hfits hg hstop) hothers hstart hindent (by simp)
      simpa [Glyph.source, Glyph.segments] using hread
    | variableRef name =>
      -- Behind the placeable the line goes on without an indentation.
      have hinside : (Segment.text none [] true).Fits false :=
        ⟨rfl, by simp, by rintro ⟨⟩, by rintro ⟨⟩⟩
      have hbehind (before : List Segment) :
          loop entryStep (.placeable false (.variableRef name) :: before)
              (body.flatMap Glyph.source ++ '\n' :: rest) =
            loop entryStep ((Glyph.segments none [] body).reverse ++
              .placeable false (.variableRef name) :: before) rest :=
        ih hinside hothers rfl (by rintro ⟨⟩) fun _ _ => rfl
      rw [List.flatMap_cons, List.append_assoc]
      by_cases hnil : text = []
      · obtain rfl := hstop hnil
        obtain rfl : indent = none := by simpa using hfits.1
        rw [hnil, Option.getD_none, List.replicate_zero, List.nil_append, List.nil_append,
          loop_variable hg hstart, hbehind]
        simp [Glyph.segments]
      · have hends : Ends false ((Glyph.variableRef name).source ++
            (body.flatMap Glyph.source ++ '\n' :: rest)) _ := ⟨rfl, rfl⟩
        have hfits' : (Segment.text indent text false).Fits startsLine :=
          ⟨hfits.1, hfits.2.1, hfits.2.2.1, fun _ => hnil⟩
        rw [segmentStep_reads hreads
          (nextSegment_text hfits' hstart (fun h => absurd h hindent) hends),
          loop_variable hg rfl, hbehind]
        simp [Glyph.segments, hnil]

/-- Behind the segments of a line another line starts. -/
theorem atLineStart_segments :
    atLineStart startsLine ((Glyph.segments indent text body).reverse ++ read) = true := by
  induction body generalizing indent text read with
  | nil => rfl
  | cons g body ih =>
    cases g with
    | char c => exact ih
    | variableRef name => simpa [Glyph.segments] using ih

/-- The source of a line is its spaces, its glyphs and a line feed. -/
theorem source_append : l.source depth ++ rest =
    List.replicate (depth + l.spaces) ' ' ++ (l.body.flatMap Glyph.source ++ '\n' :: rest) := by
  rw [GlyphLine.source, ← List.replicate_append_replicate]
  simp only [List.append_assoc, List.singleton_append]

/-- A line is read whole. -/
theorem loop_line (hl : l.Sound) (hdepth : 1 ≤ depth) (hstart : atLineStart true read = true) :
    loop entryStep read (l.source depth ++ rest) =
      loop entryStep ((l.segments depth).reverse ++ read) rest := by
  have hindent : some (depth + l.spaces) ≠ some 0 := by
    rw [Ne, Option.some.injEq]
    omega
  rw [source_append, GlyphLine.segments]
  obtain hbody | ⟨c, body, hbody, hspace, hends, hc, hothers⟩ := hl.cases
  · rw [hbody]
    exact loop_body ⟨rfl, by simp, by simp, by rintro ⟨⟩⟩ (by simp) hstart hindent
      fun hne => absurd rfl hne
  · have hfits : (Segment.text (some (depth + l.spaces)) [c] true).Fits true := by
      refine ⟨rfl, by simpa using Glyph.isTextChar_of_sound hc, ?_, by rintro ⟨⟩⟩
      rintro - _ ⟨⟩
      exact ⟨hspace, hends⟩
    rw [hbody]
    exact loop_body hfits hothers hstart hindent (by simp)

/-- The lines of a pattern are read up to the end of the source. -/
theorem loop_lines (hlines : ∀ l ∈ lines, l.Sound) (hdepth : 1 ≤ depth)
    (hstart : atLineStart true read = true) :
    loop entryStep read (lines.flatMap (GlyphLine.source depth)) =
      .ok (read.reverse ++ lines.flatMap (GlyphLine.segments depth), []) := by
  induction lines generalizing read with
  | nil =>
    have hdone : entryStep read [] = .ok (.done read.reverse, []) := by
      rw [entryStep, segmentStep_eq, nextSegment, if_pos hstart]
      rfl
    rw [List.flatMap_nil, List.flatMap_nil, List.append_nil]
    exact loop_done (advances_segmentStep
      (readsBack_levels (fun _ => True) maxNesting).contained.placeable true) hdone
  | cons l lines ih =>
    obtain ⟨hl, hothers⟩ := List.forall_mem_cons.mp hlines
    have hread : loop entryStep ((l.segments depth).reverse ++ read)
        (lines.flatMap (GlyphLine.source depth)) = _ := ih hothers atLineStart_segments
    rw [List.flatMap_cons, loop_line hl hdepth hstart, hread]
    simp

/-- A pattern below the name of its unit is read as the value of its lines. -/
theorem entryPattern_lines (hlines : ∀ l ∈ lines, l.Sound)
    (hfirst : ∃ l ∈ lines.head?, l.body ≠ []) (hdepth : 1 ≤ depth) :
    entryPattern ('\n' :: lines.flatMap (GlyphLine.source depth)) =
      .ok (some (Pattern.ofGlyphs (GlyphLine.dedented lines)), []) := by
  obtain ⟨l, hhead, hbody⟩ := hfirst
  obtain ⟨others, rfl⟩ := List.head?_eq_some_iff.mp hhead
  have hspaces (line : List Char) : skipSpaces ('\n' :: line) = .ok (0, '\n' :: line) := rfl
  have hline (line : List Char) : acceptLineEnd ('\n' :: line) = .ok (true, line) := rfl
  have hl := hlines l List.mem_cons_self
  have hdrop : Text.dropBlankLines ((l :: others).flatMap (GlyphLine.source depth)) =
      (l :: others).flatMap (GlyphLine.source depth) := by
    obtain hnil | ⟨c, body, hcons, hspace, -, hc, -⟩ := hl.cases
    · exact absurd hnil hbody
    · rw [List.flatMap_cons, source_append, hcons, List.flatMap_cons, Glyph.source]
      refine Text.dropBlankLines_eq_self (Text.dropWhile_spaces _ ?_) ?_
      · rintro _ ⟨⟩
        exact hspace
      · exact Glyph.isBreak_of_sound hc
  rw [entryPattern, pattern, bind_ok (hspaces _), bind_ok (hline _)]
  simp only [if_true]
  rw [bind_ok (skipBlankLines_apply _), hdrop, bind_ok (loop_lines hlines hdepth rfl),
    List.reverse_nil, List.nil_append,
    GlyphLine.ofSegments?_flatMap hlines ⟨l, List.mem_cons_self, hbody⟩]
  rfl

end Reader

/-- Lines of text and variables below `m =` make up a message. Its value has the lines without the
spaces that they share. -/
theorem parse_lines {lines : List GlyphLine} {depth : Nat} (hdepth : 1 ≤ depth)
    (hlines : ∀ l ∈ lines, l.Sound) (hfirst : ∃ l ∈ lines.head?, l.body ≠ []) :
    let source := "m =\n" ++ String.ofList (lines.flatMap (GlyphLine.source depth))
    (Resource.parse source).entries =
      [.message {
        id := "m"
        value := some (Pattern.ofGlyphs (GlyphLine.dedented lines))
        attributes := []
        comment := none
        span := Reader.spanOf 0 source.toList }] := by
  intro source
  have hsource : source.toList =
      "m".toList ++ ' ' :: '=' :: '\n' :: lines.flatMap (GlyphLine.source depth) := by
    simp [source]
  exact Resource.entries_parse_value hsource (fun _ => rfl)
    (Reader.entryPattern_lines hlines hfirst hdepth)

/-- A later line sets the spaces that all lines share, a blank line keeps the others, and what is
blank behind the last variable is dropped. -/
theorem parse_lines_uneven :
    let lines : List GlyphLine := [
      ⟨4, [.char 'A', .variableRef "x"]⟩, ⟨6, []⟩, ⟨2, [.char 'b', .char ' ']⟩,
      ⟨3, [.char 'c', .variableRef "y", .char ' ']⟩, ⟨5, []⟩]
    let source := "m =\n" ++ String.ofList (lines.flatMap (GlyphLine.source 1))
    (∀ l ∈ lines, l.Sound) ∧ (∃ l ∈ lines.head?, l.body ≠ []) ∧
      (Resource.parse source).entries =
        [.message {
          id := "m"
          value := some [.text "  A", .placeable (.variableRef "x"), .text "\n    \nb \n c",
            .placeable (.variableRef "y")]
          attributes := []
          comment := none
          span := Reader.spanOf 0 source.toList }] := by
  intro lines source
  have hx : IsIdentifier "x" := ⟨'x', [], rfl, by decide, by simp⟩
  have hy : IsIdentifier "y" := ⟨'y', [], rfl, by decide, by simp⟩
  have hlines : ∀ l ∈ lines, l.Sound := by
    intro l hl
    simp only [lines, List.mem_cons, List.not_mem_nil, or_false] at hl
    rcases hl with rfl | rfl | rfl | rfl | rfl <;> constructor <;> simp [Glyph.Sound, hx, hy]
  have hfirst : ∃ l ∈ lines.head?, l.body ≠ [] := ⟨_, rfl, by decide⟩
  exact ⟨hlines, hfirst, parse_lines (by decide) hlines hfirst⟩

end Phrasebook
