import Phrasebook.Proofs.Multiline.Glyph

/-!
# The segments of lines

A line is read as text up to its first variable, and again behind each variable, with the spaces
before it as its indentation. The segments of all lines make up the pattern of the lines without
the spaces that they share.
-/

namespace Phrasebook

/-! ## The segments of a line -/

/-- The segments of a line from some place on. `text` is what has been read since the line began,
behind an indentation, or since the last placeable. -/
def Glyph.segments (indent : Option Nat) (text : List Char) : List Glyph → List Segment
  | [] => [.text indent text true]
  | .char c :: rest => segments indent (text ++ [c]) rest
  | .variableRef name :: rest =>
    (if text = [] then [] else [.text indent text false]) ++
      .placeable false (.variableRef name) :: segments none [] rest

/-- The segments of a line that is written behind more spaces. -/
def GlyphLine.segments (depth : Nat) (l : GlyphLine) : List Segment :=
  Glyph.segments (some (depth + l.spaces)) [] l.body

variable {indent common : Option Nat} {text : List Char} {body : List Glyph} {startsLine : Bool}
  {segment : Segment} {rest : List Segment} {c : Char}

namespace Glyph

/-- A character of a line is no line break. -/
theorem isBreak_of_sound (h : (char c).Sound) : Text.isBreak c = false := by
  simp only [Sound, List.mem_cons, List.not_mem_nil, or_false, not_or] at h
  simp [Text.isBreak, h]

/-- A character of a line is one of text. -/
theorem isTextChar_of_sound (h : (char c).Sound) : Reader.isTextChar c := by
  have hbreak := isBreak_of_sound h
  simp only [Sound, List.mem_cons, List.not_mem_nil, or_false, not_or] at h
  simp [Reader.isTextChar_iff, hbreak, h]

/-- One more character may be read where some text, or the start of a line, was. -/
theorem fits_concat (h : (Segment.text indent text true).Fits startsLine)
    (hc : (char c).Sound) (hstart : text = [] → startsLine = false) :
    (Segment.text indent (text ++ [c]) true).Fits startsLine := by
  obtain ⟨hindent, hchars, hhead, -⟩ := h
  refine ⟨hindent, ?_, fun hline => ?_, by rintro ⟨⟩⟩
  · exact List.forall_mem_append.mpr
      ⟨hchars, List.forall_mem_singleton.mpr (isTextChar_of_sound hc)⟩
  · rcases text with _ | ⟨d, text⟩
    · rw [hstart rfl] at hline
      cases hline
    · exact hhead hline

/-- The segments of a line are followed by those of the next one. -/
theorem lined_segments (hfits : (Segment.text indent text true).Fits startsLine)
    (hbody : ∀ g ∈ body, g.Sound) (hstart : text = [] → startsLine = false)
    (hrest : Segment.Lined true rest) :
    Segment.Lined startsLine (segments indent text body ++ rest) := by
  induction body generalizing indent text startsLine with
  | nil => exact ⟨hfits, fun _ _ _ _ => rfl, hrest⟩
  | cons g body ih =>
    obtain ⟨hg, hothers⟩ := List.forall_mem_cons.mp hbody
    cases g with
    | char c => exact ih (fits_concat hfits hg hstart) hothers (by simp)
    | variableRef name =>
      -- The text before the placeable is a segment only if there is any.
      have hplaceable (startsLine : Bool) : Segment.Lined startsLine
          (.placeable false (.variableRef name) :: (segments none [] body ++ rest)) :=
        ⟨by rintro ⟨⟩, by rintro _ - ⟨⟩, ih ⟨rfl, by simp, by rintro ⟨⟩, by rintro ⟨⟩⟩ hothers
          fun _ => rfl⟩
      by_cases htext : text = []
      · simpa [segments, htext] using hplaceable startsLine
      · obtain ⟨hindent, hchars, hhead, -⟩ := hfits
        simpa [segments, htext] using
          ⟨⟨hindent, hchars, hhead, fun _ => htext⟩, by rintro _ ⟨⟩ - ⟨⟩, hplaceable false⟩

/-- The only placeables of a line are variables. -/
theorem holds_segments : ∀ s ∈ segments indent text body, s.Holds Expression.IsVariable := by
  induction body generalizing indent text with
  | nil => exact List.forall_mem_singleton.mpr trivial
  | cons g body ih =>
    cases g with
    | char c => exact ih
    | variableRef name =>
      refine List.forall_mem_append.mpr ⟨?_, List.forall_mem_cons.mpr ⟨⟨name, rfl⟩, ih⟩⟩
      by_cases htext : text = [] <;> simp [htext, Segment.Holds]

/-- The segments of a line have its glyphs, with what is left of its indentation before them. -/
theorem glyphs_segments (hstart : text = [] → indent = none) :
    (segments indent text body).flatMap (Segment.glyphs common) =
      (Segment.remainingIndent common indent ++ text).map .char ++ body ++ [.char '\n'] := by
  induction body generalizing indent text with
  | nil => simp [segments, Segment.glyphs]
  | cons g body ih =>
    cases g with
    | char c =>
      rw [segments, ih (by simp)]
      simp
    | variableRef name =>
      by_cases htext : text = []
      · simp [segments, htext, hstart htext, Segment.glyphs, Segment.remainingIndent, ih]
      · simp [segments, htext, Segment.glyphs, Segment.remainingIndent, ih]

/-- Only text at the start of a line has a margin. -/
theorem margins_segments_none :
    (segments none text body).filterMap Segment.margin? = [] := by
  induction body generalizing text with
  | nil => rfl
  | cons g body ih =>
    cases g with
    | char c => exact ih
    | variableRef name =>
      rw [segments, List.filterMap_append, List.filterMap_cons_none rfl, ih, List.append_nil]
      split <;> rfl

/-- A line that begins with text has one margin, which is its indentation. -/
theorem margins_segments {i : Nat} (h : text.all (· == ' ') = false) :
    (segments (some i) text body).filterMap Segment.margin? = [i] := by
  induction body generalizing text with
  | nil => simp [segments, Segment.margin?, h]
  | cons g body ih =>
    cases g with
    | char c => exact ih (by simp [h])
    | variableRef name =>
      have htext : text ≠ [] := by
        rintro rfl
        cases h
      simp [segments, htext, Segment.margin?, h, margins_segments_none]

end Glyph

/-! ## Whole lines -/

namespace GlyphLine

variable {l : GlyphLine} {lines : List GlyphLine} {depth : Nat}

/-- A line is empty, or its first character begins text. -/
theorem Sound.cases (h : l.Sound) : l.body = [] ∨ ∃ c body, l.body = .char c :: body ∧ c ≠ ' ' ∧
    Reader.endsPattern c = false ∧ (Glyph.char c).Sound ∧ ∀ g ∈ body, g.Sound := by
  rcases hbody : l.body with _ | ⟨g, body⟩
  · exact .inl rfl
  · obtain ⟨c, rfl, hc⟩ := h.first g (by rw [hbody]; rfl)
    obtain ⟨hchar, hothers⟩ := List.forall_mem_cons.mp (hbody ▸ h.glyphs)
    simp only [List.mem_cons, List.not_mem_nil, or_false, not_or] at hc
    exact .inr ⟨c, body, rfl, hc.1, by simp [Reader.endsPattern, hc], hchar, hothers⟩

/-- The segments of a sound line can be followed by those of the next line. -/
theorem lined_segments (h : l.Sound) (hrest : Segment.Lined true rest) :
    Segment.Lined true (l.segments depth ++ rest) := by
  rw [segments]
  obtain hbody | ⟨c, body, hbody, hspace, hends, hc, hothers⟩ := h.cases
  · rw [hbody]
    exact ⟨⟨rfl, by simp, by simp, by rintro ⟨⟩⟩, fun _ _ _ _ => rfl, hrest⟩
  · rw [hbody, Glyph.segments]
    refine Glyph.lined_segments ⟨rfl, ?_, ?_, by rintro ⟨⟩⟩ hothers (by simp) hrest
    · simpa using Glyph.isTextChar_of_sound hc
    · rintro - _ ⟨⟩
      exact ⟨hspace, hends⟩

/-- The segments of a sound line have its glyphs behind the spaces that are left. -/
theorem glyphs_segments (h : l.Sound) : (l.segments depth).flatMap (Segment.glyphs common) =
    (Segment.remainingIndent common (some (depth + l.spaces))).map .char ++ l.body ++
      [.char '\n'] := by
  rw [segments]
  obtain hbody | ⟨c, body, hbody, -⟩ := h.cases
  · simp [hbody, Glyph.segments, Segment.glyphs]
  · rw [hbody, Glyph.segments, Glyph.glyphs_segments (by simp)]
    simp

/-- A sound line has its spaces as a margin unless it is empty. -/
theorem margins_segments (h : l.Sound) : (l.segments depth).filterMap Segment.margin? =
    if l.body.isEmpty then [] else [depth + l.spaces] := by
  rw [segments]
  obtain hbody | ⟨c, body, hbody, hspace, -⟩ := h.cases
  · simp [hbody, Glyph.segments, Segment.margin?]
  · rw [hbody, Glyph.segments, Glyph.margins_segments (by simpa using hspace)]
    rfl

/-- The common indentation of lines is that of the line with the least spaces. -/
theorem commonIndent_segments (h : ∀ l ∈ lines, l.Sound) (hne : ∃ l ∈ lines, l.body ≠ []) :
    Segment.commonIndent (lines.flatMap (segments depth)) = some (depth + leastSpaces lines) := by
  have hmargins : (lines.flatMap (segments depth)).filterMap Segment.margin? =
      ((lines.filter fun l => !l.body.isEmpty).map spaces).map (depth + ·) := by
    clear hne
    induction lines with
    | nil => rfl
    | cons l lines ih =>
      obtain ⟨hl, hlines⟩ := List.forall_mem_cons.mp h
      rw [List.flatMap_cons, List.filterMap_append, margins_segments hl, ih hlines]
      cases hempty : l.body.isEmpty <;> simp [hempty]
  have hsome : ∃ k, ((lines.filter fun l => !l.body.isEmpty).map spaces).min? = some k := by
    rw [← Option.ne_none_iff_exists', Ne, List.min?_eq_none_iff]
    simpa using hne
  obtain ⟨k, hk⟩ := hsome
  rw [Segment.commonIndent, hmargins, Segment.min?_map_add, leastSpaces, hk]
  rfl

private theorem intercalate_concat {α : Type} {sep last : List α} (init : List (List α)) :
    List.intercalate sep (init ++ [last]) = init.flatMap (· ++ sep) ++ last := by
  induction init with
  | nil => exact List.intercalate_singleton
  | cons first init ih =>
    rw [List.cons_append, List.intercalate_cons_of_ne_nil (by simp), ih, List.flatMap_cons,
      List.append_assoc, List.append_assoc, List.append_assoc]

/-- A body that is not empty is not blank, and only spaces are blank in it. -/
theorem Sound.dropEndWhile_body (h : l.Sound) (hne : l.body ≠ []) :
    Text.dropEndWhile Glyph.isBlank l.body ≠ [] ∧
      Text.dropEndWhile (· == .char ' ') l.body = Text.dropEndWhile Glyph.isBlank l.body := by
  have hblank (g : Glyph) (hg : g.Sound) : (g == .char ' ') = g.isBlank := by
    cases g with
    | variableRef name => rfl
    | char c =>
      have hbreak := Glyph.isBreak_of_sound hg
      simp [Glyph.isBlank, Text.isBlank, hbreak, beq_eq_decide]
  obtain hbody | ⟨c, body, hbody, hspace, -, hc, -⟩ := h.cases
  · exact absurd hbody hne
  · refine ⟨?_, Text.dropEndWhile_congr fun g hg => hblank g (h.glyphs g hg)⟩
    rw [Ne, Text.dropEndWhile_eq_nil_iff, hbody]
    intro hall
    have hfirst := hall _ List.mem_cons_self
    rw [← hblank _ hc] at hfirst
    exact hspace (by simpa using hfirst)

/-- What is blank at the end of lines is empty lines, a line feed, and the spaces before it. -/
theorem dropEndWhile_isBlank (count : Nat) (h : ∀ l ∈ lines, l.Sound)
    (hne : ∃ l ∈ lines, l.body ≠ []) :
    Text.dropEndWhile Glyph.isBlank (lines.flatMap fun l => l.dedent count ++ [.char '\n']) =
      Text.dropEndWhile (· == .char ' ') (List.intercalate [.char '\n']
        ((Text.dropEndWhile (·.body.isEmpty) lines).map (dedent count))) := by
  obtain ⟨empty, hsplit, hempty, hlast⟩ := Text.dropEndWhile_spec (·.body.isEmpty) lines
  obtain hnil | ⟨init, last, hkept⟩ :=
    List.eq_nil_or_concat (Text.dropEndWhile (·.body.isEmpty) lines)
  · obtain ⟨l, hl, hbody⟩ := hne
    exact absurd (by simpa using Text.dropEndWhile_eq_nil_iff.mp hnil l hl) hbody
  rw [List.concat_eq_append] at hkept
  have hbody : last.body ≠ [] := by simpa using hlast last (by simp [hkept])
  have hsound : last.Sound := h last (by rw [hsplit, hkept]; simp)
  obtain ⟨hsolid, hspaces⟩ := hsound.dropEndWhile_body hbody
  have hend : ∀ g ∈ .char '\n' :: empty.flatMap (fun l => l.dedent count ++ [.char '\n']),
      g.isBlank := by
    refine List.forall_mem_cons.mpr ⟨rfl, fun g hg => ?_⟩
    obtain ⟨l, hl, hmem⟩ := List.mem_flatMap.mp hg
    have hnil : l.body = [] := by simpa using hempty l hl
    rw [dedent, hnil, List.append_nil, List.mem_append, List.mem_replicate,
      List.mem_singleton] at hmem
    obtain ⟨-, rfl⟩ | rfl := hmem <;> rfl
  -- Only the last line that is not empty has something to lose.
  set front := init.flatMap (fun l => l.dedent count ++ [.char '\n']) ++
    List.replicate (last.spaces - count) (.char ' ') with hfront
  have hlines : lines.flatMap (fun l => l.dedent count ++ [.char '\n']) =
      front ++ last.body ++
        .char '\n' :: empty.flatMap fun l => l.dedent count ++ [.char '\n'] := by
    conv_lhs => rw [hsplit, hkept]
    simp [hfront, dedent]
  have hjoined : List.intercalate [.char '\n'] ((init ++ [last]).map (dedent count)) =
      front ++ last.body := by
    rw [List.map_append, List.map_singleton, intercalate_concat, List.flatMap_map, hfront, dedent,
      List.append_assoc]
  rw [hlines, Text.dropEndWhile_append_all hend, hkept, hjoined,
    Text.dropEndWhile_append_of_ne_nil hsolid,
    Text.dropEndWhile_append_of_ne_nil (by rwa [hspaces]), hspaces]

/-- The segments of sound lines stand in lines. -/
theorem lined_flatMap (h : ∀ l ∈ lines, l.Sound) :
    Segment.Lined true (lines.flatMap (segments depth)) := by
  induction lines with
  | nil => trivial
  | cons l lines ih =>
    obtain ⟨hl, hlines⟩ := List.forall_mem_cons.mp h
    exact lined_segments hl (ih hlines)

/-- Without the common indentation the segments of lines have the glyphs of the lines dedented. -/
theorem glyphs_flatMap (count : Nat) (h : ∀ l ∈ lines, l.Sound) :
    (lines.flatMap (segments depth)).flatMap (Segment.glyphs (some (depth + count))) =
      lines.flatMap fun l => l.dedent count ++ [.char '\n'] := by
  induction lines with
  | nil => rfl
  | cons l lines ih =>
    obtain ⟨hl, hlines⟩ := List.forall_mem_cons.mp h
    rw [List.flatMap_cons, List.flatMap_append, glyphs_segments hl, ih hlines, List.flatMap_cons,
      dedent, Segment.remainingIndent, Option.getD_some, Nat.add_sub_add_left, List.map_replicate]

/-- The segments of lines make up the pattern of the lines without the spaces that they share. -/
theorem ofSegments?_flatMap (h : ∀ l ∈ lines, l.Sound) (hne : ∃ l ∈ lines, l.body ≠ []) :
    Pattern.ofSegments? (lines.flatMap (segments depth)) =
      some (Pattern.ofGlyphs (dedented lines)) := by
  have hholds : ∀ s ∈ lines.flatMap (segments depth), s.Holds Expression.IsVariable := by
    intro s hs
    obtain ⟨l, -, hmem⟩ := List.mem_flatMap.mp hs
    exact Glyph.holds_segments s hmem
  have hsolid : ∃ s ∈ lines.flatMap (segments depth), s.isBlank = false := by
    obtain ⟨l, hl, hbody⟩ := hne
    have hmargin : depth + l.spaces ∈ (l.segments depth).filterMap Segment.margin? := by
      rw [margins_segments (h l hl), if_neg (by simpa using hbody)]
      exact List.mem_cons_self
    obtain ⟨s, hs, hsome⟩ := List.mem_filterMap.mp hmargin
    refine ⟨s, List.mem_flatMap.mpr ⟨l, hl, hs⟩, ?_⟩
    rw [← Bool.not_eq_true]
    intro hblank
    rw [Segment.margin?_of_isBlank hblank] at hsome
    cases hsome
  rw [Pattern.ofSegments?_eq_ofGlyphs (lined_flatMap h) hholds hsolid, commonIndent_segments h hne,
    glyphs_flatMap _ h, dropEndWhile_isBlank _ h hne, dedented]

end GlyphLine

end Phrasebook
