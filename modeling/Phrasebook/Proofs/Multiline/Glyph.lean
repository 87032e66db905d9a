import Phrasebook.Proofs.RoundTrip.Grammar

/-!
# The value of lines

A pattern that stands below the name of its unit is a sequence of lines, each of them spaces with
characters and variables behind them. Its value has the lines without the spaces that they share,
joined by line feeds, but no empty line at the end and no space at the end of the last line. What
segments stand for is told in the same terms.
-/

namespace Phrasebook

/-- A character of text, or a variable between braces. -/
inductive Glyph where
  | char (c : Char)
  | variableRef (name : String)
  deriving DecidableEq

/-- A line: the spaces at its front, and what stands behind them. -/
structure GlyphLine where
  spaces : Nat
  body : List Glyph

/-- A character that text is made of, or a name between braces. -/
def Glyph.Sound : Glyph → Prop
  | char c => c ∉ ['{', '}', '\n', '\r']
  | variableRef name => IsIdentifier name

/-- A line is empty behind its spaces, or goes on with a character that may begin text there. -/
structure GlyphLine.Sound (l : GlyphLine) : Prop where
  glyphs : ∀ g ∈ l.body, g.Sound
  first : ∀ g ∈ l.body.head?, ∃ c, g = .char c ∧ c ∉ [' ', '{', '}', '.', '[', '*']

/-- The pattern of glyphs, in which adjacent characters are one text. -/
def Pattern.ofGlyphs : List Glyph → Pattern
  | [] => []
  | .variableRef name :: rest => .placeable (.variableRef name) :: ofGlyphs rest
  | .char c :: rest =>
    match ofGlyphs rest with
    | .text s :: others => .text (String.singleton c ++ s) :: others
    | others => .text (String.singleton c) :: others

namespace GlyphLine

/-- The fewest spaces before a line that is not empty. -/
def leastSpaces (lines : List GlyphLine) : Nat :=
  ((lines.filter fun l => !l.body.isEmpty).map spaces).min?.getD 0

/-- The line without as many of its spaces. -/
def dedent (count : Nat) (l : GlyphLine) : List Glyph :=
  List.replicate (l.spaces - count) (.char ' ') ++ l.body

/-- The lines without the spaces that they share, joined by line feeds. Empty lines at the end and
spaces at the end of the last line are dropped. -/
def dedented (lines : List GlyphLine) : List Glyph :=
  let kept := Text.dropEndWhile (·.body.isEmpty) lines
  Text.dropEndWhile (· == .char ' ')
    (List.intercalate [.char '\n'] (kept.map (dedent (leastSpaces lines))))

end GlyphLine

/-! ## The glyphs of segments -/

/-- An expression that glyphs stand for. -/
def Expression.IsVariable (e : Expression) : Prop := ∃ name, e = .variableRef name

/-- The glyphs of a segment whose placeable is a variable. -/
def Segment.glyphs (common : Option Nat) : Segment → List Glyph
  | text indent content newline =>
    (remainingIndent common indent ++ content ++ if newline then ['\n'] else []).map .char
  | placeable _ (.variableRef name) => [.variableRef name]
  | placeable .. => []

/-- Spaces and line breaks are blank. -/
def Glyph.isBlank : Glyph → Bool
  | char c => Text.isBlank c
  | variableRef _ => false

variable {indent common : Option Nat} {startsLine : Bool} {segment : Segment}

namespace Pattern

/-- A character is text before what follows it. -/
theorem ofGlyphs_char (c : Char) (rest : List Glyph) :
    ofGlyphs (.char c :: rest) = cons (.text (String.singleton c)) (ofGlyphs rest) := by
  rw [ofGlyphs]
  rcases ofGlyphs rest with _ | ⟨_ | _, others⟩ <;> simp [cons]

/-- Characters in a row are one text before what follows them. -/
theorem ofGlyphs_chars (text : List Char) (rest : List Glyph) :
    ofGlyphs (text.map .char ++ rest) = cons (.text (String.ofList text)) (ofGlyphs rest) := by
  induction text with
  | nil => exact (cons_empty _).symm
  | cons c text ih =>
    have htext : String.ofList (c :: text) = String.singleton c ++ String.ofList text := by
      rw [String.singleton_eq_ofList, ← String.ofList_append]
      rfl
    rw [List.map_cons, List.cons_append, ofGlyphs_char, ih, cons_cons_text, htext]

/-- The elements of segments, joined, are the pattern of their glyphs. -/
theorem join_element {all : List Segment} (h : ∀ s ∈ all, s.Holds Expression.IsVariable) :
    join (all.map (Segment.element common)) = ofGlyphs (all.flatMap (Segment.glyphs common)) := by
  induction all with
  | nil => rfl
  | cons s rest ih =>
    obtain ⟨hs, hrest⟩ := List.forall_mem_cons.mp h
    rw [List.map_cons, join_cons, ih hrest, List.flatMap_cons]
    cases s with
    | text indent content newline => exact (ofGlyphs_chars _ _).symm
    | placeable atMargin e =>
      obtain ⟨name, rfl⟩ := hs
      rfl

end Pattern

namespace Segment

/-- A blank segment has blank glyphs. -/
theorem isBlank_glyphs (h : segment.isBlank) : ∀ g ∈ segment.glyphs common, g.isBlank := by
  cases segment with
  | placeable atMargin e => cases h
  | text indent content newline =>
    refine List.forall_mem_map.mpr (List.forall_mem_append.mpr
      ⟨List.forall_mem_append.mpr ⟨fun c hc => ?_, fun c hc => ?_⟩, ?_⟩)
    · cases indent with
      | none => cases hc
      | some i =>
        rw [List.eq_of_mem_replicate hc]
        rfl
    · have hspace := List.all_eq_true.mp h c hc
      rw [beq_iff_eq] at hspace
      rw [hspace]
      rfl
    · cases newline <;> simp [Glyph.isBlank, Text.isBlank, Text.isBreak]

/-- What is trimmed from a segment are the blanks at the end of its glyphs. -/
theorem Solid.glyphs_trim (h : segment.Solid) (hholds : segment.Holds Expression.IsVariable)
    (common : Option Nat) :
    Text.dropEndWhile Glyph.isBlank (segment.glyphs common) = segment.trim.glyphs common ∧
      segment.trim.glyphs common ≠ [] := by
  cases segment with
  | placeable atMargin e =>
    obtain ⟨name, rfl⟩ := hholds
    exact ⟨rfl, List.cons_ne_nil _ _⟩
  | text indent content newline =>
    have hcontent := Pattern.dropEndWhile_element common indent newline h
    have hblank : Glyph.isBlank ∘ Glyph.char = Text.isBlank := rfl
    have htrim : (text indent content newline).trim.glyphs common =
        (remainingIndent common indent ++ Text.dropEndWhile Text.isBlank content).map .char := by
      rw [Segment.trim, glyphs, if_neg Bool.false_ne_true, List.append_nil]
    refine ⟨by rw [htrim, glyphs, Text.dropEndWhile_map, hblank, hcontent], ?_⟩
    rw [htrim, Ne, List.map_eq_nil_iff]
    exact List.append_ne_nil_of_right_ne_nil _ h

end Segment

/-- The pattern of segments is that of their glyphs, without the blanks at the end. -/
theorem Pattern.ofSegments?_eq_ofGlyphs {all : List Segment} (hlined : Segment.Lined startsLine all)
    (hholds : ∀ s ∈ all, s.Holds Expression.IsVariable) (hne : ∃ s ∈ all, s.isBlank = false) :
    ofSegments? all = some (ofGlyphs
      (Text.dropEndWhile Glyph.isBlank
        (all.flatMap (Segment.glyphs (Segment.commonIndent all))))) := by
  obtain ⟨p, hp⟩ : ∃ p, ofSegments? all = some p := by
    have hkept : Text.dropEndWhile Segment.isBlank all ≠ [] := by
      rw [Ne, Text.dropEndWhile_eq_nil_iff]
      simpa using hne
    rw [ofSegments?, if_neg (by simpa using hkept)]
    exact ⟨_, rfl⟩
  obtain ⟨init, segment, blank, hsplit, hsolid, hblank, rfl⟩ := ofSegments?_eq_some hlined hp
  generalize Segment.commonIndent all = common at hp ⊢
  rw [hsplit, List.forall_mem_append, List.forall_mem_cons] at hholds
  obtain ⟨hinit, hsegment, -⟩ := hholds
  have htrim : ∀ s ∈ init ++ [segment.trim], s.Holds Expression.IsVariable := by
    refine List.forall_mem_append.mpr ⟨hinit, List.forall_mem_singleton.mpr ?_⟩
    cases segment with
    | text => trivial
    | placeable => exact hsegment
  obtain ⟨hdrop, hnonempty⟩ := hsolid.glyphs_trim hsegment common
  have hend : ∀ g ∈ blank.flatMap (Segment.glyphs common), g.isBlank := by
    intro g hg
    obtain ⟨s, hs, hmem⟩ := List.mem_flatMap.mp hg
    exact Segment.isBlank_glyphs (hblank s hs) g hmem
  have hglyphs : Text.dropEndWhile Glyph.isBlank (all.flatMap (Segment.glyphs common)) =
      (init ++ [segment.trim]).flatMap (Segment.glyphs common) := by
    rw [hsplit, List.flatMap_append, List.flatMap_cons, ← List.append_assoc,
      Text.dropEndWhile_append_all hend, Text.dropEndWhile_append_of_ne_nil (by rwa [hdrop]), hdrop,
      List.flatMap_append, List.flatMap_singleton]
  rw [hp, join_element htrim, hglyphs]

end Phrasebook
