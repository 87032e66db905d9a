import Phrasebook.Proofs.RoundTrip.Dedent
import Phrasebook.Proofs.RoundTrip.Trim

/-!
# Patterns as reading makes them

The segments of a pattern that was read are lined up: its first line begins with more than a space,
its last segment is solid and has no blanks at its end. This holds of the segments in which the
pattern is written as well as of those from which it was read, although a pattern that began behind
its `=` may be written below it, and a pattern from below its `=` behind it.
-/

namespace Phrasebook

namespace Segment

/-- A segment with which a pattern may begin: a placeable, or text with a first character other than
a space. -/
def Begins : Segment → Prop
  | text _ content _ => ∃ c ∈ content.head?, c ≠ ' '
  | placeable .. => True

/-- Segments with which a pattern may end: the last one is solid, and has no blanks at its end. -/
def Closed (segments : List Segment) : Prop :=
  ∃ init segment, segments = init ++ [segment] ∧ segment.Solid ∧ segment.trim = segment

/-- A placeable is not the first character of a line. -/
def OffMargin : Segment → Prop
  | text .. => True
  | placeable atMargin _ => atMargin = false

/-- A condition on the expression of a placeable. -/
def Holds (P : Expression → Prop) : Segment → Prop
  | text .. => True
  | placeable _ expression => P expression

/-- A segment at the start of a line without an indentation, or inside a line. -/
def Flush : Segment → Prop
  | text indent _ _ => indent.getD 0 = 0
  | placeable .. => True

/-- The segments with the first one at the start of a line, or inside a line. -/
def restart (startsLine : Bool) : List Segment → List Segment
  | text indent content newline :: rest =>
    text (if startsLine then some (indent.getD 0) else none) content newline :: rest
  | segments => segments

end Segment

namespace Pattern

open Segment

/-- A pattern as reading makes it, told by the segments in which it is written. -/
structure Sound (p : Pattern) : Prop where
  lined : Lined p.ownLines p.writtenSegments
  joined : join (p.writtenSegments.map whole) = p
  begins : ∀ segment ∈ p.writtenSegments.head?, segment.Begins
  closed : Closed p.writtenSegments

/-- The lines of a pattern have no spaces in common. -/
def Aligned (p : Pattern) : Prop :=
  p.writtenSegments.map (reduce p.margin) = p.writtenSegments

private theorem opened_eq_self {startsLine : Bool} {segments : List Segment}
    (h : ∀ s ∈ segments.head?, s.Begins) : opened startsLine segments = segments := by
  rcases segments with _ | ⟨⟨indent, content, newline⟩ | ⟨atMargin, e⟩, rest⟩
  · cases startsLine <;> rfl
  · obtain ⟨c, hc, hspace⟩ := h _ rfl
    obtain ⟨behind, rfl⟩ := List.head?_eq_some_iff.mp hc
    cases startsLine with
    | true => rfl
    | false =>
      have hdrop : (c :: behind).dropWhile (· == ' ') = c :: behind :=
        List.dropWhile_cons_of_neg (by simpa using hspace)
      rw [opened, hdrop]
  · cases startsLine <;> rfl

private theorem isHidden_eq_false {startsLine : Bool} {segments : List Segment}
    (h : Lined startsLine segments) : ∀ s ∈ segments, s.isHidden = false := by
  induction segments generalizing startsLine with
  | nil => rintro _ ⟨⟩
  | cons segment rest ih =>
    obtain ⟨hfits, -, hrest⟩ := h
    refine List.forall_mem_cons.mpr ⟨?_, ih hrest⟩
    cases segment with
    | placeable atMargin e => rfl
    | text indent content newline =>
      cases newline with
      | true => exact Bool.and_false _
      | false => simpa [isHidden] using hfits.2.2.2 rfl

/-- A pattern as reading makes it is read line by line as it is written. -/
theorem Sound.readSegments_eq {p : Pattern} (h : p.Sound) :
    p.readSegments = p.writtenSegments := by
  rw [readSegments, opened_eq_self h.begins, List.filter_eq_self]
  exact fun s hs => by rw [isHidden_eq_false h.lined s hs, Bool.not_false]

/-- A pattern whose lines have no spaces in common loses none. -/
theorem Sound.unindent?_eq {p : Pattern} (h : p.Sound) :
    p.unindent? = some (join (p.writtenSegments.map (element p.margin))) := by
  obtain ⟨init, segment, hsegments, hsolid, htrim⟩ := h.closed
  have hkept : Text.dropEndWhile Segment.isBlank p.writtenSegments = init ++ [segment] := by
    rw [hsegments]
    exact List.rdropWhile_concat_neg _ _ _ (by simp [hsolid.isBlank_eq_false])
  rw [unindent?, h.readSegments_eq, ofSegments?_eq hkept hsolid, htrim, ← hsegments, margin]

/-- A sound pattern whose lines share no spaces is read as it is. -/
theorem Sound.unindent?_eq_self {p : Pattern} (h : p.Sound) (haligned : p.Aligned) :
    p.unindent? = some p := by
  have helements : p.writtenSegments.map (element p.margin) = p.writtenSegments.map whole := by
    conv_rhs => rw [← haligned, List.map_map]
    exact List.map_congr_left fun s _ => element_eq_whole_reduce _ s
  rw [h.unindent?_eq, helements, h.joined]

/-- The placeables of a pattern are those of the segments in which it is written. -/
theorem Sound.holds_of_mem {p : Pattern} (h : p.Sound) {P : Expression → Prop}
    (hP : ∀ s ∈ p.writtenSegments, s.Holds P) {e : Expression} (he : .placeable e ∈ p) : P e := by
  rw [← h.joined] at he
  obtain ⟨s, hs, hwhole⟩ := List.mem_map.mp (mem_join_placeable he)
  cases s with
  | text indent content newline =>
    rw [Segment.whole_text] at hwhole
    cases hwhole
  | placeable atMargin inner =>
    cases hwhole
    exact hP _ hs

end Pattern

namespace Segment

variable {startsLine : Bool} {segment : Segment} {init segments : List Segment}

/-- A solid segment fits as before when it is trimmed. -/
theorem Fits.trim (h : segment.Fits startsLine) (hsolid : segment.Solid) :
    segment.trim.Fits startsLine := by
  cases segment with
  | placeable atMargin expression => exact h
  | text indent content newline =>
    obtain ⟨hindent, hchars, hhead, -⟩ := h
    obtain ⟨ending, hfront⟩ := Text.dropEndWhile_prefix (p := Text.isBlank) (s := content)
    refine ⟨hindent, ?_, ?_, fun _ => hsolid⟩
    · intro c hc
      exact hchars c (hfront ▸ List.mem_append_left _ hc)
    · intro hstarts c hc
      apply hhead hstarts c
      rw [← hfront, List.head?_append_of_ne_nil _ hsolid]
      exact hc

/-- A solid segment begins as before when it is trimmed. -/
theorem Begins.trim (h : segment.Begins) (hsolid : segment.Solid) : segment.trim.Begins := by
  cases segment with
  | placeable atMargin expression => trivial
  | text indent content newline =>
    obtain ⟨c, hc, hspace⟩ := h
    obtain ⟨ending, hfront⟩ := Text.dropEndWhile_prefix (p := Text.isBlank) (s := content)
    refine ⟨c, ?_, hspace⟩
    rwa [← hfront, List.head?_append_of_ne_nil _ hsolid] at hc

/-- Text stays text when it is trimmed. -/
@[simp] theorem isText_trim (segment : Segment) : segment.trim.isText = segment.isText := by
  cases segment <;> rfl

/-- A solid segment keeps its margin when it is trimmed. -/
theorem Solid.margin?_trim (h : segment.Solid) : segment.trim.margin? = segment.margin? := by
  have hbefore := h.isBlank_eq_false
  have hafter := h.trim.isBlank_eq_false
  rcases segment with ⟨_ | indent, content, newline⟩ | _
  · rfl
  · simp only [isBlank, Segment.trim] at hbefore hafter
    simp only [margin?, Segment.trim, hbefore, hafter]
  · rfl

/-- The last segment of lines can be trimmed if it is solid. -/
theorem Lined.trim (h : Lined startsLine (init ++ [segment])) (hsolid : segment.Solid) :
    Lined startsLine (init ++ [segment.trim]) := by
  induction init generalizing startsLine with
  | nil => exact ⟨h.1.trim hsolid, by rintro _ ⟨⟩, trivial⟩
  | cons first init ih =>
    obtain ⟨hfits, hnext, hrest⟩ := h
    refine ⟨hfits, ?_, ih hrest⟩
    rcases init with _ | ⟨second, init⟩
    · rintro _ ⟨⟩
      simpa using hnext segment rfl
    · exact hnext

/-- The last segment of a pattern may be trimmed before the margin is taken. -/
theorem commonIndent_trim (hsolid : segment.Solid) {blank : List Segment}
    (hblank : ∀ s ∈ blank, s.isBlank) :
    commonIndent (init ++ segment :: blank) = commonIndent (init ++ [segment.trim]) := by
  rw [← List.singleton_append, ← List.append_assoc, commonIndent_append_blank hblank]
  simp only [commonIndent, List.filterMap_append, List.filterMap_cons, hsolid.margin?_trim,
    List.filterMap_nil]

/-- Segments that make up a pattern make it up without what is blank at their end. -/
theorem exists_trimmed {p : Pattern} (hlined : Lined startsLine segments)
    (hbegins : ∀ s ∈ segments.head?, s.Begins) (h : Pattern.ofSegments? segments = some p) :
    ∃ trimmed, Lined startsLine trimmed ∧ Closed trimmed ∧ (∀ s ∈ trimmed.head?, s.Begins) ∧
      (∀ s ∈ trimmed, ∃ t ∈ segments, s = t ∨ s = t.trim) ∧
      p = Pattern.join (trimmed.map (element (commonIndent trimmed))) := by
  obtain ⟨init, segment, blank, rfl, hsolid, hblank, rfl⟩ :=
    Pattern.ofSegments?_eq_some hlined h
  have hkept : Lined startsLine (init ++ [segment]) := by
    rw [← List.singleton_append, ← List.append_assoc] at hlined
    exact (lined_append hlined).1
  refine ⟨init ++ [segment.trim], hkept.trim hsolid,
    ⟨init, segment.trim, rfl, hsolid.trim, trim_trim segment⟩, ?_, ?_,
    by rw [commonIndent_trim hsolid hblank]⟩
  · rcases init with _ | ⟨first, init⟩
    · rintro _ ⟨⟩
      exact (hbegins segment rfl).trim hsolid
    · exact hbegins
  · intro s hs
    rcases List.mem_append.mp hs with hs | hs
    · exact ⟨s, List.mem_append_left _ hs, Or.inl rfl⟩
    · rw [List.mem_singleton] at hs
      exact ⟨segment, by simp, Or.inr hs⟩

/-! ## Starting at a line or inside one -/

private theorem isMultiline_cons (element : PatternElement) (p : Pattern) :
    Pattern.isMultiline (Pattern.cons element p) = Pattern.isMultiline (element :: p) := by
  rcases element with value | expression
  · rcases p with _ | ⟨next | expression, p⟩
    · by_cases hempty : value.isEmpty
      · simp_all [Pattern.cons, Pattern.isMultiline]
      · simp [Pattern.cons, hempty]
    · simp [Pattern.cons, Pattern.isMultiline, Bool.or_assoc]
    · by_cases hempty : value.isEmpty
      · simp_all [Pattern.cons, Pattern.isMultiline]
      · simp [Pattern.cons, hempty]
  · rfl

/-- Joining does not change whether a pattern has several lines. -/
theorem isMultiline_join (elements : List PatternElement) :
    (Pattern.join elements).isMultiline = Pattern.isMultiline elements := by
  induction elements with
  | nil => rfl
  | cons element rest ih =>
    rw [Pattern.join_cons, isMultiline_cons]
    simp only [Pattern.isMultiline, List.any_cons] at ih ⊢
    rw [ih]

/-- A pattern whose text takes no several lines holds no line end. -/
theorem endsLine_eq_false (h : (Pattern.join (segments.map whole)).isMultiline = false) :
    ∀ s ∈ segments, s.endsLine = false := by
  rw [isMultiline_join] at h
  intro s hs
  cases s with
  | placeable atMargin expression => rfl
  | text indent content newline =>
    rw [Pattern.isMultiline, List.any_eq_false] at h
    have hline := h _ (List.mem_map_of_mem hs)
    rw [whole_text] at hline
    cases newline with
    | false => rfl
    | true => simp [line] at hline

/-- Inside a line no segment has a margin or an indentation. -/
theorem flush_of_inLine (hlined : Lined false segments) (h : ∀ s ∈ segments, s.endsLine = false) :
    ∀ s ∈ segments, s.margin? = none ∧ s.Flush := by
  induction segments with
  | nil => rintro _ ⟨⟩
  | cons first rest ih =>
    obtain ⟨hfits, -, hrest⟩ := hlined
    rw [h first List.mem_cons_self] at hrest
    intro s hs
    rcases List.mem_cons.mp hs with rfl | hs
    · cases s with
      | text indent content newline =>
        obtain rfl : indent = none := by simpa using hfits.1
        exact ⟨rfl, rfl⟩
      | placeable atMargin expression =>
        cases atMargin with
        | false => exact ⟨rfl, trivial⟩
        | true => cases hfits rfl
    · exact ih hrest (fun s hs => h s (List.mem_cons_of_mem _ hs)) s hs

/-- The first character of a pattern tells whether it would be read as something else. -/
theorem startsSpecial_cons {value : String} (hvalue : value ≠ "") (p : Pattern) :
    (Pattern.cons (.text value) p).startsSpecial =
      value.toList.head?.any fun c => c == '[' || c == '*' || c == '.' := by
  have hvalue' : value.toList ≠ [] := by simpa using hvalue
  rcases p with _ | ⟨next | expression, p⟩
  · simp [Pattern.cons, hvalue, Pattern.startsSpecial]
  · simp [Pattern.cons, Pattern.startsSpecial, List.head?_append_of_ne_nil _ hvalue']
  · simp [Pattern.cons, hvalue, Pattern.startsSpecial]

/-- The first character of a pattern is that of its first segment. -/
theorem startsSpecial_join {indent : Option Nat} {content : List Char} {newline : Bool}
    {rest : List Segment} (h : content ≠ []) :
    (Pattern.join ((text indent content newline :: rest).map whole)).startsSpecial =
      (List.replicate (indent.getD 0) ' ' ++ content).head?.any
        fun c => c == '[' || c == '*' || c == '.' := by
  have hne : List.replicate (indent.getD 0) ' ' ++ content ≠ [] :=
    List.append_ne_nil_of_right_ne_nil _ h
  rw [List.map_cons, Pattern.join_cons, whole_text, startsSpecial_cons, String.toList_ofList, line,
    List.head?_append_of_ne_nil _ hne]
  rw [Ne, String.ofList_eq_empty_iff]
  exact List.append_ne_nil_of_left_ne_nil hne _

/-- At the start of a line no text begins with a character that a pattern does not go on with. -/
theorem startsSpecial_of_lineStart {rest : List Segment} (hfits : segment.Fits true)
    (hbegins : segment.Begins) :
    (Pattern.join ((segment :: rest).map whole)).startsSpecial = false := by
  cases segment with
  | placeable atMargin expression => rfl
  | text indent content newline =>
    obtain ⟨c, hc, hspace⟩ := hbegins
    obtain ⟨-, -, hhead, -⟩ := hfits
    have hends := (hhead rfl c hc).2
    rcases content with _ | ⟨d, content⟩
    · cases hc
    obtain rfl : d = c := by simpa using hc
    rw [startsSpecial_join (List.cons_ne_nil _ _)]
    cases indent.getD 0 with
    | zero =>
      simp only [Reader.endsPattern, Bool.or_eq_false_iff, beq_eq_false_iff_ne] at hends
      simp [hends]
    | succ n => simp [List.replicate_succ]

/-- A flush segment stays so without the common indentation. -/
theorem Flush.reduce (h : segment.Flush) (common : Option Nat) : (segment.reduce common).Flush := by
  rcases segment with ⟨_ | indent, content, newline⟩ | _
  · rfl
  · obtain rfl : indent = 0 := h
    simp [Segment.reduce, Flush]
  · trivial

/-- A segment begins as before without the common indentation. -/
theorem Begins.reduce (h : segment.Begins) (common : Option Nat) :
    (segment.reduce common).Begins := by
  cases segment <;> exact h

/-- Without the common indentation, no placeable is at the margin. -/
theorem offMargin_reduce (common : Option Nat) (segment : Segment) :
    (segment.reduce common).OffMargin := by
  cases segment with
  | text indent content newline => trivial
  | placeable atMargin expression => rfl

/-- Only the indentation and the margin are changed by taking away what is common. -/
theorem OffMargin.reduce_eq (h : segment.OffMargin) {common : Option Nat}
    (hcommon : common = some 0 ∨ segment.Flush) : segment.reduce common = segment := by
  rcases segment with ⟨_ | indent, content, newline⟩ | ⟨atMargin, expression⟩
  · rfl
  · rcases hcommon with rfl | hflush
    · rfl
    · obtain rfl : indent = 0 := hflush
      simp [Segment.reduce]
  · obtain rfl : atMargin = false := h
    rfl

/-- Text from lines of its own that is written inside a line was one line, and is not indented. -/
theorem flush_of_not_ownLines {p : Pattern} (hlined : Lined true segments)
    (hbegins : ∀ s ∈ segments.head?, s.Begins)
    (hp : p = Pattern.join (segments.map (element (commonIndent segments))))
    (hown : p.ownLines = false) (htext : ∀ s ∈ segments.head?, s.isText) :
    ∀ s ∈ segments, (s.reduce (commonIndent segments)).Flush := by
  rcases segments with _ | ⟨first, rest⟩
  · rintro _ ⟨⟩
  have helements : (first :: rest).map (element (commonIndent (first :: rest))) =
      ((first :: rest).map (Segment.reduce (commonIndent (first :: rest)))).map whole := by
    rw [List.map_map]
    exact List.map_congr_left fun s _ => element_eq_whole_reduce _ s
  rw [helements] at hp
  have hspecial : p.startsSpecial = false := by
    rw [hp]
    exact startsSpecial_of_lineStart (hlined.1.reduce _) ((hbegins first rfl).reduce _)
  have hmultiline : p.isMultiline = false := by
    simpa [Pattern.ownLines, hspecial] using hown
  rw [hp] at hmultiline
  -- Nothing special comes first, so a pattern that is not on lines of its own has one line.
  have hends : ∀ s ∈ first :: rest, s.endsLine = false := by
    intro s hs
    simpa using endsLine_eq_false hmultiline _ (List.mem_map_of_mem hs)
  have hrest := hlined.2.2
  rw [hends first List.mem_cons_self] at hrest
  have hinLine := flush_of_inLine hrest fun s hs => hends s (List.mem_cons_of_mem _ hs)
  -- Behind the first segment none begins a line, so the first one has the common indentation alone.
  have hmargins : rest.filterMap margin? = [] := by
    rw [List.filterMap_eq_nil_iff]
    exact fun s hs => (hinLine s hs).1
  intro s hs
  rcases List.mem_cons.mp hs with rfl | hs
  · rcases s with ⟨_ | indent, content, newline⟩ | _
    · rfl
    · by_cases hblank : content.all (· == ' ')
      · obtain ⟨c, hc, hspace⟩ := hbegins _ rfl
        rw [List.all_eq_true] at hblank
        exact absurd (by simpa using hblank c (List.mem_of_mem_head? hc)) hspace
      · simp [Flush, Segment.reduce, commonIndent, margin?, hblank, hmargins]
    · trivial
  · exact (hinLine s hs).2.reduce _

end Segment

namespace Pattern

open Segment

variable {startsLine : Bool} {segments : List Segment} {p : Pattern}

private theorem restart_whole (h : p.ownLines = false → ∀ s ∈ segments.head?, s.Flush) :
    (restart p.ownLines segments).map whole = segments.map whole := by
  rcases segments with _ | ⟨⟨indent, content, newline⟩ | _, rest⟩
  · rfl
  · cases hown : p.ownLines with
    | true => simp [restart, whole_text, line]
    | false =>
      have hflush : indent.getD 0 = 0 := h hown _ rfl
      simp [restart, whole_text, line, hflush]
  · rfl

private theorem restart_lined (hlined : Lined startsLine segments)
    (hmargin : ∀ s ∈ segments, s.OffMargin) (hbegins : ∀ s ∈ segments.head?, s.Begins)
    (hp : join (segments.map whole) = p) : Lined p.ownLines (restart p.ownLines segments) := by
  rcases segments with _ | ⟨⟨indent, content, newline⟩ | ⟨atMargin, expression⟩, rest⟩
  · trivial
  · obtain ⟨⟨hindent, hchars, hhead, hnewline⟩, hnext, hrest⟩ := hlined
    refine ⟨⟨?_, hchars, ?_, hnewline⟩, hnext, hrest⟩
    · cases p.ownLines <;> rfl
    · intro hown c hc
      obtain ⟨d, hd, hspace⟩ := hbegins _ rfl
      obtain rfl : c = d := Option.mem_unique hc hd
      refine ⟨hspace, ?_⟩
      cases startsLine with
      | true => exact (hhead rfl c hc).2
      | false =>
        obtain rfl : indent = none := by simpa using hindent
        have hspecial : p.startsSpecial = false := by
          simp only [ownLines, Bool.and_eq_true, Bool.not_eq_true'] at hown
          exact hown.2
        have hchar := hchars c (List.mem_of_mem_head? hc)
        have hne : content ≠ [] := by
          rintro rfl
          cases hc
        rw [← hp, startsSpecial_join hne] at hspecial
        rw [Option.mem_def] at hc
        simp only [Option.getD_none, List.replicate_zero, List.nil_append, hc, Option.any_some,
          Bool.or_eq_false_iff, beq_eq_false_iff_ne] at hspecial
        simp [Reader.endsPattern, hspecial, (Reader.isTextChar_iff.mp hchar).2]
  · refine ⟨?_, hlined.2⟩
    obtain rfl : atMargin = false := hmargin _ List.mem_cons_self
    rintro ⟨⟩

private theorem offMargin_restart (h : ∀ s ∈ segments, s.OffMargin) (startsLine : Bool) :
    ∀ s ∈ restart startsLine segments, s.OffMargin := by
  rcases segments with _ | ⟨⟨indent, content, newline⟩ | _, rest⟩
  · exact h
  · intro s hs
    rcases List.mem_cons.mp hs with rfl | hs
    · trivial
    · exact h s (List.mem_cons_of_mem _ hs)
  · exact h

/-- The segments in which a pattern is written are those from which it is joined. -/
theorem writtenSegments_eq (hlined : Lined startsLine segments)
    (hmargin : ∀ s ∈ segments, s.OffMargin) (hbegins : ∀ s ∈ segments.head?, s.Begins)
    (hp : join (segments.map whole) = p)
    (hflush : p.ownLines = false → ∀ s ∈ segments.head?, s.Flush) :
    p.writtenSegments = restart p.ownLines segments ∧
      Lined p.ownLines p.writtenSegments ∧ join (p.writtenSegments.map whole) = p := by
  have hwhole : join ((restart p.ownLines segments).map whole) = p := by
    rw [restart_whole hflush, hp]
  have hrestart := restart_lined hlined hmargin hbegins hp
  have hsame : (restart p.ownLines segments).map (reduce (some 0)) =
      restart p.ownLines segments := by
    rw [List.map_congr_left, List.map_id']
    exact fun s hs => (offMargin_restart hmargin _ s hs).reduce_eq (Or.inl rfl)
  have hwritten : p.writtenSegments = restart p.ownLines segments := by
    have hjoin := segments_join hrestart
    rw [hwhole, hsame] at hjoin
    rw [writtenSegments, ← hjoin, ← hwhole, join_join]
  rw [hwritten]
  exact ⟨rfl, hrestart, hwhole⟩

private theorem closed_map_reduce (h : Closed segments) (common : Option Nat) :
    Closed (segments.map (reduce common)) := by
  obtain ⟨init, segment, rfl, hsolid, htrim⟩ := h
  refine ⟨init.map (reduce common), segment.reduce common, by simp, ?_, ?_⟩
  · cases segment <;> exact hsolid
  · cases segment with
    | placeable atMargin expression => rfl
    | text indent content newline =>
      simp only [Segment.trim, text.injEq, true_and] at htrim
      simp only [Segment.reduce, Segment.trim, htrim.1, htrim.2]

private theorem closed_restart (h : Closed segments) (startsLine : Bool) :
    Closed (restart startsLine segments) := by
  obtain ⟨init, segment, rfl, hsolid, htrim⟩ := h
  rcases init with _ | ⟨⟨indent, content, newline⟩ | _, init⟩
  · cases segment with
    | placeable atMargin expression => exact ⟨[], _, rfl, trivial, rfl⟩
    | text indent content newline =>
      refine ⟨[], _, rfl, hsolid, ?_⟩
      simp only [Segment.trim, text.injEq, true_and] at htrim
      simp only [Segment.trim, htrim.1, htrim.2]
  · exact ⟨_ :: init, segment, rfl, hsolid, htrim⟩
  · exact ⟨_ :: init, segment, rfl, hsolid, htrim⟩

private theorem begins_restart (h : ∀ s ∈ segments.head?, s.Begins) (startsLine : Bool) :
    ∀ s ∈ (restart startsLine segments).head?, s.Begins := by
  rcases segments with _ | ⟨⟨indent, content, newline⟩ | _, rest⟩
  · exact h
  · rintro _ ⟨⟩
    exact h (.text indent content newline) rfl
  · exact h

private theorem flush_restart (h : ∀ s ∈ segments, s.Flush) (startsLine : Bool) :
    ∀ s ∈ restart startsLine segments, s.Flush := by
  rcases segments with _ | ⟨⟨indent, content, newline⟩ | _, rest⟩
  · exact h
  · intro s hs
    rcases List.mem_cons.mp hs with rfl | hs
    · have hflush : indent.getD 0 = 0 := h _ List.mem_cons_self
      cases startsLine <;> simp [Flush, hflush]
    · exact h s (List.mem_cons_of_mem _ hs)
  · exact h

private theorem holds_restart {P : Expression → Prop} (h : ∀ s ∈ segments, s.Holds P)
    (startsLine : Bool) : ∀ s ∈ restart startsLine segments, s.Holds P := by
  rcases segments with _ | ⟨⟨indent, content, newline⟩ | _, rest⟩
  · exact h
  · intro s hs
    rcases List.mem_cons.mp hs with rfl | hs
    · trivial
    · exact h s (List.mem_cons_of_mem _ hs)
  · exact h

/-- A pattern that is joined from segments is sound, seen as it is written. -/
theorem sound_join (hlined : Lined startsLine segments) (hclosed : Closed segments)
    (hmargin : ∀ s ∈ segments, s.OffMargin) (hbegins : ∀ s ∈ segments.head?, s.Begins)
    (hp : join (segments.map whole) = p)
    (hflush : p.ownLines = false → ∀ s ∈ segments.head?, s.Flush) : p.Sound := by
  obtain ⟨hwritten, hlined, hjoined⟩ := writtenSegments_eq hlined hmargin hbegins hp hflush
  refine ⟨hlined, hjoined, ?_, ?_⟩
  · rw [hwritten]
    exact begins_restart hbegins _
  · rw [hwritten]
    exact closed_restart hclosed _

private theorem restart_eq_self (h : Lined startsLine segments) :
    restart startsLine segments = segments := by
  rcases segments with _ | ⟨⟨indent, content, newline⟩ | _, rest⟩
  · rfl
  · have hindent : indent.isSome = startsLine := h.1.1
    cases indent <;> subst hindent <;> rfl
  · rfl

/-- A margin of nothing is the least there is. -/
theorem commonIndent_eq_zero {segment : Segment} (h : segment ∈ segments)
    (hmargin : segment.margin? = some 0) : commonIndent segments = some 0 := by
  rw [commonIndent, List.min?_eq_some_iff]
  exact ⟨List.mem_filterMap.mpr ⟨segment, h, hmargin⟩, fun _ _ => Nat.zero_le _⟩

/-- The segments without what their lines have in common. -/
private def reduced (segments : List Segment) : List Segment :=
  segments.map (reduce (commonIndent segments))

private theorem offMargin_reduced : ∀ s ∈ reduced segments, s.OffMargin := by
  intro s hs
  obtain ⟨t, -, rfl⟩ := List.mem_map.mp hs
  exact offMargin_reduce _ t

private theorem holds_reduced {P : Expression → Prop} (h : ∀ s ∈ segments, s.Holds P) :
    ∀ s ∈ reduced segments, s.Holds P := by
  intro s hs
  obtain ⟨t, ht, rfl⟩ := List.mem_map.mp hs
  have hholds := h t ht
  cases t <;> exact hholds

/-- Once what they have in common is taken away, segments have no more in common. -/
private theorem commonIndent_reduced (hmargin : ∀ s ∈ segments, s.OffMargin) :
    commonIndent (reduced segments) = some 0 ∨ ∀ s ∈ reduced segments, s.Flush := by
  rw [reduced]
  cases hcommon : commonIndent segments with
  | none =>
    right
    intro s hs
    obtain ⟨t, -, rfl⟩ := List.mem_map.mp hs
    rcases t with ⟨_ | indent, content, newline⟩ | _ <;> simp [Segment.reduce, Flush]
  | some common =>
    left
    obtain ⟨hmem, -⟩ := List.min?_eq_some_iff.mp hcommon
    obtain ⟨t, ht, htm⟩ := List.mem_filterMap.mp hmem
    refine commonIndent_eq_zero (List.mem_map_of_mem ht) ?_
    rcases t with ⟨_ | indent, content, newline⟩ | ⟨atMargin, expression⟩
    · cases htm
    · by_cases hblank : content.all (· == ' ')
      · simp [margin?, hblank] at htm
      · obtain rfl : indent = common := by simpa [margin?, hblank] using htm
        simp [Segment.reduce, margin?, hblank]
    · obtain rfl : atMargin = false := hmargin _ ht
      cases htm

/-- A pattern is joined from segments that lie on lines, without what the lines have in common. -/
private structure JoinedFrom (startsLine : Bool) (segments : List Segment) (p : Pattern) :
    Prop where
  lined : Lined startsLine segments
  begins : ∀ s ∈ segments.head?, s.Begins
  eq_join : p = join (segments.map (element (commonIndent segments)))

private theorem JoinedFrom.begins_reduced (h : JoinedFrom startsLine segments p) :
    ∀ s ∈ (reduced segments).head?, s.Begins := by
  intro s hs
  rw [reduced, List.head?_map] at hs
  obtain ⟨t, ht, rfl⟩ := Option.map_eq_some_iff.mp hs
  exact (h.begins t ht).reduce _

private theorem JoinedFrom.join_reduced (h : JoinedFrom startsLine segments p) :
    join ((reduced segments).map whole) = p := by
  rw [h.eq_join, reduced, List.map_map]
  exact congrArg join (List.map_congr_left fun s _ => (element_eq_whole_reduce _ s).symm)

/-- Text that came from lines of its own but is written inside a line has lost its indentation. -/
private theorem JoinedFrom.flush_reduced (h : JoinedFrom true segments p)
    (hown : p.ownLines = false) (htext : ∀ s ∈ segments.head?, s.isText) :
    ∀ s ∈ reduced segments, s.Flush := by
  intro s hs
  obtain ⟨t, ht, rfl⟩ := List.mem_map.mp hs
  exact flush_of_not_ownLines h.lined h.begins h.eq_join hown htext t ht

private theorem JoinedFrom.flush_head? (h : JoinedFrom startsLine segments p)
    (hown : p.ownLines = false) : ∀ s ∈ (reduced segments).head?, s.Flush := by
  rcases segments with _ | ⟨⟨indent, content, newline⟩ | _, rest⟩
  · rintro _ ⟨⟩
  · cases startsLine with
    | true =>
      intro s hs
      exact h.flush_reduced hown (by rintro _ ⟨⟩; rfl) s (List.mem_of_mem_head? hs)
    | false =>
      obtain rfl : indent = none := by simpa using h.lined.1.1
      rintro _ ⟨⟩
      rfl
  · rintro _ ⟨⟩
    trivial

private theorem JoinedFrom.writtenSegments_eq_restart (h : JoinedFrom startsLine segments p) :
    p.writtenSegments = restart p.ownLines (reduced segments) :=
  (writtenSegments_eq (h.lined.reduce _) offMargin_reduced h.begins_reduced h.join_reduced
    h.flush_head?).1

/-- A pattern that begins where its segments did is written in them. -/
private theorem JoinedFrom.writtenSegments_eq_reduced (h : JoinedFrom startsLine segments p)
    (hstarts : startsLine = p.ownLines) : p.writtenSegments = reduced segments := by
  rw [h.writtenSegments_eq_restart, ← hstarts]
  exact restart_eq_self (h.lined.reduce _)

/-- The lines of a pattern have no indentation in common if they had one to be taken away. -/
private theorem JoinedFrom.margin_eq_zero_or_flush (h : JoinedFrom startsLine segments p)
    (hmargin : ∀ s ∈ segments, s.OffMargin) :
    p.margin = some 0 ∨ ∀ s ∈ p.writtenSegments, s.Flush := by
  have hwritten := h.writtenSegments_eq_restart
  have hsame (heq : p.writtenSegments = reduced segments) :
      p.margin = some 0 ∨ ∀ s ∈ p.writtenSegments, s.Flush := by
    rw [margin, heq]
    exact commonIndent_reduced hmargin
  by_cases hstarts : startsLine = p.ownLines
  · exact hsame (h.writtenSegments_eq_reduced hstarts)
  rcases segments with _ | ⟨⟨indent, content, newline⟩ | _, rest⟩
  · exact hsame hwritten
  · cases startsLine with
    | true =>
      have hown : p.ownLines = false := by simpa using Ne.symm hstarts
      right
      rw [hwritten]
      exact flush_restart (h.flush_reduced hown (by rintro _ ⟨⟩; rfl)) _
    | false =>
      -- The first line has no margin inside a line, and one of nothing on lines of its own.
      have hown : p.ownLines = true := by simpa using Ne.symm hstarts
      obtain ⟨c, hc, hspace⟩ := h.begins _ rfl
      have hblank : ¬content.all (· == ' ') := by
        rw [List.all_eq_true]
        intro hall
        exact hspace (by simpa using hall c (List.mem_of_mem_head? hc))
      obtain rfl : indent = none := by simpa using h.lined.1.1
      left
      rw [margin, hwritten, hown]
      refine commonIndent_eq_zero List.mem_cons_self ?_
      simp [margin?, hblank]
  · exact hsame hwritten

private theorem JoinedFrom.aligned (h : JoinedFrom startsLine segments p)
    (hmargin : ∀ s ∈ segments, s.OffMargin) : p.Aligned := by
  have hwritten := h.writtenSegments_eq_restart
  rw [Aligned, List.map_congr_left, List.map_id']
  intro s hs
  have hoff : s.OffMargin := offMargin_restart offMargin_reduced _ s (hwritten ▸ hs)
  exact hoff.reduce_eq ((h.margin_eq_zero_or_flush hmargin).imp_right fun hflush => hflush s hs)

/-- Reading makes sound patterns, out of the placeables that it read. A pattern of which no line
begins with a placeable has no indentation in common. -/
theorem sound_ofSegments? (hlined : Lined startsLine segments)
    (hbegins : ∀ s ∈ segments.head?, s.Begins) (h : ofSegments? segments = some p) :
    p.Sound ∧
      (∀ P, (∀ s ∈ segments, s.Holds P) → ∀ s ∈ p.writtenSegments, s.Holds P) ∧
      ((∀ s ∈ segments, s.OffMargin) → p.Aligned) := by
  obtain ⟨trimmed, hlined, hclosed, hbegins, hmem, hp⟩ := exists_trimmed hlined hbegins h
  have hfrom : JoinedFrom startsLine trimmed p := ⟨hlined, hbegins, hp⟩
  refine ⟨sound_join (hlined.reduce _) (closed_map_reduce hclosed _) offMargin_reduced
    hfrom.begins_reduced hfrom.join_reduced hfrom.flush_head?, fun P hP => ?_, fun hoff => ?_⟩
  · rw [hfrom.writtenSegments_eq_restart]
    refine holds_restart (holds_reduced fun t ht => ?_) _
    obtain ⟨u, hu, rfl | rfl⟩ := hmem t ht
    · exact hP _ hu
    · have hholds := hP _ hu
      cases u <;> exact hholds
  · refine hfrom.aligned fun t ht => ?_
    obtain ⟨u, hu, rfl | rfl⟩ := hmem t ht
    · exact hoff _ hu
    · have hmargin := hoff _ hu
      cases u <;> exact hmargin

end Pattern

end Phrasebook
