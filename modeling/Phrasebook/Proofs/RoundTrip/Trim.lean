import Mathlib.Data.List.DropRight
import Phrasebook.Proofs.RoundTrip.Lines
import Phrasebook.Proofs.Text

/-!
# The end of a pattern

From the segments of a pattern the blank ones at the end are dropped, and from the last one left the
blanks at its end. This is done to the segments themselves, before they are joined. A line end that
is written behind a pattern, and blank lines below it, leave no trace.
-/

namespace Phrasebook

namespace Text

variable {α : Type} {p : α → Bool} {s t : List α}

/-- Nothing is left exactly if every character is dropped. -/
theorem dropEndWhile_eq_nil_iff : dropEndWhile p s = [] ↔ ∀ c ∈ s, p c := by
  simp [dropEndWhile]

/-- What is left stands at the beginning. -/
theorem dropEndWhile_prefix : dropEndWhile p s <+: s :=
  List.rdropWhile_prefix p s

/-- What was dropped from the end is not there to be dropped again. -/
theorem dropEndWhile_idem : dropEndWhile p (dropEndWhile p s) = dropEndWhile p s :=
  List.rdropWhile_idempotent p s

/-- What is dropped as a whole leaves what stands before it as it would be alone. -/
theorem dropEndWhile_append_all (h : ∀ c ∈ t, p c) :
    dropEndWhile p (s ++ t) = dropEndWhile p s := by
  rw [dropEndWhile, List.reverse_append, List.dropWhile_append_of_pos (by simpa using h)]
  rfl

/-- Where something is left of the second part, the first is left as a whole. -/
theorem dropEndWhile_append_of_ne_nil (h : dropEndWhile p t ≠ []) :
    dropEndWhile p (s ++ t) = s ++ dropEndWhile p t := by
  have hne : ¬(t.reverse.dropWhile p).isEmpty := by simpa [dropEndWhile] using h
  rw [dropEndWhile, List.reverse_append, List.dropWhile_append, if_neg hne]
  simp [dropEndWhile]

/-- Dropping from the end may be done before or after a map. -/
theorem dropEndWhile_map {β : Type} (f : β → α) (s : List β) :
    dropEndWhile p (s.map f) = (dropEndWhile (p ∘ f) s).map f := by
  rw [dropEndWhile, ← List.map_reverse, List.dropWhile_map, ← List.map_reverse]
  rfl

/-- Only the members tell what is dropped. -/
theorem dropEndWhile_congr {q : α → Bool} (h : ∀ c ∈ s, p c = q c) :
    dropEndWhile p s = dropEndWhile q s := by
  change s.rdropWhile p = s.rdropWhile q
  induction s using List.reverseRecOn with
  | nil => rfl
  | append_singleton s c ih =>
    obtain ⟨hs, hc⟩ := List.forall_mem_append.mp h
    rw [List.rdropWhile_concat, List.rdropWhile_concat, ih hs, hc c List.mem_cons_self]

end Text

namespace Segment

open Text (dropEndWhile)

/-- The segment without blanks at its end. -/
def trim : Segment → Segment
  | text indent content _ => text indent (dropEndWhile Text.isBlank content) false
  | placeable atMargin expression => placeable atMargin expression

/-- The segment holds more than blanks. -/
def Solid : Segment → Prop
  | text _ content _ => dropEndWhile Text.isBlank content ≠ []
  | placeable .. => True

variable {startsLine : Bool} {segment : Segment} {init rest segments : List Segment}

/-- A segment is trimmed once. -/
theorem trim_trim (segment : Segment) : segment.trim.trim = segment.trim := by
  cases segment with
  | text indent content newline => simp only [trim, Text.dropEndWhile_idem]
  | placeable atMargin expression => rfl

/-- Text that holds more than spaces holds more than blanks, since no line breaks are in it. -/
theorem solid_text {indent : Option Nat} {content : List Char} {newline : Bool}
    (hchars : ∀ c ∈ content, Reader.isTextChar c) (hblank : content.all (· == ' ') = false) :
    (text indent content newline).Solid := by
  rw [Solid, Ne, Text.dropEndWhile_eq_nil_iff]
  intro hall
  refine absurd hblank (Bool.not_eq_false _ |>.mpr (List.all_eq_true.mpr fun c hc => ?_))
  rcases Text.isBlank_iff.mp (hall c hc) with rfl | hbreak
  · rfl
  · have hnot := (Reader.isTextChar_iff.mp (hchars c hc)).1
    rw [hbreak] at hnot
    cases hnot

/-- A segment that fits is solid unless it is blank. -/
theorem Fits.solid (h : segment.Fits startsLine) (hblank : segment.isBlank = false) :
    segment.Solid := by
  cases segment with
  | placeable atMargin expression => trivial
  | text indent content newline => exact solid_text h.2.1 hblank

/-- The segments of lines can be split anywhere. -/
theorem lined_append : Lined startsLine (init ++ rest) →
    Lined startsLine init ∧ Lined (lineStart startsLine init) rest := by
  induction init generalizing startsLine with
  | nil => exact fun h => ⟨trivial, h⟩
  | cons first init ih =>
    rintro ⟨hfits, hnext, hrest⟩
    obtain ⟨hinit, hrest⟩ := ih hrest
    refine ⟨⟨hfits, ?_, hinit⟩, hrest⟩
    intro next hmem
    apply hnext next
    rcases init with _ | ⟨second, init⟩
    · cases hmem
    · exact hmem

/-- A solid segment stays so when it is trimmed. -/
theorem Solid.trim (h : segment.Solid) : segment.trim.Solid := by
  cases segment with
  | text indent content newline => rwa [Segment.trim, Solid, Text.dropEndWhile_idem]
  | placeable atMargin expression => trivial

/-- A solid segment is not blank. -/
theorem Solid.isBlank_eq_false (h : segment.Solid) : segment.isBlank = false := by
  cases segment with
  | placeable atMargin expression => rfl
  | text indent content newline =>
    rw [Solid, Ne, Text.dropEndWhile_eq_nil_iff] at h
    rw [← Bool.not_eq_true]
    intro hall
    refine h fun c hc => ?_
    have hspace := List.all_eq_true.mp hall c hc
    rw [beq_iff_eq] at hspace
    simp [hspace]

/-- A blank segment has no margin. -/
theorem margin?_of_isBlank (h : segment.isBlank) : segment.margin? = none := by
  rcases segment with ⟨_ | indent, content, newline⟩ | _
  · rfl
  · exact if_pos h
  · cases h

/-- Blank segments have no part in the common indentation. -/
theorem commonIndent_append_blank {blank : List Segment} (h : ∀ s ∈ blank, s.isBlank) :
    commonIndent (segments ++ blank) = commonIndent segments := by
  have hnone : blank.filterMap margin? = [] := by
    rw [List.filterMap_eq_nil_iff]
    exact fun s hs => margin?_of_isBlank (h s hs)
  rw [commonIndent, commonIndent, List.filterMap_append, hnone, List.append_nil]

end Segment

namespace Pattern

open Segment

open Text (dropEndWhile dropEndWhile_append_of_ne_nil dropEndWhile_append_all)

/-- A pattern ends in a placeable, or in text that holds more than blanks. -/
private def EndsSolid (p : Pattern) : Prop :=
  ∃ element, p.getLast? = some element ∧
    ∀ value, element = .text value → dropEndWhile Text.isBlank value.toList ≠ []

private theorem EndsSolid.ne_nil {p : Pattern} (h : EndsSolid p) : p ≠ [] := by
  rintro rfl
  obtain ⟨element, hlast, -⟩ := h
  cases hlast

private theorem EndsSolid.cons {p : Pattern} (h : EndsSolid p) (element : PatternElement) :
    EndsSolid (cons element p) := by
  obtain ⟨last, hlast, hsolid⟩ := h
  rcases p with _ | ⟨next, rest⟩
  · cases hlast
  have hplain : EndsSolid (element :: next :: rest) := ⟨last, hlast, hsolid⟩
  rcases element with value | expression
  · rcases next with next | expression
    · refine ⟨if rest = [] then .text (value ++ next) else last, ?_, ?_⟩
      · rcases rest with _ | ⟨third, rest⟩
        · rfl
        · simpa [Pattern.cons] using hlast
      · rcases rest with _ | ⟨third, rest⟩
        · obtain rfl : PatternElement.text next = last := by simpa using hlast
          rintro _ ⟨⟩
          rw [String.toList_append, dropEndWhile_append_of_ne_nil (hsolid _ rfl)]
          exact List.append_ne_nil_of_right_ne_nil _ (hsolid _ rfl)
        · simpa using hsolid
    · by_cases hempty : value.isEmpty
      · simp only [Pattern.cons, if_pos hempty]
        exact ⟨last, hlast, hsolid⟩
      · simp only [Pattern.cons, if_neg hempty]
        exact hplain
  · exact hplain

/-- Blanks at the end of a pattern that ends in more than blanks are not at its front. -/
private theorem trimEnd_cons {p : Pattern} (h : EndsSolid p) (element : PatternElement) :
    trimEnd (cons element p) = cons element (trimEnd p) := by
  obtain ⟨last, hlast, hsolid⟩ := h
  rcases element with value | expression
  · rcases p with _ | ⟨next | expression, rest⟩
    · cases hlast
    · rcases rest with _ | ⟨third, rest⟩
      · obtain rfl : PatternElement.text next = last := by simpa using hlast
        have happend : dropEndWhile Text.isBlank (value ++ next).toList =
            value.toList ++ dropEndWhile Text.isBlank next.toList := by
          rw [String.toList_append, dropEndWhile_append_of_ne_nil (hsolid _ rfl)]
        simp only [cons, trimEnd, happend, String.ofList_append, String.ofList_toList]
      · simp [cons, trimEnd]
    · by_cases hempty : value.isEmpty
      · simp [cons, trimEnd, hempty]
      · simp [cons, trimEnd, hempty]
  · rcases p with _ | ⟨next, rest⟩
    · cases hlast
    · simp [cons, trimEnd]

/-- Blanks at the end of the text of a segment are those at the end of its content. -/
theorem dropEndWhile_element (common indent : Option Nat) {content : List Char}
    (newline : Bool) (h : dropEndWhile Text.isBlank content ≠ []) :
    dropEndWhile Text.isBlank
        (remainingIndent common indent ++ content ++ if newline then ['\n'] else []) =
      remainingIndent common indent ++ dropEndWhile Text.isBlank content := by
  rw [dropEndWhile_append_all, dropEndWhile_append_of_ne_nil h]
  cases newline <;> simp [Text.isBlank]

private theorem join_text (common indent : Option Nat) {content : List Char} (newline : Bool)
    (h : content ≠ []) :
    join [element common (.text indent content newline)] =
      [element common (.text indent content newline)] := by
  refine cons_text (p := []) ?_ (by rintro _ ⟨⟩)
  rw [Ne, String.ofList_eq_empty_iff]
  simp [h]

private theorem ne_nil_of_dropEndWhile {content : List Char}
    (h : dropEndWhile Text.isBlank content ≠ []) : content ≠ [] := by
  rintro rfl
  exact h rfl

private theorem endsSolid_join (common : Option Nat) {segment : Segment} (h : segment.Solid)
    (init : List Segment) : EndsSolid (join ((init ++ [segment]).map (element common))) := by
  induction init with
  | nil =>
    cases segment with
    | placeable atMargin expression => exact ⟨_, rfl, by rintro _ ⟨⟩⟩
    | text indent content newline =>
      refine ⟨_, congrArg List.getLast? (join_text common indent newline
        (ne_nil_of_dropEndWhile h)), ?_⟩
      rintro _ ⟨⟩
      rw [String.toList_ofList, dropEndWhile_element common indent newline h]
      exact List.append_ne_nil_of_right_ne_nil _ h
  | cons first init ih => exact ih.cons _

/-- Blanks at the end of a pattern are those at the end of its last segment. -/
theorem trimEnd_join (common : Option Nat) {segment : Segment} (h : segment.Solid)
    (init : List Segment) :
    trimEnd (join ((init ++ [segment]).map (element common))) =
      join ((init ++ [segment.trim]).map (element common)) := by
  induction init with
  | nil =>
    cases segment with
    | placeable atMargin expression => rfl
    | text indent content newline =>
      simp only [List.nil_append, List.map_cons, List.map_nil, Segment.trim]
      rw [join_text common indent newline (ne_nil_of_dropEndWhile h),
        join_text common indent false h]
      simp only [element, trimEnd, String.toList_ofList,
        dropEndWhile_element common indent newline h,
        Bool.false_eq_true, if_false, List.append_nil]
  | cons first init ih =>
    have hsolid := endsSolid_join common h init
    simp only [List.cons_append, List.map_cons, join_cons]
    rw [trimEnd_cons hsolid, ih]

/-- The pattern of segments is joined from those before the blank ones at the end, of which the last
is trimmed. -/
theorem ofSegments?_eq {segments init : List Segment} {segment : Segment}
    (hkept : dropEndWhile Segment.isBlank segments = init ++ [segment]) (h : segment.Solid) :
    ofSegments? segments =
      some (join ((init ++ [segment.trim]).map (element (commonIndent segments)))) := by
  rw [ofSegments?, hkept, trimEnd_join _ h]
  simp

/-- Blank segments are no pattern. -/
theorem ofSegments?_eq_none {segments : List Segment} (h : ∀ s ∈ segments, s.isBlank) :
    ofSegments? segments = none := by
  have hkept : dropEndWhile Segment.isBlank segments = [] := Text.dropEndWhile_eq_nil_iff.mpr h
  rw [ofSegments?, hkept]
  rfl

/-- Blank segments at the end leave no trace. -/
theorem ofSegments?_append_blank {segments blank : List Segment} (h : ∀ s ∈ blank, s.isBlank) :
    ofSegments? (segments ++ blank) = ofSegments? segments := by
  rw [ofSegments?, ofSegments?, dropEndWhile_append_all h, commonIndent_append_blank h]

/-- A line end behind the last text leaves no trace. -/
theorem ofSegments?_concat_newline (init : List Segment) {indent : Option Nat} {content : List Char}
    (hchars : ∀ c ∈ content, Reader.isTextChar c) :
    ofSegments? (init ++ [.text indent content true]) =
      ofSegments? (init ++ [.text indent content false]) := by
  cases hblank : content.all (· == ' ') with
  | true =>
    have hline (newline : Bool) : ∀ s ∈ [Segment.text indent content newline], s.isBlank :=
      List.forall_mem_singleton.mpr hblank
    rw [ofSegments?_append_blank (hline true), ofSegments?_append_blank (hline false)]
  | false =>
    have hsolid (newline : Bool) : (Segment.text indent content newline).Solid :=
      solid_text hchars hblank
    have hkept (newline : Bool) :
        dropEndWhile Segment.isBlank (init ++ [.text indent content newline]) =
          init ++ [.text indent content newline] :=
      List.rdropWhile_concat_neg _ _ _ (by rw [isBlank, hblank]; decide)
    have hcommon : commonIndent (init ++ [.text indent content true]) =
        commonIndent (init ++ [.text indent content false]) := by
      rw [commonIndent, commonIndent, List.filterMap_append, List.filterMap_append]
      cases indent <;> rfl
    rw [ofSegments?_eq (hkept true) (hsolid true), ofSegments?_eq (hkept false) (hsolid false),
      hcommon]
    rfl

/-- Segments that make up a pattern end in a solid one, and blank ones behind it. -/
theorem ofSegments?_eq_some {startsLine : Bool} {segments : List Segment} {p : Pattern}
    (hlined : Lined startsLine segments) (h : ofSegments? segments = some p) :
    ∃ init segment blank, segments = init ++ segment :: blank ∧ segment.Solid ∧
      (∀ s ∈ blank, s.isBlank) ∧
      p = join ((init ++ [segment.trim]).map (element (commonIndent segments))) := by
  obtain ⟨blank, hsplit, hblank, hlast⟩ := Text.dropEndWhile_spec Segment.isBlank segments
  rcases List.eq_nil_or_concat (dropEndWhile Segment.isBlank segments) with hnil | ⟨init, s, hkept⟩
  · rw [ofSegments?, hnil] at h
    cases h
  rw [List.concat_eq_append] at hkept
  have hsolid : s.Solid := by
    rw [hsplit, hkept, List.append_assoc] at hlined
    have hfits : s.Fits (lineStart startsLine init) := (lined_append hlined).2.1
    refine hfits.solid (hlast s ?_)
    rw [hkept, List.getLast?_concat]
    rfl
  rw [ofSegments?_eq hkept hsolid] at h
  cases h
  refine ⟨init, s, blank, ?_, hsolid, hblank, rfl⟩
  rw [hkept, List.append_assoc] at hsplit
  exact hsplit

end Pattern

end Phrasebook
