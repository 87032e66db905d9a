import Phrasebook.Proofs.RoundTrip.Sound

/-!
# The text of a pattern

What reading ensures of the text in a pattern. That no text is empty and none meets another is due
to joining alone; the characters of the text, and those at both ends of a pattern, are due to the
segments that are joined.
-/

namespace Phrasebook

namespace Pattern

open Segment

/-- A pattern is not empty, its text is neither empty nor cut in two, holds no braces and no
carriage returns, does not begin the pattern with a line feed, and does not end it with a space or
line feed. -/
structure Regular (p : Pattern) : Prop where
  ne_nil : p ≠ []
  text_ne : ∀ s, .text s ∈ p → s ≠ ""
  apart : ∀ front s t rest, p ≠ front ++ .text s :: .text t :: rest
  chars : ∀ s, .text s ∈ p → ∀ c ∈ s.toList, c ≠ '{' ∧ c ≠ '}' ∧ c ≠ '\r'
  first : ∀ s, p.head? = some (.text s) → s.toList.head? ≠ some '\n'
  last : ∀ s, p.getLast? = some (.text s) → ∀ c ∈ s.toList.getLast?, c ≠ ' ' ∧ c ≠ '\n'

variable {p : Pattern} {elements : List PatternElement}

/-! ## Joining -/

private theorem Joined.text_ne (h : Joined p) {s : String} (hs : .text s ∈ p) : s ≠ "" := by
  induction p with
  | nil => cases hs
  | cons element rest ih =>
    cases element with
    | text t =>
      rcases List.mem_cons.mp hs with heq | hs
      · cases heq
        exact h.1
      · exact ih h.2.2 hs
    | placeable e =>
      rcases List.mem_cons.mp hs with heq | hs
      · cases heq
      · exact ih h hs

private theorem Joined.apart (h : Joined p) (front : Pattern) (s t : String) (rest : Pattern) :
    p ≠ front ++ .text s :: .text t :: rest := by
  rintro rfl
  induction front with
  | nil => exact h.2.1 t rfl
  | cons element front ih =>
    cases element with
    | text _ => exact ih h.2.2
    | placeable _ => exact ih h

/-- A text that is not empty begins the pattern that it is put before. -/
private theorem head?_cons_text {value s : String} (hvalue : value ≠ "")
    (h : (Pattern.cons (.text value) p).head? = some (.text s)) :
    s.toList.head? = value.toList.head? := by
  have hne : value.toList ≠ [] := by simpa using hvalue
  rcases p with _ | ⟨next | e, rest⟩
  · obtain rfl : value = s := by simpa [Pattern.cons, hvalue] using h
    rfl
  · obtain rfl : value ++ next = s := by simpa [Pattern.cons] using h
    rw [String.toList_append, List.head?_append_of_ne_nil _ hne]
  · obtain rfl : value = s := by simpa [Pattern.cons, hvalue] using h
    rfl

/-! ## Sound patterns -/

private theorem fits_of_mem {startsLine : Bool} {segments : List Segment} {segment : Segment}
    (h : Lined startsLine segments) (hmem : segment ∈ segments) :
    ∃ startsLine, segment.Fits startsLine := by
  induction segments generalizing startsLine with
  | nil => cases hmem
  | cons first rest ih =>
    obtain ⟨hfits, -, hrest⟩ := h
    rcases List.mem_cons.mp hmem with rfl | hmem
    · exact ⟨startsLine, hfits⟩
    · exact ih hrest hmem

/-- The characters of a line are spaces, those of its content, and its line feed. -/
private theorem line_chars {startsLine newline : Bool} {indent : Option Nat} {content : List Char}
    (h : (Segment.text indent content newline).Fits startsLine) {c : Char}
    (hc : c ∈ line (.text indent content newline)) : c ≠ '{' ∧ c ≠ '}' ∧ c ≠ '\r' := by
  obtain ⟨-, hchars, -⟩ := h
  rw [line, List.mem_append, List.mem_append] at hc
  rcases hc with (hspace | hcontent) | hend
  · obtain rfl := List.eq_of_mem_replicate hspace
    decide
  · obtain ⟨hbreak, hopen, hclose⟩ := Reader.isTextChar_iff.mp (hchars c hcontent)
    refine ⟨hopen, hclose, ?_⟩
    rintro rfl
    cases hbreak
  · cases newline with
    | false => cases hend
    | true =>
      obtain rfl := List.mem_singleton.mp hend
      decide

/-- Nothing is left to trim at the end of a sound pattern. -/
theorem Sound.trimEnd_eq (h : p.Sound) : trimEnd p = p := by
  obtain ⟨init, segment, hsegments, hsolid, htrim⟩ := h.closed
  have hjoin := trimEnd_join (some 0) hsolid init
  rwa [htrim, ← hsegments, h.joined] at hjoin

private theorem last_of_trimEnd (h : trimEnd p = p) {s : String}
    (hs : p.getLast? = some (.text s)) {c : Char} (hc : c ∈ s.toList.getLast?) :
    Text.isBlank c = false := by
  induction p with
  | nil => cases hs
  | cons element rest ih =>
    rcases rest with _ | ⟨next, rest⟩
    · obtain rfl : element = .text s := by simpa using hs
      have htrimmed : Text.dropEndWhile Text.isBlank s.toList = s.toList := by
        simpa [trimEnd, String.ext_iff] using h
      obtain ⟨init, hinit⟩ := List.getLast?_eq_some_iff.mp hc
      rw [hinit] at htrimmed
      by_contra hblank
      have hprefix := Text.dropEndWhile_prefix (p := Text.isBlank) (s := init)
      rw [Text.dropEndWhile_append_all (by simpa using hblank)] at htrimmed
      have hlength := hprefix.length_le
      rw [htrimmed, List.length_append, List.length_singleton] at hlength
      omega
    · refine ih ?_ (by simpa using hs)
      rw [trimEnd] at h
      · exact (List.cons.inj h).2
      · rintro _ _ ⟨⟩

private theorem Sound.ne_nil (h : p.Sound) : p ≠ [] := by
  rintro rfl
  obtain ⟨init, segment, hsegments, -⟩ := h.closed
  simp [writtenSegments, segments] at hsegments

/-- The characters of a text are those of the lines that it is joined from. -/
private theorem Sound.chars (h : p.Sound) {s : String} (hs : .text s ∈ p) {c : Char}
    (hc : c ∈ s.toList) : c ≠ '{' ∧ c ≠ '}' ∧ c ≠ '\r' := by
  rw [← h.joined] at hs
  obtain ⟨t, ht, hct⟩ := mem_join_text hs hc
  obtain ⟨segment, hsegment, hwhole⟩ := List.mem_map.mp ht
  obtain ⟨startsLine, hfits⟩ := fits_of_mem h.lined hsegment
  cases segment with
  | placeable atMargin e => cases hwhole
  | text indent content newline =>
    rw [whole_text] at hwhole
    cases hwhole
    exact line_chars hfits (by simpa using hct)

/-- The first line of a pattern is not empty, and its text begins with a space or with its
content. -/
private theorem Sound.first (h : p.Sound) {s : String} (hs : p.head? = some (.text s)) :
    s.toList.head? ≠ some '\n' := by
  have hbegins := h.begins
  have hlined := h.lined
  rw [← h.joined] at hs
  generalize p.writtenSegments = segments at hs hbegins hlined
  rcases segments with _ | ⟨⟨indent, content, newline⟩ | ⟨atMargin, e⟩, rest⟩
  · cases hs
  · obtain ⟨c, hc, -⟩ := hbegins _ rfl
    obtain ⟨-, hchars, -⟩ := hlined.1
    have hcontent : content ≠ [] := by
      rintro rfl
      cases hc
    have hne : List.replicate (indent.getD 0) ' ' ++ content ≠ [] :=
      List.append_ne_nil_of_right_ne_nil _ hcontent
    have hline : line (.text indent content newline) ≠ [] :=
      List.append_ne_nil_of_left_ne_nil hne _
    rw [List.map_cons, join_cons, whole_text] at hs
    rw [head?_cons_text (by simpa using hline) hs, String.toList_ofList, line,
      List.head?_append_of_ne_nil _ hne]
    intro hhead
    have hmem := List.mem_of_head? hhead
    rw [List.mem_append, List.mem_replicate] at hmem
    rcases hmem with ⟨-, hspace⟩ | hmem
    · cases hspace
    · exact newline_not_mem_of_isTextChar hchars hmem
  · cases hs

/-- The text of a sound pattern is regular. -/
theorem Sound.regular (h : p.Sound) : p.Regular :=
  have hjoined : Joined p := h.joined ▸ joined_join _
  { ne_nil := h.ne_nil
    text_ne := fun _ hs => hjoined.text_ne hs
    apart := hjoined.apart
    chars := fun _ hs _ hc => h.chars hs hc
    first := fun _ hs => h.first hs
    last := fun s hs c hc => by
      have hblank := last_of_trimEnd h.trimEnd_eq hs hc
      constructor <;> rintro rfl <;> cases hblank }

end Pattern

end Phrasebook
