import Mathlib.Data.List.Basic
import Phrasebook.Proofs.Reader.Steps

/-!
# The lines of a pattern

A pattern is cut back into segments: its text is cut into lines, and from each line that starts one
the spaces at its front are taken as an indentation. Segments that fit together as reading leaves
them are recovered from the pattern that they are joined to.
-/

namespace Phrasebook

namespace Text

/-- The first line of a text goes up to its first line feed. -/
theorem lines_append_newline {s : List Char} (h : '\n' ∉ s) (rest : List Char) :
    lines (s ++ '\n' :: rest) = (s ++ ['\n']) :: lines rest := by
  induction s with
  | nil => rfl
  | cons c s ih =>
    rw [List.mem_cons, not_or] at h
    rw [List.cons_append, lines, if_neg (Ne.symm h.1), ih h.2]
    rfl

/-- A text without line feeds is one line. -/
theorem lines_of_not_mem {s : List Char} (h : '\n' ∉ s) (hne : s ≠ []) : lines s = [s] := by
  induction s with
  | nil => exact absurd rfl hne
  | cons c s ih =>
    rw [List.mem_cons, not_or] at h
    rw [lines, if_neg (Ne.symm h.1)]
    by_cases hs : s = []
    · subst hs
      rfl
    · rw [ih h.2 hs]

end Text

namespace Segment

/-- Text, and no placeable. -/
def isText : Segment → Bool
  | text .. => true
  | placeable .. => false

/-- A line ends behind the segment. -/
def endsLine : Segment → Bool
  | text _ _ newline => newline
  | placeable .. => false

/-- The text of a segment with its indentation and its line end. -/
def line : Segment → List Char
  | text indent content newline =>
    List.replicate (indent.getD 0) ' ' ++ content ++ if newline then ['\n'] else []
  | placeable .. => []

/-- A line of text as a segment; its indentation is told if it stands at the start of a line. -/
def ofLine (startsLine : Bool) (line : List Char) : Segment :=
  let newline := line.getLast? == some '\n'
  let content := if newline then line.dropLast else line
  if startsLine then
    text (some (content.takeWhile (· == ' ')).length) (content.dropWhile (· == ' ')) newline
  else text none content newline

/-- The segments of a text, line by line. -/
def ofText (startsLine : Bool) (value : String) : List Segment :=
  match Text.lines value.toList with
  | [] => []
  | line :: rest => ofLine startsLine line :: rest.map (ofLine true)

/-- Whether the segment behind others starts a line. -/
def lineStart : (startsLine : Bool) → List Segment → Bool
  | startsLine, [] => startsLine
  | _, segment :: rest => lineStart segment.endsLine rest

end Segment

/-- The segments of a pattern. Its placeables are written behind an indentation or inside a line, so
that none of them is at the margin. -/
def Pattern.segments : (startsLine : Bool) → Pattern → List Segment
  | _, [] => []
  | startsLine, .text value :: rest =>
    let first := Segment.ofText startsLine value
    first ++ Pattern.segments (Segment.lineStart startsLine first) rest
  | _, .placeable expression :: rest =>
    .placeable false expression :: Pattern.segments false rest

namespace Segment

/-- A segment may stand at the start of a line, or inside one. Behind its indentation text has a
character that a pattern goes on with, or else its line ends at once. -/
def Fits (startsLine : Bool) : Segment → Prop
  | text indent content newline =>
    indent.isSome = startsLine ∧ (∀ c ∈ content, Reader.isTextChar c) ∧
      (startsLine → ∀ c ∈ content.head?, c ≠ ' ' ∧ Reader.endsPattern c = false) ∧
      (newline = false → content ≠ [])
  | placeable atMargin _ => atMargin → startsLine

/-- A segment of a text that is written. Text at the start of a line may also be nothing but the
spaces before a placeable. -/
def Lies (startsLine : Bool) : Segment → Prop
  | text indent content newline =>
    indent.isSome = startsLine ∧ (∀ c ∈ content, Reader.isTextChar c) ∧
      (startsLine → ∀ c ∈ content.head?, c ≠ ' ' ∧ Reader.endsPattern c = false) ∧
      (newline = false → content = [] → indent.getD 0 ≠ 0)
  | placeable atMargin _ => atMargin → startsLine

/-- Each segment may stand where it stands, and text meets text only across a line end. -/
def Successive (fits : Bool → Segment → Prop) : (startsLine : Bool) → List Segment → Prop
  | _, [] => True
  | startsLine, segment :: rest =>
    fits startsLine segment ∧
      (∀ next ∈ rest.head?, segment.isText → next.isText → segment.endsLine) ∧
      Successive fits segment.endsLine rest

/-- The segments of successive lines, as they are read. -/
abbrev Lined : (startsLine : Bool) → List Segment → Prop := Successive Fits

/-- The segments of successive lines, as they are written. -/
abbrev Laid : (startsLine : Bool) → List Segment → Prop := Successive Lies

/-- The segment with what is common to all lines taken from its indentation, and away from the
margin. -/
def reduce (common : Option Nat) : Segment → Segment
  | text indent content newline =>
    text (indent.map fun i => i - common.getD i) content newline
  | placeable _ expression => placeable false expression

/-- The element that a segment stands for as it is. -/
abbrev whole : Segment → PatternElement := element (some 0)

variable {startsLine newline : Bool} {indent common : Option Nat} {content : List Char}
  {segment : Segment} {segments rest : List Segment}

/-- The least of numbers grows with them. -/
theorem min?_map_add (k : Nat) (values : List Nat) :
    (values.map (k + ·)).min? = values.min?.map (k + ·) := by
  cases hmin : values.min? with
  | none =>
    rw [List.min?_eq_none_iff] at hmin
    subst hmin
    rfl
  | some least =>
    rw [List.min?_eq_some_iff] at hmin
    rw [Option.map_some, List.min?_eq_some_iff]
    refine ⟨List.mem_map_of_mem hmin.1, fun b hb => ?_⟩
    obtain ⟨v, hv, rfl⟩ := List.mem_map.mp hb
    have := hmin.2 v hv
    omega

/-- Where all margins are moved by the same number of columns, so is what they share. -/
theorem commonIndent_map {move : Segment → Segment} {k : Nat}
    (h : ∀ s ∈ segments, (move s).margin? = s.margin?.map (k + ·)) :
    commonIndent (segments.map move) = (commonIndent segments).map (k + ·) := by
  have hmargins : (segments.map move).filterMap margin? =
      (segments.filterMap margin?).map (k + ·) := by
    rw [List.filterMap_map, List.map_filterMap]
    exact List.filterMap_congr h
  rw [commonIndent, hmargins, min?_map_add, commonIndent]

/-- What is read as a segment may stand in a text that is written. -/
theorem Fits.lies (h : segment.Fits startsLine) : segment.Lies startsLine := by
  cases segment with
  | text indent content newline =>
    obtain ⟨hindent, hchars, hhead, hcontent⟩ := h
    exact ⟨hindent, hchars, hhead, fun hnewline hnil => absurd hnil (hcontent hnewline)⟩
  | placeable atMargin expression => exact h

/-- Segments that are successive stay so under a weaker condition on each. -/
theorem Successive.imp {fits fits' : Bool → Segment → Prop}
    (hfits : ∀ startsLine segment, fits startsLine segment → fits' startsLine segment)
    (h : Successive fits startsLine segments) : Successive fits' startsLine segments := by
  induction segments generalizing startsLine with
  | nil => trivial
  | cons segment rest ih => exact ⟨hfits _ _ h.1, h.2.1, ih h.2.2⟩

/-- The segments of lines that were read may be written. -/
theorem Lined.laid (h : Lined startsLine segments) : Laid startsLine segments :=
  Successive.imp (fun _ _ => Fits.lies) h

/-- The whole of a segment of text is its line. -/
theorem whole_text : whole (text indent content newline) =
    .text (String.ofList (line (text indent content newline))) := by
  cases indent <;> simp [element, remainingIndent, line]

/-- What a segment adds to a pattern is its whole without the common indentation. -/
theorem element_eq_whole_reduce (common : Option Nat) (segment : Segment) :
    element common segment = whole (segment.reduce common) := by
  rcases segment with ⟨_ | indent, content, newline⟩ | _ <;>
    simp [element, reduce, remainingIndent]

/-- Text stays text without the common indentation. -/
@[simp] theorem isText_reduce (common : Option Nat) (segment : Segment) :
    (segment.reduce common).isText = segment.isText := by
  cases segment <;> rfl

/-- A line ends as before without the common indentation. -/
@[simp] theorem endsLine_reduce (common : Option Nat) (segment : Segment) :
    (segment.reduce common).endsLine = segment.endsLine := by
  cases segment <;> rfl

/-- A segment fits as before without the common indentation. -/
theorem Fits.reduce (h : segment.Fits startsLine) (common : Option Nat) :
    (segment.reduce common).Fits startsLine := by
  cases segment with
  | text indent content newline =>
    obtain ⟨hindent, hrest⟩ := h
    exact ⟨by rw [Option.isSome_map, hindent], hrest⟩
  | placeable atMargin expression => rintro ⟨⟩

/-- The segments of lines stay so without the common indentation. -/
theorem Lined.reduce (h : Lined startsLine segments) (common : Option Nat) :
    Lined startsLine (segments.map (Segment.reduce common)) := by
  induction segments generalizing startsLine with
  | nil => trivial
  | cons segment rest ih =>
    obtain ⟨hfits, hnext, hrest⟩ := h
    refine ⟨hfits.reduce common, ?_, ?_⟩
    · intro next hmem
      rw [List.head?_map] at hmem
      obtain ⟨s, hs, rfl⟩ := Option.map_eq_some_iff.mp hmem
      simpa using hnext s hs
    · rw [endsLine_reduce]
      exact ih hrest

/-- No line feed stands in text. -/
theorem newline_not_mem_of_isTextChar (h : ∀ c ∈ content, Reader.isTextChar c) :
    '\n' ∉ content := by
  intro hmem
  exact absurd (h _ hmem) (by decide)

/-- A line is cut into its indentation, its content and its end. -/
theorem ofLine_content (hcontent : '\n' ∉ content) (newline : Bool) :
    ofLine startsLine (content ++ if newline then ['\n'] else []) =
      if startsLine then
        text (some (content.takeWhile (· == ' ')).length) (content.dropWhile (· == ' ')) newline
      else text none content newline := by
  cases newline with
  | true => simp [ofLine]
  | false =>
    have hlast : (content.getLast? == some '\n') = false := by
      rw [beq_eq_false_iff_ne]
      intro hlast
      exact hcontent (List.mem_of_getLast? hlast)
    simp only [ofLine, Bool.false_eq_true, if_false, List.append_nil, hlast]

/-- A line ends with its line feed. -/
theorem endsLine_ofLine (startsLine : Bool) (hcontent : '\n' ∉ content) (newline : Bool) :
    (ofLine startsLine (content ++ if newline then ['\n'] else [])).endsLine = newline := by
  rw [ofLine_content hcontent]
  cases startsLine <;> rfl

/-- A segment that fits is recovered from its line. -/
theorem ofLine_line (h : (text indent content newline).Fits startsLine) :
    ofLine startsLine (line (text indent content newline)) = text indent content newline := by
  obtain ⟨hindent, hchars, hhead, -⟩ := h
  have hspaces : '\n' ∉ List.replicate (indent.getD 0) ' ' ++ content := by
    simp [newline_not_mem_of_isTextChar hchars]
  rw [line, ofLine_content hspaces]
  cases startsLine with
  | false =>
    obtain rfl : indent = none := by simpa using hindent
    simp
  | true =>
    obtain ⟨i, rfl⟩ := Option.isSome_iff_exists.mp hindent
    have hstop : content.takeWhile (· == ' ') = [] := by
      rcases content with _ | ⟨c, content⟩
      · rfl
      · simp [(hhead rfl c rfl).1]
    have hdrop : content.dropWhile (· == ' ') = content := by
      rcases content with _ | ⟨c, content⟩
      · rfl
      · simp [(hhead rfl c rfl).1]
    simp [hstop, hdrop]

end Segment

namespace Pattern

open Segment

variable {startsLine newline : Bool} {indent : Option Nat} {content : List Char}
  {rest : List Segment} {p : Pattern}

/-- Of no elements a pattern is empty. -/
@[simp] theorem join_nil : join [] = [] := rfl

/-- An element is joined to those behind it. -/
@[simp] theorem join_cons (element : PatternElement) (rest : List PatternElement) :
    join (element :: rest) = cons element (join rest) := rfl

/-- A placeable is not joined to what follows it. -/
@[simp] theorem cons_placeable (expression : Expression) (p : Pattern) :
    cons (.placeable expression) p = .placeable expression :: p := rfl

/-- Text does not join what begins with a placeable. -/
theorem cons_text {value : String} (hvalue : value ≠ "")
    (hp : ∀ element ∈ p.head?, ∃ expression, element = .placeable expression) :
    cons (.text value) p = .text value :: p := by
  rcases p with _ | ⟨element, p⟩
  · simp [cons, hvalue]
  · obtain ⟨expression, rfl⟩ := hp element rfl
    simp [cons, hvalue]

/-- Empty text is left out. -/
theorem cons_empty (p : Pattern) : cons (.text "") p = p := by
  rcases p with _ | ⟨value | expression, p⟩
  · rfl
  · simp [cons]
  · simp [cons]

/-- Text that joins text joins what the two make up. -/
theorem cons_cons_text (value next : String) (p : Pattern) :
    cons (.text value) (cons (.text next) p) = cons (.text (value ++ next)) p := by
  by_cases hnext : next = ""
  · subst hnext
    rw [cons_empty, String.append_empty]
  rcases p with _ | ⟨third | expression, p⟩
  · simp [cons, hnext]
  · simp [cons, String.append_assoc]
  · simp [cons, hnext]

/-- An element may be joined before or after the others. -/
theorem join_cons_element (element : PatternElement) (p : Pattern) :
    join (cons element p) = cons element (join p) := by
  rcases element with value | expression
  · rcases p with _ | ⟨next | expression, p⟩
    · by_cases hempty : value.isEmpty
      · simp [cons, hempty]
      · simp [cons, hempty]
    · rw [cons, join_cons, join_cons, cons_cons_text]
    · by_cases hempty : value.isEmpty
      · obtain rfl : value = "" := by simpa using hempty
        rw [cons_empty, cons_empty]
      · simp [cons, hempty]
  · rfl

/-- What has been joined is joined. -/
theorem join_join (elements : List PatternElement) : join (join elements) = join elements := by
  induction elements with
  | nil => rfl
  | cons element rest ih => rw [join_cons, join_cons_element, ih]

/-- No text is empty, and none meets another. -/
def Joined : Pattern → Prop
  | [] => True
  | .text s :: rest => s ≠ "" ∧ (∀ t, rest.head? ≠ some (.text t)) ∧ Joined rest
  | .placeable _ :: rest => Joined rest

/-- A joined pattern stays so with one more element before it. -/
theorem Joined.cons (h : Joined p) (element : PatternElement) : Joined (cons element p) := by
  rcases element with s | e
  · rcases p with _ | ⟨t | e, rest⟩
    · by_cases hempty : s.isEmpty
      · simp [Pattern.cons, hempty, Joined]
      · simp_all [Pattern.cons, Joined]
    · obtain ⟨hne, hhead, hrest⟩ := h
      exact ⟨by simp [hne], hhead, hrest⟩
    · by_cases hempty : s.isEmpty
      · simpa [Pattern.cons, hempty] using h
      · simp_all [Pattern.cons, Joined]
  · exact h

/-- What is joined is so. -/
theorem joined_join (elements : List PatternElement) : Joined (join elements) := by
  induction elements with
  | nil => trivial
  | cons element rest ih => exact ih.cons element

/-- A pattern begins with a placeable if it is made of segments that do. -/
theorem head?_join_whole (h : ∀ segment ∈ rest.head?, segment.isText = false) :
    ∀ element ∈ (join (rest.map whole)).head?, ∃ expression, element = .placeable expression := by
  rcases rest with _ | ⟨_ | ⟨atMargin, expression⟩, rest⟩
  · rintro _ ⟨⟩
  · cases h _ rfl
  · rintro _ ⟨⟩
    exact ⟨expression, rfl⟩

private theorem mem_cons_placeable {e : Expression} {element : PatternElement}
    (h : .placeable e ∈ cons element p) : .placeable e ∈ element :: p := by
  rcases element with value | inner
  · rcases p with _ | ⟨next | inner, p⟩
    · by_cases hempty : value.isEmpty <;> simp [cons, hempty] at h
    · simpa [cons] using h
    · by_cases hempty : value.isEmpty <;> simpa [cons, hempty] using h
  · exact h

/-- Joining makes no placeables. -/
theorem mem_join_placeable {e : Expression} {elements : List PatternElement}
    (h : .placeable e ∈ join elements) : .placeable e ∈ elements := by
  induction elements with
  | nil => cases h
  | cons element rest ih =>
    rw [join_cons] at h
    rcases List.mem_cons.mp (mem_cons_placeable h) with rfl | h
    · exact List.mem_cons_self
    · exact List.mem_cons_of_mem _ (ih h)

private theorem mem_cons_text {element : PatternElement} {s : String}
    (hs : .text s ∈ Pattern.cons element p) {c : Char} (hc : c ∈ s.toList) :
    ∃ t, .text t ∈ element :: p ∧ c ∈ t.toList := by
  rcases element with value | e
  · rcases p with _ | ⟨next | e, rest⟩
    · by_cases hempty : value.isEmpty
      · simp [Pattern.cons, hempty] at hs
      · exact ⟨s, by simpa [Pattern.cons, hempty] using hs, hc⟩
    · rcases List.mem_cons.mp hs with heq | hs
      · cases heq
        rw [String.toList_append, List.mem_append] at hc
        rcases hc with hc | hc
        · exact ⟨value, by simp, hc⟩
        · exact ⟨next, by simp, hc⟩
      · exact ⟨s, by simp [hs], hc⟩
    · by_cases hempty : value.isEmpty
      · exact ⟨s, List.mem_cons_of_mem _ (by simpa [Pattern.cons, hempty] using hs), hc⟩
      · exact ⟨s, by simpa [Pattern.cons, hempty] using hs, hc⟩
  · exact ⟨s, hs, hc⟩

/-- Joining makes no new characters. -/
theorem mem_join_text {elements : List PatternElement} {s : String} (hs : .text s ∈ join elements)
    {c : Char} (hc : c ∈ s.toList) : ∃ t, .text t ∈ elements ∧ c ∈ t.toList := by
  induction elements generalizing s with
  | nil => cases hs
  | cons element rest ih =>
    obtain ⟨t, ht, hct⟩ := mem_cons_text hs hc
    rcases List.mem_cons.mp ht with rfl | ht
    · exact ⟨t, List.mem_cons_self, hct⟩
    · obtain ⟨u, hu, hcu⟩ := ih ht hct
      exact ⟨u, List.mem_cons_of_mem _ hu, hcu⟩

/-- Whether a line starts behind two lists of segments is told one after the other. -/
theorem lineStart_append (first : List Segment) (rest : List Segment) :
    lineStart startsLine (first ++ rest) = lineStart (lineStart startsLine first) rest := by
  induction first generalizing startsLine with
  | nil => rfl
  | cons segment first ih => exact ih

/-- The first line of a text is its first segment. -/
theorem ofText_line (line : List Char) (h : '\n' ∉ line) (value : String) :
    ofText startsLine (String.ofList (line ++ ['\n']) ++ value) =
      ofLine startsLine (line ++ ['\n']) :: ofText true value := by
  have hlines : Text.lines (line ++ '\n' :: value.toList) =
      (line ++ ['\n']) :: Text.lines value.toList := Text.lines_append_newline h _
  rw [ofText]
  simp only [String.toList_append, String.toList_ofList, List.append_assoc, List.cons_append,
    List.nil_append, hlines, ofText]
  cases Text.lines value.toList <;> rfl

/-- A line with its end becomes one segment, and what follows it starts a line. -/
theorem segments_cons_line (line : List Char) (h : '\n' ∉ line) (p : Pattern) :
    segments startsLine (cons (.text (String.ofList (line ++ ['\n']))) p) =
      ofLine startsLine (line ++ ['\n']) :: segments true p := by
  have hends : (ofLine startsLine (line ++ ['\n'])).endsLine = true :=
    endsLine_ofLine startsLine h true
  have hlone : ofText startsLine (String.ofList (line ++ ['\n'])) =
      [ofLine startsLine (line ++ ['\n'])] := by
    simpa [ofText, Text.lines] using ofText_line line h ""
  have hvalue : String.ofList (line ++ ['\n']) ≠ "" := by simp [-String.ofList_append]
  rcases p with _ | ⟨value | expression, p⟩
  · rw [cons_text hvalue (by rintro _ ⟨⟩)]
    simp only [segments, hlone, List.cons_append, List.nil_append]
  · simp only [cons, segments, ofText_line line h, List.cons_append, lineStart, hends]
  · rw [cons_text hvalue (by rintro _ ⟨⟩; exact ⟨expression, rfl⟩)]
    simp only [segments, hlone, List.cons_append, List.nil_append]

/-- A line without an end becomes one segment before what does not join it. -/
theorem segments_cons_open {line : List Char} (hne : line ≠ []) (h : '\n' ∉ line)
    (hp : ∀ element ∈ p.head?, ∃ expression, element = .placeable expression) :
    segments startsLine (cons (.text (String.ofList line)) p) =
      ofLine startsLine line :: segments false p := by
  have hends : (ofLine startsLine line).endsLine = false := by
    simpa using endsLine_ofLine startsLine h false
  have hvalue : String.ofList line ≠ "" := by simpa using hne
  have htext : ofText startsLine (String.ofList line) = [ofLine startsLine line] := by
    simp [ofText, Text.lines_of_not_mem h hne]
  rw [cons_text hvalue hp]
  simp only [segments, htext, List.cons_append, List.nil_append, lineStart, hends]

/-- Segments that are lined up are recovered from the pattern that they are joined to. -/
theorem segments_join (h : Lined startsLine rest) :
    segments startsLine (join (rest.map whole)) = rest.map (reduce (some 0)) := by
  induction rest generalizing startsLine with
  | nil => rfl
  | cons segment rest ih =>
    obtain ⟨hfits, hnext, hrest⟩ := h
    rw [List.map_cons, List.map_cons, join_cons]
    cases segment with
    | placeable atMargin expression =>
      exact congrArg (.placeable false expression :: ·) (ih hrest)
    | text indent content newline =>
      have hreduce : reduce (some 0) (.text indent content newline) =
          .text indent content newline := by
        cases indent <;> simp [reduce]
      have hline := ofLine_line hfits
      obtain ⟨-, hchars, -, hcontent⟩ := hfits
      have hspaces : '\n' ∉ List.replicate (indent.getD 0) ' ' ++ content := by
        simp [newline_not_mem_of_isTextChar hchars]
      rw [whole_text, hreduce, ← ih hrest]
      cases newline with
      | true =>
        rw [line, if_pos rfl] at hline ⊢
        rw [segments_cons_line _ hspaces, hline]
        rfl
      | false =>
        rw [line, if_neg (by decide), List.append_nil] at hline ⊢
        have hne : List.replicate (indent.getD 0) ' ' ++ content ≠ [] := by
          simp [hcontent rfl]
        -- Text that does not end its line is followed by a placeable, so that joining does not run
        -- it into the next text.
        have hplaceable : ∀ next ∈ rest.head?, next.isText = false := by
          intro next hmem
          cases hnew : next.isText
          · rfl
          · exact absurd (hnext next hmem rfl hnew) (by simp [endsLine])
        rw [segments_cons_open hne hspaces (head?_join_whole hplaceable), hline]
        rfl

/-- The line of a segment into which a line is made. -/
theorem whole_ofLine (line : List Char) :
    whole (ofLine startsLine line) = .text (String.ofList line) := by
  obtain ⟨content, hcontent⟩ : ∃ content, content =
    if line.getLast? == some '\n' then line.dropLast else line := ⟨_, rfl⟩
  have hline : content ++ (if line.getLast? == some '\n' then ['\n'] else []) = line := by
    split at hcontent
    · next h =>
      rw [if_pos h, hcontent]
      exact List.dropLast_append_getLast? _ (by simpa using h)
    · next h => rw [if_neg h, hcontent, List.append_nil]
  have hspaces : List.replicate (content.takeWhile (· == ' ')).length ' ' ++
      content.dropWhile (· == ' ') = content := by
    have hall : ∀ c ∈ content.takeWhile (· == ' '), c = ' ' := fun c hc => by
      simpa using List.all_eq_true.mp List.all_takeWhile c hc
    rw [← List.eq_replicate_of_mem hall, List.takeWhile_append_dropWhile]
  simp only [ofLine, ← hcontent]
  cases startsLine with
  | true => rw [if_pos rfl, whole_text, Segment.line, Option.getD_some, hspaces, hline]
  | false =>
    rw [if_neg (by decide), whole_text, Segment.line, Option.getD_none, List.replicate_zero,
      List.nil_append, hline]

private theorem join_texts (texts : List (List Char)) (rest : List PatternElement) :
    join (texts.map (fun text => .text (String.ofList text)) ++ rest) =
      cons (.text (String.ofList texts.flatten)) (join rest) := by
  induction texts with
  | nil => exact (cons_empty _).symm
  | cons text texts ih =>
    rw [List.map_cons, List.cons_append, join_cons, ih, cons_cons_text, List.flatten_cons,
      String.ofList_append]

/-- A pattern that is cut into segments is joined from them again. -/
theorem join_segments (startsLine : Bool) (p : Pattern) :
    join ((p.segments startsLine).map whole) = join p := by
  induction p generalizing startsLine with
  | nil => rfl
  | cons element rest ih =>
    cases element with
    | placeable expression =>
      exact congrArg (PatternElement.placeable expression :: ·) (ih false)
    | text value =>
      have htext : (ofText startsLine value).map whole =
          (Text.lines value.toList).map fun text => .text (String.ofList text) := by
        rw [ofText]
        rcases Text.lines value.toList with _ | ⟨line, others⟩
        · rfl
        · simp only [List.map_cons, List.map_map, Function.comp_def, whole_ofLine]
      rw [segments, List.map_append, htext, join_texts, ih, Text.flatten_lines,
        String.ofList_toList, join_cons]

end Pattern

end Phrasebook
