import Phrasebook.Proofs.RoundTrip.Written

/-!
# What becomes of the segments of a pattern

Between writing a pattern and reading it again its segments change: blanks before the first one are
skipped, spaces before a placeable are not read as text, a line end follows the last segment, and
each line comes back behind a larger indentation, that of its level. All of that indentation is
common to the lines.
-/

namespace Phrasebook

namespace Text

variable {rest : List Char}

/-- The spaces in front of a text that begins with none are those that were put there. -/
theorem takeWhile_spaces (n : Nat) (h : ∀ c ∈ rest.head?, c ≠ ' ') :
    (List.replicate n ' ' ++ rest).takeWhile (· == ' ') = List.replicate n ' ' := by
  refine takeWhile_append_stop (fun c hc => ?_) fun c hc => ?_
  · simpa using List.eq_of_mem_replicate hc
  · simpa using h c hc

/-- Behind the spaces put in front of it, a text that begins with none is left. -/
theorem dropWhile_spaces (n : Nat) (h : ∀ c ∈ rest.head?, c ≠ ' ') :
    (List.replicate n ' ' ++ rest).dropWhile (· == ' ') = rest := by
  refine dropWhile_append_stop (fun c hc => ?_) fun c hc => ?_
  · simpa using List.eq_of_mem_replicate hc
  · simpa using h c hc

/-- An empty line is dropped with its spaces. -/
theorem dropBlankLines_spaces (n : Nat) (rest : List Char) :
    dropBlankLines (List.replicate n ' ' ++ '\n' :: rest) = dropBlankLines rest := by
  rw [dropBlankLines_apply, dropWhile_spaces n (by rintro _ ⟨⟩; decide)]
  rfl

end Text

open Text

/-- A placeable is written with a brace in front. -/
theorem Expression.braced_begins (level : Nat) (e : Expression) :
    ∃ body, e.braced level = '{' :: body := by
  cases e <;>
    simp [braced, PatternElement.pieces, opening, Piece.layout, Piece.at]

namespace Segment

variable {level : Nat} {startsLine : Bool} {segment : Segment} {segments : List Segment}

/-- A segment that lies where it is written also fits there as it is read, unless it is hidden. -/
theorem Lies.fits (h : segment.Lies startsLine) (hshown : segment.isHidden = false) :
    segment.Fits startsLine := by
  cases segment with
  | placeable atMargin expression => exact h
  | text indent content newline =>
    obtain ⟨hindent, hchars, hhead, -⟩ := h
    refine ⟨hindent, hchars, hhead, ?_⟩
    rintro rfl rfl
    cases hshown

/-- Each of successive segments fits somewhere, at the start of a line or inside one. -/
theorem Successive.exists_fits {fits : Bool → Segment → Prop}
    (h : Successive fits startsLine segments) (hmem : segment ∈ segments) :
    ∃ startsLine, fits startsLine segment := by
  induction segments generalizing startsLine with
  | nil => cases hmem
  | cons first rest ih =>
    rcases List.mem_cons.mp hmem with rfl | hmem
    · exact ⟨_, h.1⟩
    · exact ih h.2.2 hmem

/-! ## A larger indentation -/

/-- The segment that is read back from the text of a segment. -/
def readBack (level : Nat) : Segment → Segment
  | text indent content newline =>
    text (indent.map fun i => if i = 0 ∧ content = [] then 0 else columnOf level + i)
      content newline
  | placeable _ expression => placeable false expression.dedent

/-- A segment is read back with its line end. -/
@[simp] theorem endsLine_readBack (level : Nat) (segment : Segment) :
    (segment.readBack level).endsLine = segment.endsLine := by
  cases segment <;> rfl

/-- A segment is read back as blank where it is blank. -/
@[simp] theorem isBlank_readBack (level : Nat) (segment : Segment) :
    (segment.readBack level).isBlank = segment.isBlank := by
  cases segment <;> rfl

/-- A margin comes back with the column of its level. -/
theorem OffMargin.margin?_readBack (h : segment.OffMargin) (level : Nat) :
    (segment.readBack level).margin? = segment.margin?.map (columnOf level + ·) := by
  rcases segment with ⟨_ | indent, content, newline⟩ | ⟨atMargin, expression⟩
  · rfl
  · by_cases hblank : content.all (· == ' ')
    · simp [readBack, margin?, hblank]
    · have hne : content ≠ [] := by
        rintro rfl
        exact hblank rfl
      simp [readBack, margin?, hblank, hne]
  · obtain rfl : atMargin = false := h
    rfl

/-- The indentation that segments are read back with is what they have in common and the column they
are written in. -/
theorem commonIndent_readBack (h : ∀ s ∈ segments, s.OffMargin) (level : Nat) :
    commonIndent (segments.map (readBack level)) =
      (commonIndent segments).map (columnOf level + ·) :=
  commonIndent_map fun s hs => (h s hs).margin?_readBack level

/-- Behind the column of the level, taking away what is common gives what it gives without. -/
theorem element_readBack (level : Nat) (common : Option Nat) (segment : Segment) :
    element (common.map (columnOf level + ·)) (segment.readBack level) =
      element common segment.dedent := by
  rcases segment with ⟨_ | indent, content, newline⟩ | ⟨atMargin, expression⟩
  · rfl
  · have hremaining : remainingIndent (common.map (columnOf level + ·))
        (some (if indent = 0 ∧ content = [] then 0 else columnOf level + indent)) =
        remainingIndent common (some indent) := by
      cases common with
      | none => simp [remainingIndent]
      | some common =>
        by_cases hempty : indent = 0 ∧ content = []
        · simp [remainingIndent, hempty]
        · simp only [remainingIndent, Option.map_some, Option.getD_some, if_neg hempty]
          congr 1
          omega
    simp only [readBack, Segment.dedent, element, Option.map_some, hremaining]
  · rfl

/-! ## The line end behind a pattern -/

/-- The segments of a pattern and of the line end behind it. -/
def closeLine : (startsLine : Bool) → List Segment → List Segment
  | startsLine, [] => [text (if startsLine then some 0 else none) [] true]
  | _, [text indent content false] => [text indent content true]
  | _, segment :: rest => segment :: closeLine segment.endsLine rest

/-- The line end behind a pattern changes nothing before its last segment. -/
theorem closeLine_cons_cons (startsLine : Bool) (segment next : Segment) (rest : List Segment) :
    closeLine startsLine (segment :: next :: rest) =
      segment :: closeLine segment.endsLine (next :: rest) := by
  rcases segment with ⟨indent, content, _ | _⟩ | _ <;> rfl

/-- The line end ends the line of the last text, or it is an empty line or the end of one. -/
theorem closeLine_eq (startsLine : Bool) (segments : List Segment) :
    (∃ indent, closeLine startsLine segments = segments ++ [text indent [] true]) ∨
      ∃ init indent content, segments = init ++ [text indent content false] ∧
        closeLine startsLine segments = init ++ [text indent content true] := by
  induction segments generalizing startsLine with
  | nil => exact .inl ⟨_, rfl⟩
  | cons segment rest ih =>
    rcases rest with _ | ⟨next, rest⟩
    · rcases segment with ⟨indent, content, _ | _⟩ | _
      · exact .inr ⟨[], indent, content, rfl, rfl⟩
      · exact .inl ⟨_, rfl⟩
      · exact .inl ⟨_, rfl⟩
    · rw [closeLine_cons_cons]
      rcases ih segment.endsLine with ⟨indent, h⟩ | ⟨init, indent, content, h, hclose⟩
      · exact .inl ⟨indent, by rw [h]; rfl⟩
      · exact .inr ⟨segment :: init, indent, content, by rw [h]; rfl, by rw [hclose]; rfl⟩

/-- The line end behind a pattern brings no placeable with it. -/
theorem mem_closeLine (h : segment ∈ closeLine startsLine segments) :
    segment ∈ segments ∨ segment.isText := by
  rcases closeLine_eq startsLine segments with ⟨indent, hclose⟩ |
    ⟨init, indent, content, rfl, hclose⟩
  all_goals
    rw [hclose, List.mem_append, List.mem_singleton] at h
    rcases h with h | rfl
  · exact .inl h
  · exact .inr rfl
  · exact .inl (List.mem_append_left _ h)
  · exact .inr rfl

/-- Before the last one, the segments up to the line end are those of the pattern. -/
theorem mem_of_mem_dropLast_closeLine (h : segment ∈ (closeLine startsLine segments).dropLast) :
    segment ∈ segments := by
  rcases closeLine_eq startsLine segments with ⟨indent, hclose⟩ |
    ⟨init, indent, content, rfl, hclose⟩
  all_goals rw [hclose, List.dropLast_concat] at h
  · exact h
  · exact List.mem_append_left _ h

/-- A line has ended behind the last segment that is read back. -/
theorem readBack_closeLine (level : Nat) (startsLine : Bool) (segments : List Segment) :
    ∃ init indent content, ((closeLine startsLine segments).filter fun s => !s.isHidden).map
        (readBack level) = init ++ [text indent content true] := by
  have hlast (indent : Option Nat) (content : List Char) :
      [text indent content true].filter (fun s => !s.isHidden) = [text indent content true] :=
    List.filter_cons_of_pos (by simp [isHidden])
  rcases closeLine_eq startsLine segments with ⟨indent, hclose⟩ |
    ⟨init, indent, content, rfl, hclose⟩
  all_goals
    rw [hclose, List.filter_append, hlast, List.map_append]
    exact ⟨_, _, _, rfl⟩

/-- Behind the line end of a pattern a line starts. -/
theorem lineStart_closeLine (startsLine : Bool) (segments : List Segment) :
    lineStart startsLine (closeLine startsLine segments) = true := by
  rcases closeLine_eq startsLine segments with ⟨indent, h⟩ | ⟨init, indent, content, -, h⟩ <;>
    rw [h, Pattern.lineStart_append] <;> rfl

private theorem isText_head?_closeLine {next : Segment}
    (h : next ∈ (closeLine startsLine segments).head?) :
    segments = [] ∨ ∃ s ∈ segments.head?, next.isText = s.isText := by
  rcases segments with _ | ⟨segment, rest⟩
  · exact .inl rfl
  refine .inr ⟨segment, rfl, ?_⟩
  rcases rest with _ | ⟨next', rest⟩
  · rcases segment with ⟨indent, content, _ | _⟩ | _ <;>
      simp only [closeLine, List.head?_cons, Option.mem_some_iff] at h <;> subst h <;> rfl
  · rw [closeLine_cons_cons, List.head?_cons, Option.mem_some_iff] at h
    subst h
    rfl

/-- Segments stay well laid when the line end behind them is added. -/
theorem Laid.closeLine (h : Laid startsLine segments) :
    Laid startsLine (closeLine startsLine segments) := by
  induction segments generalizing startsLine with
  | nil =>
    refine ⟨⟨?_, by simp, by simp, by rintro ⟨⟩⟩, by rintro _ ⟨⟩, trivial⟩
    cases startsLine <;> rfl
  | cons segment rest ih =>
    obtain ⟨hlies, hmeets, hrest⟩ := h
    rcases rest with _ | ⟨next, rest⟩
    · rcases segment with ⟨indent, content, _ | _⟩ | _
      · exact ⟨⟨hlies.1, hlies.2.1, hlies.2.2.1, by rintro ⟨⟩⟩, by rintro _ ⟨⟩, trivial⟩
      · exact ⟨hlies, fun _ _ _ _ => rfl, ih hrest⟩
      · exact ⟨hlies, (by rintro _ - ⟨⟩), ih hrest⟩
    · rw [closeLine_cons_cons]
      refine ⟨hlies, fun s hs htext hnext => ?_, ih hrest⟩
      obtain hnil | ⟨t, ht, hsame⟩ := isText_head?_closeLine hs
      · cases hnil
      · exact hmeets t ht htext (hsame ▸ hnext)

/-- The spaces before the content of a text segment, where it starts a line. -/
def lead (level : Nat) (startsLine : Bool) (indent : Option Nat) (content : List Char) :
    List Char :=
  if startsLine then
    List.replicate
      (if indent.getD 0 = 0 ∧ content = [] then 0 else columnOf level + indent.getD 0) ' '
  else []

/-- The text of a segment is its content behind the spaces before it. -/
theorem Lies.written_eq {indent : Option Nat} {content : List Char} {newline : Bool}
    (h : (text indent content newline).Lies startsLine) (level : Nat) :
    written level startsLine (text indent content newline) =
      lead level startsLine indent content ++ (content ++ if newline then ['\n'] else []) := by
  obtain ⟨hindent, hchars, -, hcontent⟩ := h
  cases startsLine with
  | false =>
    obtain rfl : indent = none := by simpa using hindent
    simp [written, line, lead]
  | true =>
    obtain ⟨i, rfl⟩ := Option.isSome_iff_exists.mp hindent
    by_cases hempty : i = 0 ∧ content = []
    · obtain ⟨rfl, rfl⟩ := hempty
      have hnewline : newline = true := by
        rw [← Bool.not_eq_false]
        exact fun hnewline => hcontent hnewline rfl rfl
      simp [written, line, lead, hnewline]
    · have hspaces : '\n' ∉ List.replicate i ' ' ++ content := by
        simp [newline_not_mem_of_isTextChar hchars]
      have hline : line (text (some i) content newline) ≠ ['\n'] := by
        have hnil : List.replicate i ' ' ++ content ≠ [] := by
          simpa [List.append_eq_nil_iff, List.replicate_eq_nil_iff] using hempty
        intro hline
        cases newline with
        | true => exact hnil (List.append_cancel_right (hline.trans (List.nil_append _).symm))
        | false =>
          rw [line, if_neg (by decide), List.append_nil, Option.getD_some] at hline
          exact hspaces (hline ▸ List.mem_singleton_self _)
      have hwritten : written level true (text (some i) content newline) =
          indentation level ++ line (text (some i) content newline) := by
        simp [written, hline]
      rw [hwritten]
      simp only [lead, if_true, Option.getD_some, if_neg hempty, indentation, line,
        ← List.replicate_append_replicate, List.append_assoc]

/-- At the start of a line, the spaces of its indentation stand before the brace of a placeable. -/
theorem writtenAll_placeable (level : Nat) (startsLine atMargin : Bool) (e : Expression)
    (segments : List Segment) :
    writtenAll level startsLine (placeable atMargin e :: segments) =
      List.replicate (if startsLine then columnOf level else 0) ' ' ++
        (e.braced level ++ writtenAll level false segments) := by
  cases startsLine <;> simp [writtenAll, written, endsLine, indentation]

/-- Hidden text is the indentation of a line. -/
theorem Lies.of_hidden {indent : Option Nat} (h : (text indent [] false).Lies startsLine) :
    startsLine = true ∧ indent.getD 0 ≠ 0 := by
  have hindent : indent.getD 0 ≠ 0 := h.2.2.2 rfl rfl
  refine ⟨?_, hindent⟩
  rw [← h.1]
  cases indent with
  | none => exact absurd rfl hindent
  | some i => rfl

/-- The spaces of hidden text stand before the brace of the placeable behind it. -/
theorem Lies.writtenAll_hidden {indent : Option Nat} (h : (text indent [] false).Lies startsLine)
    (level : Nat) (atMargin : Bool) (e : Expression) (segments : List Segment) :
    writtenAll level startsLine (text indent [] false :: placeable atMargin e :: segments) =
      List.replicate (columnOf level + indent.getD 0) ' ' ++
        (e.braced level ++ writtenAll level false segments) := by
  obtain ⟨rfl, hindent⟩ := h.of_hidden
  rw [writtenAll, h.written_eq, endsLine, writtenAll_placeable]
  simp [lead, hindent]

/-- A line end behind the text of segments is the text of one segment more, or ends the last one. -/
theorem Laid.writtenAll_closeLine (h : Laid startsLine segments) (level : Nat) :
    writtenAll level startsLine (Segment.closeLine startsLine segments) =
      writtenAll level startsLine segments ++ ['\n'] := by
  induction segments generalizing startsLine with
  | nil => cases startsLine <;> rfl
  | cons segment rest ih =>
    have hclosed := h.closeLine
    obtain ⟨hlies, -, hrest⟩ := h
    have hcons (hclose : Segment.closeLine startsLine (segment :: rest) =
        segment :: Segment.closeLine segment.endsLine rest) :
        writtenAll level startsLine (Segment.closeLine startsLine (segment :: rest)) =
          writtenAll level startsLine (segment :: rest) ++ ['\n'] := by
      rw [hclose, writtenAll, writtenAll, ih hrest, List.append_assoc]
    rcases rest with _ | ⟨next, rest⟩
    · rcases segment with ⟨indent, content, _ | _⟩ | _
      · have hline : (text indent content true).Lies startsLine := hclosed.1
        rw [Segment.closeLine, writtenAll, writtenAll, writtenAll, writtenAll, hline.written_eq,
          hlies.written_eq]
        simp
      · exact hcons rfl
      · exact hcons rfl
    · exact hcons (closeLine_cons_cons _ _ _ _)

/-- A line end behind segments leaves no trace in the pattern that they make up. -/
theorem Laid.ofSegments?_closeLine (h : Laid startsLine segments) (level : Nat) :
    Pattern.ofSegments? (((Segment.closeLine startsLine segments).filter fun s => !s.isHidden).map
        (readBack level)) =
      Pattern.ofSegments? ((segments.filter fun s => !s.isHidden).map (readBack level)) := by
  have hblank (indent : Option Nat) : ∀ s ∈ [readBack level (text indent [] true)], s.isBlank := by
    rintro _ (_ | ⟨_, ⟨⟩⟩)
    rfl
  rcases closeLine_eq startsLine segments with ⟨indent, hclose⟩ |
    ⟨init, indent, content, rfl, hclose⟩
  · rw [hclose, List.filter_append, List.map_append]
    exact Pattern.ofSegments?_append_blank (hblank indent)
  · rw [hclose, List.filter_append, List.filter_append, List.map_append, List.map_append]
    rcases content with _ | ⟨c, content⟩
    · rw [show [text indent [] false].filter (fun s => !s.isHidden) = [] from rfl, List.map_nil,
        List.append_nil]
      exact Pattern.ofSegments?_append_blank (hblank indent)
    · obtain ⟨_, hlies⟩ := Successive.exists_fits h
        (List.mem_append_right init (List.mem_singleton_self _))
      exact Pattern.ofSegments?_concat_newline _ hlies.2.1

/-! ## The blanks before a pattern -/

/-- Segments with which a pattern begins where it is read: an empty line is not among them, nor are
spaces inside a line. -/
def Open (startsLine : Bool) (segments : List Segment) : Prop :=
  ∀ s ∈ segments.head?, s.isEmptyLine = false ∧ (startsLine = false → s.Begins)

/-- Behind spaces, a pattern begins with a character that its line goes on with. -/
theorem Laid.begins (h : Laid startsLine segments) (hopen : Open startsLine segments)
    (hsolid : ∃ s ∈ segments, s.isBlank = false) (level : Nat) :
    ∃ n c rest, writtenAll level startsLine segments = List.replicate n ' ' ++ c :: rest ∧
      c ≠ ' ' ∧ isBreak c = false ∧ (startsLine = false → n = 0) := by
  rcases segments with _ | ⟨segment, others⟩
  · obtain ⟨_, ⟨⟩, -⟩ := hsolid
  obtain ⟨hempty, hbegins⟩ := hopen segment rfl
  obtain ⟨hlies, hmeets, -⟩ := h
  rcases segment with ⟨indent, _ | ⟨c, content⟩, newline⟩ | ⟨atMargin, e⟩
  · -- Nothing but spaces, which a placeable follows.
    obtain rfl : newline = false := by simpa [isEmptyLine] using hempty
    rcases others with _ | ⟨⟨indent', content', newline'⟩ | ⟨atMargin, e⟩, others⟩
    · obtain ⟨s, hs, hblank⟩ := hsolid
      rw [List.mem_singleton.mp hs] at hblank
      cases hblank
    · cases hmeets _ rfl rfl rfl
    · obtain ⟨body, hbody⟩ := e.braced_begins level
      obtain ⟨rfl, -⟩ := hlies.of_hidden
      refine ⟨columnOf level + indent.getD 0, '{', body ++ writtenAll level false others, ?_,
        by decide, by decide, by rintro ⟨⟩⟩
      rw [hlies.writtenAll_hidden, hbody, List.cons_append]
  · have hspace : c ≠ ' ' := by
      cases startsLine with
      | true => exact (hlies.2.2.1 rfl c rfl).1
      | false =>
        obtain ⟨d, hd, hspace⟩ := hbegins rfl
        obtain rfl : c = d := by simpa using hd
        exact hspace
    have hbreak : isBreak c = false :=
      (Reader.isTextChar_iff.mp (hlies.2.1 c List.mem_cons_self)).1
    refine ⟨if startsLine then columnOf level + indent.getD 0 else 0, c,
      content ++ (if newline then ['\n'] else []) ++ writtenAll level newline others, ?_, hspace,
      hbreak, by rintro rfl; rfl⟩
    rw [writtenAll, hlies.written_eq]
    cases startsLine <;> simp [lead, endsLine]
  · obtain ⟨body, hbody⟩ := e.braced_begins level
    refine ⟨if startsLine then columnOf level else 0, '{',
      body ++ writtenAll level false others, ?_,
      by decide, by decide, by rintro rfl; rfl⟩
    rw [writtenAll_placeable, hbody, List.cons_append]

/-- Below what a pattern belongs to, the empty lines before its first line are skipped. -/
private theorem Laid.opened_lines (h : Laid true segments) :
    Laid true (opened true segments) ∧ Open true (opened true segments) := by
  rw [Segment.opened]
  induction segments with
  | nil => exact ⟨trivial, by rintro _ ⟨⟩⟩
  | cons segment rest ih =>
    by_cases hempty : segment.isEmptyLine
    · rw [List.dropWhile_cons_of_pos hempty]
      have hends : segment.endsLine = true := by
        cases segment with
        | text indent content newline => exact (Bool.and_eq_true _ _ ▸ hempty : _ ∧ _).2
        | placeable atMargin e => cases hempty
      exact ih (hends ▸ h.2.2)
    · rw [List.dropWhile_cons_of_neg hempty]
      refine ⟨h, ?_⟩
      rintro _ ⟨⟩
      exact ⟨by simpa using hempty, by rintro ⟨⟩⟩

/-- Text of nothing but spaces does not end its line if only text that is not blank does. -/
private theorem newline_eq_false_of_spaces {indent : Option Nat} {content : List Char}
    {newline : Bool} (h : newline = true → (text indent content newline).isBlank = false)
    (hspaces : content.dropWhile (· == ' ') = []) : newline = false := by
  have hblank : content.all (· == ' ') := by
    simpa [List.dropWhile_eq_nil_iff] using hspaces
  rw [← Bool.not_eq_true]
  intro hnewline
  exact absurd (h hnewline) (by rw [isBlank, hblank]; decide)

/-- Behind what a pattern belongs to, the spaces before its first character are skipped. -/
private theorem Laid.opened_spaces (h : Laid false segments)
    (hfirst : ∀ s ∈ segments.head?, s.endsLine → s.isBlank = false) :
    Laid false (opened false segments) ∧ Open false (opened false segments) := by
  rcases segments with _ | ⟨⟨indent, content, newline⟩ | ⟨atMargin, e⟩, rest⟩
  · exact ⟨trivial, by rintro _ ⟨⟩⟩
  · obtain ⟨hlies, hmeets, hrest⟩ := h
    rw [Segment.opened]
    split
    · next hdrop =>
      obtain rfl := newline_eq_false_of_spaces (hfirst _ rfl) hdrop
      refine ⟨hrest, ?_⟩
      rintro (⟨indent', content', newline'⟩ | ⟨atMargin, e⟩) hs
      · cases hmeets _ hs rfl rfl
      · exact ⟨rfl, fun _ => trivial⟩
    · next c behind hdrop =>
      have hspace : c ≠ ' ' := ne_space_of_dropWhile hdrop
      refine ⟨⟨⟨hlies.1, fun d hd => hlies.2.1 d ?_, by rintro ⟨⟩, by rintro - ⟨⟩⟩, hmeets, hrest⟩,
        ?_⟩
      · exact (List.dropWhile_suffix (· == ' ')).subset (hdrop ▸ hd)
      · rintro _ ⟨⟩
        exact ⟨rfl, fun _ => ⟨c, rfl, hspace⟩⟩
  · refine ⟨h, ?_⟩
    rintro _ ⟨⟩
    exact ⟨rfl, fun _ => trivial⟩

/-- The blanks before a pattern are skipped: empty lines below what it belongs to, or spaces. -/
theorem Laid.opened (h : Laid startsLine segments)
    (hfirst : startsLine = false → ∀ s ∈ segments.head?, s.endsLine → s.isBlank = false) :
    Laid startsLine (opened startsLine segments) ∧
      Open startsLine (opened startsLine segments) := by
  cases startsLine with
  | true => exact h.opened_lines
  | false => exact h.opened_spaces (hfirst rfl)

/-- Only blanks are skipped. -/
theorem isBlank_opened (startsLine : Bool) (segments : List Segment) :
    (∀ s ∈ opened startsLine segments, s.isBlank) ↔ ∀ s ∈ segments, s.isBlank := by
  cases startsLine with
  | true =>
    rw [opened]
    induction segments with
    | nil => rfl
    | cons segment rest ih =>
      by_cases hempty : segment.isEmptyLine
      · have hblank : segment.isBlank := by
          rcases segment with ⟨indent, _ | ⟨c, content⟩, newline⟩ | ⟨atMargin, e⟩
          · rfl
          · cases hempty
          · cases hempty
        rw [List.dropWhile_cons_of_pos hempty, ih, List.forall_mem_cons, and_iff_right hblank]
      · rw [List.dropWhile_cons_of_neg hempty]
  | false =>
    rcases segments with _ | ⟨⟨indent, content, newline⟩ | ⟨atMargin, e⟩, rest⟩
    · rfl
    · have hall : content.all (· == ' ') = (content.dropWhile (· == ' ')).all (· == ' ') := by
        conv_lhs => rw [← List.takeWhile_append_dropWhile (p := (· == ' ')) (l := content)]
        rw [List.all_append, List.all_takeWhile, Bool.true_and]
      rw [opened, List.forall_mem_cons, isBlank, hall]
      split
      · next hdrop => simp [hdrop]
      · next c behind hdrop => rw [hdrop, List.forall_mem_cons, isBlank]
    · rfl

/-- What is not blank in a pattern is not lost where the pattern begins. -/
theorem exists_solid_opened (hsolid : ∃ s ∈ segments, s.isBlank = false)
    (startsLine : Bool) : ∃ s ∈ opened startsLine segments, s.isBlank = false := by
  by_contra hblank
  obtain ⟨s, hs, hsolid⟩ := hsolid
  have hall := (isBlank_opened startsLine segments).mp (by simpa using hblank) s hs
  rw [hsolid] at hall
  cases hall

/-- Of the segments that are left, the first one may have lost the spaces at its front. -/
theorem mem_opened (h : segment ∈ opened startsLine segments) :
    ∃ s ∈ segments, segment.endsLine = s.endsLine ∧ (segment = s ∨ segment.isText) := by
  have hsame (hmem : segment ∈ segments) :
      ∃ s ∈ segments, segment.endsLine = s.endsLine ∧ (segment = s ∨ segment.isText) :=
    ⟨segment, hmem, rfl, .inl rfl⟩
  cases startsLine with
  | true => exact hsame ((List.dropWhile_suffix _).subset h)
  | false =>
    rcases segments with _ | ⟨⟨indent, content, newline⟩ | ⟨atMargin, e⟩, rest⟩
    · exact hsame h
    · rw [opened] at h
      split at h
      · exact hsame (List.mem_cons_of_mem _ h)
      · rcases List.mem_cons.mp h with rfl | h
        · exact ⟨_, List.mem_cons_self, rfl, .inr rfl⟩
        · exact hsame (List.mem_cons_of_mem _ h)
    · exact hsame h

/-- Empty lines before a pattern are dropped as blank lines. -/
theorem Laid.dropBlankLines (h : Laid true segments) (hsolid : ∃ s ∈ segments, s.isBlank = false)
    (level : Nat) (more : List Char) :
    Text.dropBlankLines (writtenAll level true segments ++ '\n' :: more) =
      writtenAll level true (Segment.opened true segments) ++ '\n' :: more := by
  obtain ⟨-, hopen⟩ := h.opened (by rintro ⟨⟩)
  rw [Segment.opened] at hopen ⊢
  induction segments with
  | nil =>
    obtain ⟨_, ⟨⟩, -⟩ := hsolid
  | cons segment rest ih =>
    by_cases hempty : segment.isEmptyLine
    · rw [List.dropWhile_cons_of_pos hempty] at hopen ⊢
      rcases segment with ⟨indent, _ | ⟨c, content⟩, newline⟩ | ⟨atMargin, e⟩
      · obtain rfl : newline = true := hempty
        have hrest : ∃ s ∈ rest, s.isBlank = false := by
          obtain ⟨s, hs, hblank⟩ := hsolid
          rcases List.mem_cons.mp hs with rfl | hs
          · cases hblank
          · exact ⟨s, hs, hblank⟩
        rw [writtenAll, h.1.written_eq, lead, if_pos rfl, ← ih h.2.2 hrest hopen]
        simp only [if_true, List.nil_append, List.append_assoc, List.cons_append, endsLine,
          dropBlankLines_spaces]
      · cases hempty
      · cases hempty
    · rw [List.dropWhile_cons_of_neg hempty] at hopen ⊢
      obtain ⟨n, c, behind, hwritten, hspace, hbreak, -⟩ := h.begins hopen hsolid level
      rw [hwritten, List.append_assoc]
      exact dropBlankLines_eq_self (dropWhile_spaces n (by rintro _ ⟨⟩; exact hspace)) hbreak

/-- Spaces before a pattern are skipped. -/
theorem Laid.dropWhile_space (h : Laid false segments)
    (hfirst : ∀ s ∈ segments.head?, s.endsLine → s.isBlank = false)
    (hsolid : ∃ s ∈ segments, s.isBlank = false) (level : Nat) (more : List Char) :
    (writtenAll level false segments ++ '\n' :: more).dropWhile (· == ' ') =
      writtenAll level false (Segment.opened false segments) ++ '\n' :: more := by
  obtain ⟨hlaid, hopen⟩ := h.opened fun _ => hfirst
  obtain ⟨n, c, behind, hwritten, hspace, -, hinside⟩ :=
    hlaid.begins hopen (exists_solid_opened hsolid false) level
  obtain rfl := hinside rfl
  -- What is skipped are the spaces that `opened` takes off the first segment, or all of it.
  obtain ⟨spaces, hspaces, hall⟩ : ∃ spaces, (∀ d ∈ spaces, d = ' ') ∧
      writtenAll level false segments =
        spaces ++ writtenAll level false (Segment.opened false segments) := by
    rcases segments with _ | ⟨⟨indent, content, newline⟩ | ⟨atMargin, e⟩, rest⟩
    · exact ⟨[], by simp, rfl⟩
    · have hsplit := List.takeWhile_append_dropWhile (p := (· == ' ')) (l := content)
      refine ⟨content.takeWhile (· == ' '), fun d hd => by simpa using List.mem_takeWhile_imp hd,
        ?_⟩
      rw [writtenAll, h.1.written_eq]
      rw [Segment.opened] at hlaid ⊢
      split at hlaid
      · next hdrop =>
        obtain rfl := newline_eq_false_of_spaces (hfirst _ rfl) hdrop
        rw [hdrop, List.append_nil] at hsplit
        simp [lead, hsplit, endsLine]
      · next c' behind' hdrop =>
        rw [hdrop] at hsplit
        rw [writtenAll, hlaid.1.written_eq]
        conv_lhs => rw [← hsplit]
        simp [lead, endsLine]
    · exact ⟨[], by simp, rfl⟩
  rw [hall, hwritten, List.append_assoc, List.dropWhile_append_of_pos (by simpa using hspaces)]
  exact List.dropWhile_cons_of_neg (by simpa using hspace)

/-- Blank segments write nothing but spaces and line ends. -/
theorem Laid.blank_writtenAll (h : Laid startsLine segments) (hblank : ∀ s ∈ segments, s.isBlank)
    (level : Nat) : ∀ c ∈ writtenAll level startsLine segments, c = ' ' ∨ c = '\n' := by
  induction segments generalizing startsLine with
  | nil => rintro _ ⟨⟩
  | cons segment rest ih =>
    obtain ⟨hlies, -, hrest⟩ := h
    obtain ⟨hfirst, hothers⟩ := List.forall_mem_cons.mp hblank
    intro c hc
    rw [writtenAll, List.mem_append] at hc
    refine hc.elim (fun hc => ?_) (ih hrest hothers c)
    cases segment with
    | placeable atMargin e => cases hfirst
    | text indent content newline =>
      have hcontent : ∀ d ∈ content, d = ' ' := by simpa [isBlank] using hfirst
      rw [hlies.written_eq, List.mem_append, List.mem_append] at hc
      rcases hc with hc | hc | hc
      · rw [lead] at hc
        split at hc
        · exact .inl (List.eq_of_mem_replicate hc)
        · cases hc
      · exact .inl (hcontent c hc)
      · split at hc
        · exact .inr (List.mem_singleton.mp hc)
        · cases hc

end Segment

namespace Pattern

open Segment

/-- As a pattern is written, no placeable stands at the margin. -/
theorem offMargin_writtenSegments (p : Pattern) : ∀ s ∈ p.writtenSegments, s.OffMargin := by
  intro s hs
  rcases mem_segments hs with htext | ⟨e, -, rfl⟩
  · cases s with
    | text indent content newline => trivial
    | placeable atMargin e => cases htext
  · rfl

/-- As a pattern is read where it is written, no placeable stands at the margin. -/
theorem offMargin_readSegments (p : Pattern) : ∀ s ∈ p.readSegments, s.OffMargin := by
  intro s hs
  obtain ⟨t, ht, -, rfl | htext⟩ := mem_opened (List.mem_of_mem_filter hs)
  · exact offMargin_writtenSegments p s ht
  · cases s with
    | text indent content newline => trivial
    | placeable atMargin e => cases htext

/-- Segments make a pattern unless all of them are blank. -/
theorem isSome_ofSegments? {segments : List Segment} :
    (ofSegments? segments).isSome ↔ ∃ s ∈ segments, s.isBlank = false := by
  have hkept : dropEndWhile Segment.isBlank segments = [] ↔ ∀ s ∈ segments, s.isBlank :=
    dropEndWhile_eq_nil_iff
  rw [← not_iff_not, ofSegments?]
  by_cases hnil : dropEndWhile Segment.isBlank segments = []
  · simpa [hnil] using hkept.mp hnil
  · simpa [hnil] using hkept.not.mp hnil

/-- The pattern that is read back is joined from what is read back of its segments. -/
theorem ofSegments?_readBack (level : Nat) (p : Pattern) :
    ofSegments? (p.readSegments.map (readBack level)) = p.dedent? := by
  have hkept (f : Segment → Segment) (hf : ∀ s, (f s).isBlank = s.isBlank) :
      dropEndWhile Segment.isBlank (p.readSegments.map f) =
        (dropEndWhile Segment.isBlank p.readSegments).map f := by
    have hcomp : Segment.isBlank ∘ f = Segment.isBlank := funext hf
    rw [dropEndWhile, dropEndWhile, ← List.map_reverse, List.dropWhile_map, hcomp, List.map_reverse]
  have hcommon : commonIndent (p.readSegments.map Segment.dedent) =
      commonIndent p.readSegments := by
    rw [commonIndent, commonIndent, List.filterMap_map]
    simp only [Function.comp_def, margin?_dedent]
  rw [Pattern.dedent?, unindent?, readSegments_map_dedent, ofSegments?, ofSegments?,
    hkept _ (isBlank_readBack level), hkept _ isBlank_dedent,
    commonIndent_readBack (offMargin_readSegments p), hcommon]
  simp only [List.isEmpty_map, List.map_map, Function.comp_def, element_readBack]

/-- A pattern has something left without its common spaces if something written of it is not
blank. -/
theorem isSome_unindent? {p : Pattern} :
    p.unindent?.isSome ↔ ∃ s ∈ p.writtenSegments, s.isBlank = false := by
  have hopened := (isBlank_opened p.ownLines p.writtenSegments).not
  simp only [not_forall, Bool.not_eq_true, exists_prop] at hopened
  rw [unindent?, isSome_ofSegments?, ← hopened, readSegments]
  refine exists_congr fun s => and_congr_left fun hsolid => ?_
  have hshown : s.isHidden = false := by
    rcases s with ⟨indent, _ | ⟨c, content⟩, newline⟩ | ⟨atMargin, e⟩
    · cases hsolid
    · rfl
    · rfl
  rw [List.mem_filter, hshown, Bool.not_false, and_iff_left rfl]

/-- The segments of a pattern as it is written have its text. -/
theorem join_writtenSegments (p : Pattern) : join (p.writtenSegments.map whole) = join p := by
  rw [writtenSegments, join_segments, join_join]

/-- A line that a pattern holds makes it take several lines. -/
theorem isMultiline_of_endsLine {p : Pattern} {s : Segment} (hs : s ∈ p.writtenSegments)
    (hends : s.endsLine) : p.isMultiline := by
  by_contra hsingle
  rw [Bool.not_eq_true, ← isMultiline_join, ← join_writtenSegments] at hsingle
  rw [Segment.endsLine_eq_false hsingle s hs] at hends
  cases hends

/-- A pattern of several lines that is written behind what it belongs to begins with text that is
not blank. -/
theorem isBlank_head?_of_not_ownLines {p : Pattern} (hown : p.ownLines = false) :
    ∀ s ∈ p.writtenSegments.head?, s.endsLine → s.isBlank = false := by
  intro s hs hends
  have hmultiline := isMultiline_of_endsLine (List.mem_of_mem_head? hs) hends
  have hspecial : p.startsSpecial = true := by simpa [ownLines, hmultiline] using hown
  obtain ⟨rest, hrest⟩ := List.head?_eq_some_iff.mp hs
  rcases s with ⟨indent, content, newline⟩ | ⟨atMargin, e⟩
  swap
  · rfl
  obtain rfl : newline = true := hends
  rcases p with _ | ⟨value | e, others⟩
  · cases hspecial
  swap
  · cases hspecial
  have hjoin := join_writtenSegments (.text value :: others)
  rw [hrest, List.map_cons, join_cons, join_cons, whole_text] at hjoin
  have hvalue : value ≠ "" := by
    rintro rfl
    cases hspecial
  -- The character that makes the start special is that of the first segment, and no space.
  have hfirst := congrArg startsSpecial hjoin
  rw [startsSpecial_cons hvalue, startsSpecial_cons (by simp [line, -String.ofList_append]),
    String.toList_ofList] at hfirst
  have hcons : startsSpecial (.text value :: others) =
      value.toList.head?.any fun c => c == '[' || c == '*' || c == '.' := rfl
  rw [← hcons, hspecial, Option.any_eq_true] at hfirst
  obtain ⟨c, hc, hspecial⟩ := hfirst
  rw [← Bool.not_eq_true]
  intro hblank
  have hcontent : ∀ d ∈ content, d = ' ' := by simpa [Segment.isBlank] using hblank
  have hmem := List.mem_of_mem_head? hc
  simp only [line, if_true, List.mem_append, List.mem_singleton] at hmem
  rcases hmem with (hmem | hmem) | rfl
  · rw [List.eq_of_mem_replicate hmem] at hspecial
    cases hspecial
  · rw [hcontent c hmem] at hspecial
    cases hspecial
  · cases hspecial

/-- Dedenting inside the placeables does not make a pattern blank. -/
theorem isSome_dedent? {p : Pattern} : p.dedent?.isSome = p.unindent?.isSome := by
  rw [Bool.eq_iff_iff, Pattern.dedent?, isSome_unindent?, isSome_unindent?,
    writtenSegments_map_dedent]
  simp

/-- A pattern is lost in dedenting only if its own lines are blank. -/
theorem dedent?_eq_none {p : Pattern} : p.dedent? = none ↔ p.unindent? = none := by
  rw [← Option.not_isSome_iff_eq_none, ← Option.not_isSome_iff_eq_none, isSome_dedent?]

end Pattern

end Phrasebook
