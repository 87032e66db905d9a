import Phrasebook.Proofs.RoundTrip.Literal
import Phrasebook.Proofs.RoundTrip.ReadBack.Segments

/-!
# Patterns read back

The text of a pattern is read back segment by segment, from where the blanks before it end to the
line end behind it and the blank lines below. What is read is the pattern without the spaces that
its lines share, or nothing if it is blank.
-/

namespace Phrasebook

open Text

/-- A pattern that is not blank is not blank without the spaces that its lines have in common. -/
theorem Shape.Value.dedent?_eq {shape : Shape} {p : Pattern} (h : shape.Value p) :
    p.dedent? = some p.dedent := by
  obtain ⟨q, hq⟩ := Option.isSome_iff_exists.mp (Pattern.isSome_dedent? ▸ h.present)
  rw [Pattern.dedent, hq, Option.getD_some]

namespace Reader

open Segment (Fits Lies Laid readBack closeLine opened lead writtenAll writtenAll_placeable)

variable {text rest after more content : List Char} {indent : Option Nat} {newline : Bool}
  {startsLine : Bool} {read : List Segment} {level : Nat}

/-- What follows the content of a text segment: its line end, or the brace of a placeable. -/
def Ends (newline : Bool) (text after : List Char) : Prop :=
  if newline then text = '\n' :: after else text = after ∧ after.head? = some '{'

/-- The content of a text segment is read up to its line end or the brace behind it. -/
theorem textSegment_reads (hchars : ∀ c ∈ content, isTextChar c) (hends : Ends newline rest after) :
    textSegment indent (content ++ rest) = .ok (.text indent content newline, after) := by
  rw [textSegment_apply]
  cases newline with
  | true =>
    obtain rfl : rest = '\n' :: after := by simpa [Ends] using hends
    have hstop : ∀ c ∈ ('\n' :: after).head?, isTextChar c = false := by
      rintro _ ⟨⟩
      decide
    rw [takeWhile_append_stop hchars hstop, dropWhile_append_stop hchars hstop]
    rfl
  | false =>
    obtain ⟨rfl, hhead⟩ : rest = after ∧ after.head? = some '{' := by simpa [Ends] using hends
    rcases rest with _ | ⟨c, rest⟩
    · cases hhead
    obtain rfl : c = '{' := by simpa using hhead
    have hstop : ∀ c ∈ ('{' :: rest).head?, isTextChar c = false := by
      rintro _ ⟨⟩
      decide
    rw [takeWhile_append_stop hchars hstop, dropWhile_append_stop hchars hstop]
    rfl

variable {placeable : Reader Expression}

/-- Text at the start of a line is read with the spaces before it. -/
private theorem atLine_text {column : Nat}
    (hfits : (Segment.text (some column) content newline).Fits true)
    (hempty : column = 0 → content = []) (hends : Ends newline rest after) :
    atLine placeable (List.replicate column ' ' ++ (content ++ rest)) =
      .ok (some (.text (some column) content newline), after) := by
  obtain ⟨-, hchars, hhead, hcontent⟩ := hfits
  -- The first character behind the spaces.
  obtain ⟨c, tail, htail, hspace, hbrace, hcases⟩ :
      ∃ c tail, content ++ rest = c :: tail ∧ c ≠ ' ' ∧
      c ≠ '{' ∧ (content = [] ∧ c = '\n' ∨ content ≠ [] ∧ endsPattern c = false) := by
    rcases content with _ | ⟨c, content⟩
    · cases newline with
      | true =>
        obtain rfl : rest = '\n' :: after := by simpa [Ends] using hends
        exact ⟨'\n', after, rfl, by decide, by decide, Or.inl ⟨rfl, rfl⟩⟩
      | false => exact absurd rfl (hcontent rfl)
    · have hchar := hchars c List.mem_cons_self
      refine ⟨c, content ++ rest, rfl, (hhead rfl c rfl).1, ?_,
        Or.inr ⟨by simp, (hhead rfl c rfl).2⟩⟩
      rintro rfl
      exact absurd hchar (by decide)
  have hstop : ∀ d ∈ (content ++ rest).head?, d ≠ ' ' := by
    rw [htail]
    rintro _ ⟨⟩
    exact hspace
  have hsegment : (textSegment (some column) >>= fun segment => pure (some segment)) (c :: tail) =
      .ok (some (.text (some column) content newline), after) := by
    rw [← htail, bind_ok (textSegment_reads hchars hends)]
    rfl
  rw [atLine_apply, dropWhile_spaces _ hstop, takeWhile_spaces _ hstop, htail]
  simp only [List.length_replicate, if_neg hbrace]
  by_cases hcolumn : column = 0
  · obtain ⟨-, rfl⟩ | ⟨hne, -⟩ := hcases
    · subst hcolumn
      simp only [isBreak_newline, if_true]
      exact hsegment
    · exact absurd (hempty hcolumn) hne
  · have hgoesOn : endsPattern c = false := by
      obtain ⟨-, rfl⟩ | ⟨-, hgoesOn⟩ := hcases
      · decide
      · exact hgoesOn
    simp only [if_neg hcolumn, hgoesOn, Bool.false_eq_true, if_false]
    exact hsegment

/-- Text inside a line is read. -/
private theorem inLine_text (hfits : (Segment.text none content newline).Fits false)
    (hends : Ends newline rest after) :
    inLine placeable (content ++ rest) = .ok (some (.text none content newline), after) := by
  obtain ⟨-, hchars, -, hcontent⟩ := hfits
  obtain ⟨c, tail, htail, hbrace⟩ : ∃ c tail, content ++ rest = c :: tail ∧ c ≠ '{' := by
    rcases content with _ | ⟨c, content⟩
    · cases newline with
      | true =>
        obtain rfl : rest = '\n' :: after := by simpa [Ends] using hends
        exact ⟨'\n', after, rfl, by decide⟩
      | false => exact absurd rfl (hcontent rfl)
    · refine ⟨c, content ++ rest, rfl, ?_⟩
      rintro rfl
      exact absurd (hchars _ List.mem_cons_self) (by decide)
  rw [htail, inLine_cons, if_neg hbrace, ← htail, bind_ok (textSegment_reads hchars hends)]
  rfl

variable {ownLines : Bool}

/-- Text is read with the spaces before it, which it has only at the start of a line. -/
theorem nextSegment_text (hfits : (Segment.text indent content newline).Fits startsLine)
    (hstart : atLineStart ownLines read = startsLine) (hempty : indent = some 0 → content = [])
    (hends : Ends newline rest after) :
    nextSegment placeable ownLines read
        (List.replicate (indent.getD 0) ' ' ++ (content ++ rest)) =
      .ok (some (.text indent content newline), after) := by
  unfold nextSegment
  rw [hstart]
  cases startsLine with
  | true =>
    obtain ⟨column, rfl⟩ := Option.isSome_iff_exists.mp hfits.1
    exact atLine_text hfits (fun hcolumn => hempty (congrArg some hcolumn)) hends
  | false =>
    obtain rfl : indent = none := by simpa using hfits.1
    exact inLine_text hfits hends

/-- Text is read back. -/
private theorem nextSegment_reads (hfits : (Segment.text indent content newline).Fits startsLine)
    (hstart : atLineStart ownLines read = startsLine) (hlevel : startsLine → 0 < level)
    (hends : Ends newline rest after) :
    nextSegment placeable ownLines read
        (lead level startsLine indent content ++ (content ++ rest)) =
      .ok (some (readBack level (.text indent content newline)), after) := by
  have hindent := hfits.1
  cases startsLine with
  | true =>
    obtain ⟨i, rfl⟩ := Option.isSome_iff_exists.mp hindent
    have hpositive := hlevel rfl
    have hempty : some (if i = 0 ∧ content = [] then 0 else columnOf level + i) = some 0 →
        content = [] := by
      rw [columnOf, Option.some.injEq]
      split
      · next hboth => exact fun _ => hboth.2
      · omega
    exact nextSegment_text ⟨rfl, hfits.2⟩ hstart hempty hends
  | false =>
    obtain rfl : indent = none := by simpa using hindent
    exact nextSegment_text hfits hstart (by rintro ⟨⟩) hends

/-- A placeable is read with the spaces before it, which it has only at the start of a line. -/
theorem nextSegment_placeable {e : Expression} {spaces : Nat}
    (hspaces : atLineStart ownLines read = true ↔ spaces ≠ 0)
    (he : placeable rest = .ok (e, after)) :
    nextSegment placeable ownLines read (List.replicate spaces ' ' ++ '{' :: rest) =
      .ok (some (.placeable false e), after) := by
  unfold nextSegment
  cases hstart : atLineStart ownLines read with
  | true =>
    have hcolumn := hspaces.mp hstart
    have hstop : ∀ d ∈ ('{' :: rest).head?, d ≠ ' ' := by
      rintro _ ⟨⟩
      decide
    rw [if_pos rfl, atLine_apply, dropWhile_spaces _ hstop, takeWhile_spaces _ hstop]
    simp only [List.length_replicate, if_true, bind_ok he, hcolumn, decide_false]
    rfl
  | false =>
    obtain rfl : spaces = 0 := by
      by_contra hcolumn
      rw [hspaces.mpr hcolumn] at hstart
      cases hstart
    rw [if_neg (by decide), List.replicate_zero, List.nil_append, inLine_cons, if_pos rfl,
      bind_ok he]
    rfl

/-- A blank line is read as a line without text. -/
private theorem atLine_blankLine (placeable : Reader Expression) {c : Char}
    (hrest : more.dropWhile (· == ' ') = c :: rest) (hbreak : isBreak c)
    (hafter : afterLineEnd? (c :: rest) = some after) :
    ∃ i, atLine placeable more = .ok (some (.text (some i) [] true), after) := by
  have hbrace : c ≠ '{' := by
    rintro rfl
    exact absurd hbreak (by decide)
  have hclosing : c ≠ '}' := by
    rintro rfl
    exact absurd hbreak (by decide)
  have hgoesOn : endsPattern c = false := by
    rcases isBreak_iff.mp hbreak with rfl | rfl <;> decide
  have hstop : isTextChar c = false := by simp [isTextChar, hbreak]
  have hblank (i : Nat) : textSegment (some i) (c :: rest) =
      .ok (.text (some i) [] true, after) := by
    rw [textSegment_apply]
    simp [hstop, hclosing, hafter]
  rw [atLine_apply, hrest]
  simp only [if_neg hbrace, hgoesOn, hbreak, if_true, Bool.false_eq_true, if_false]
  split
  · exact ⟨0, by rw [bind_ok (hblank 0)]; rfl⟩
  · exact ⟨_, by rw [bind_ok (hblank _)]; rfl⟩

/-- A line with something else on it is left as it is, if it does not go on with the pattern. -/
private theorem atLine_stops (placeable : Reader Expression) {c : Char}
    (hrest : more.dropWhile (· == ' ') = c :: rest) (hbreak : ¬isBreak c) (hbrace : c ≠ '{')
    (hclosed : more.head? = some ' ' → endsPattern c = true) :
    atLine placeable more = .ok (none, more) := by
  have hsplit := List.takeWhile_append_dropWhile (p := (· == ' ')) (l := more)
  rw [hrest] at hsplit
  rw [atLine_apply, hrest]
  simp only [if_neg hbrace, hbreak]
  rcases hspaces : more.takeWhile (· == ' ') with _ | ⟨d, spaces⟩
  · rw [hspaces] at hsplit
    simpa using hsplit
  · have hspace : d = ' ' := by
      have hmem : d ∈ more.takeWhile (· == ' ') := by simp [hspaces]
      simpa using List.mem_takeWhile_imp hmem
    rw [hspaces, hspace] at hsplit
    simp [hclosed (by rw [← hsplit]; rfl)]

/-- Where a line begins, behind blank lines, a text does not go on with a pattern. -/
def EndsPattern (text : List Char) : Prop :=
  ∀ c rest, (dropBlankLines text).dropWhile (· == ' ') = c :: rest →
    c ≠ '{' ∧ ((dropBlankLines text).head? = some ' ' → endsPattern c = true)

variable {nested : Nested} {shape : Shape}

/-- The readers one level deeper read back what the shape allows, between any blanks. -/
structure Nested.ReadsBack (nested : Nested) (shape : Shape) : Prop where
  contained : nested.Contained
  tidy : shape.Tidy
  placeable : ∀ e, shape.placeable e → ∀ level before behind rest, Blank before → Blank behind →
    nested.placeable (before ++ e.written level ++ behind ++ '}' :: rest) = .ok (e.dedent, rest)
  arguments : ∀ a, shape.arguments a → ∀ level rest,
    nested.arguments (a.written level ++ rest) = .ok (a.dedent, rest)

/-- Spaces are blank. -/
theorem blank_replicate (n : Nat) : Blank (List.replicate n ' ') := by
  intro c hc
  rw [List.eq_of_mem_replicate hc]
  rfl

/-- The indentation of a level is blank. -/
theorem blank_indentation (level : Nat) : Blank (indentation level) := blank_replicate _

/-- What is written between the braces and an expression is blank. -/
theorem blank_gap (level : Nat) (e : Expression) : Blank (e.gap level) := by
  rw [Expression.gap]
  split
  · exact blank_replicate _
  · exact blank_nil

/-- A placeable of a pattern is read back behind its opening brace. -/
theorem Nested.ReadsBack.braced (h : nested.ReadsBack shape) {e : Expression}
    (he : shape.placeable e) (level : Nat) :
    ∃ body, e.braced level = '{' :: body ∧
      ∀ rest, nested.placeable (body ++ rest) = .ok (e.dedent, rest) := by
  have hwritten := (Shape.writes_braced h.tidy he level).layout
  obtain ⟨before, hopening, hbefore⟩ :
      ∃ before, e.opening.toList = '{' :: before ∧ Blank before := by
    cases e with
    | placeable inner => exact ⟨[], by simp [Expression.opening], blank_nil⟩
    | _ => exact ⟨[' '], by simp [Expression.opening], blank_replicate 1⟩
  obtain ⟨behind, hclosing, hbehind⟩ :
      ∃ behind, e.closing.toList = behind ++ ['}'] ∧ Blank behind := by
    cases e with
    | placeable inner => exact ⟨[], by simp [Expression.closing], blank_nil⟩
    | select selector variants => exact ⟨[], by simp [Expression.closing], blank_nil⟩
    | _ => exact ⟨[' '], by simp [Expression.closing], blank_replicate 1⟩
  refine ⟨before ++ e.written level ++ (e.gap level ++ behind ++ ['}']), ?_, fun rest => ?_⟩
  · rw [Expression.braced, hwritten, hopening, hclosing]
    simp
  · have hreads := h.placeable e he level before (e.gap level ++ behind) rest hbefore
      ((blank_gap level e).append hbehind)
    simpa using hreads

/-- What is so of all members but the last is so of the first one, unless it is the last, and of
those behind it but the last. -/
private theorem forall_mem_dropLast_cons {P : Segment → Prop} {segment : Segment}
    {segments : List Segment} (h : ∀ s ∈ (segment :: segments).dropLast, P s) :
    (segments ≠ [] → P segment) ∧ ∀ s ∈ segments.dropLast, P s := by
  rcases segments with _ | ⟨next, rest⟩
  · exact ⟨fun hne => absurd rfl hne, by rintro _ ⟨⟩⟩
  · obtain ⟨hfirst, hrest⟩ := List.forall_mem_cons.mp h
    exact ⟨fun _ => hfirst, hrest⟩

/-- Behind text without a line end stands a placeable, where the last line is whole. -/
private theorem placeable_follows {segments : List Segment}
    (hlaid : Laid startsLine (.text indent content false :: segments))
    (hclosed : Segment.lineStart startsLine (.text indent content false :: segments) = true) :
    ∃ atMargin e others, segments = .placeable atMargin e :: others := by
  obtain ⟨-, hmeets, -⟩ := hlaid
  rcases segments with _ | ⟨_ | ⟨atMargin, e⟩, others⟩
  · cases hclosed
  · cases hmeets _ rfl rfl rfl
  · exact ⟨atMargin, e, others, rfl⟩

section Pattern

variable (h : nested.ReadsBack shape)
include h

/-- A segment that is read is one more segment of the pattern. -/
theorem segmentStep_reads {segment : Segment}
    (hnext : nextSegment nested.placeable ownLines read text = .ok (some segment, after)) :
    loop (segmentStep nested.placeable ownLines) read text =
      loop (segmentStep nested.placeable ownLines) (segment :: read) after := by
  refine loop_again (advances_segmentStep h.contained.placeable ownLines) ?_
  rw [segmentStep_eq, bind_ok hnext]
  rfl

/-- A placeable is read back from behind the spaces with which it starts a line. -/
private theorem loop_placeable {e : Expression} (he : shape.placeable e) {spaces : Nat}
    (hspaces : atLineStart ownLines read = true ↔ spaces ≠ 0) :
    loop (segmentStep nested.placeable ownLines) read
        (List.replicate spaces ' ' ++ (e.braced level ++ rest)) =
      loop (segmentStep nested.placeable ownLines) (.placeable false e.dedent :: read) rest := by
  obtain ⟨body, hbraced, hbody⟩ := h.braced he level
  rw [hbraced, List.cons_append]
  exact segmentStep_reads h (nextSegment_placeable hspaces (hbody rest))

/-- Text is read back, if it has a line end or stands before the brace of a placeable. -/
private theorem loop_text (hlies : (Segment.text indent content newline).Lies startsLine)
    (hshown : (Segment.text indent content newline).isHidden = false)
    (hstart : atLineStart ownLines read = startsLine) (hlevel : startsLine → 0 < level)
    (hbrace : newline = false → rest.head? = some '{') :
    loop (segmentStep nested.placeable ownLines) read
        ((Segment.text indent content newline).written level startsLine ++ rest) =
      loop (segmentStep nested.placeable ownLines)
        (readBack level (.text indent content newline) :: read) rest := by
  have hends : Ends newline ((if newline then ['\n'] else []) ++ rest) rest := by
    cases newline with
    | true => rfl
    | false => exact ⟨rfl, hbrace rfl⟩
  rw [hlies.written_eq, List.append_assoc, List.append_assoc]
  exact segmentStep_reads h (nextSegment_reads (hlies.fits hshown) hstart hlevel hends)

/-- The segments of whole lines are read back, but for the spaces before placeables. -/
private theorem loop_reads {segments : List Segment} (hlaid : Laid startsLine segments)
    (hclosed : Segment.lineStart startsLine segments = true)
    (hholds : ∀ s ∈ segments, s.Holds shape.placeable)
    (hstart : atLineStart ownLines read = startsLine)
    (hfirst : segments ≠ [] → startsLine → 0 < level)
    (hothers : ∀ s ∈ segments.dropLast, s.endsLine → 0 < level) :
    loop (segmentStep nested.placeable ownLines) read
        (writtenAll level startsLine segments ++ more) =
      loop (segmentStep nested.placeable ownLines)
        (((segments.filter fun s => !s.isHidden).map (readBack level)).reverse ++ read) more := by
  induction hn : segments.length using Nat.strong_induction_on
    generalizing segments startsLine read with
  | _ n ih =>
    rcases segments with _ | ⟨segment, rest⟩
    · rfl
    obtain ⟨hlies, hmeets, hrest⟩ := hlaid
    obtain ⟨hholds₁, hholdsRest⟩ := List.forall_mem_cons.mp hholds
    obtain ⟨hnext, hothersRest⟩ := forall_mem_dropLast_cons hothers
    have hlevel : startsLine → 0 < level := hfirst (List.cons_ne_nil _ _)
    have hlt : rest.length < n := hn ▸ Nat.lt_succ_self _
    -- Once the segment is read back, the others are.
    have hgoesOn (hshown : segment.isHidden = false)
        (hread : atLineStart ownLines (segment.readBack level :: read) = segment.endsLine) :
        loop (segmentStep nested.placeable ownLines) (segment.readBack level :: read)
            (writtenAll level segment.endsLine rest ++ more) =
          loop (segmentStep nested.placeable ownLines)
            ((((segment :: rest).filter fun s => !s.isHidden).map (readBack level)).reverse ++ read)
            more := by
      rw [ih _ hlt hrest hclosed hholdsRest hread hnext hothersRest rfl,
        List.filter_cons_of_pos (by rw [hshown]; rfl)]
      simp
    cases segment with
    | placeable atMargin e =>
      have hspaces : atLineStart ownLines read = true ↔
          (if startsLine then columnOf level else 0) ≠ 0 := by
        rw [hstart, columnOf]
        cases startsLine with
        | true =>
          have hpositive := hlevel rfl
          exact iff_of_true rfl (by rw [if_pos rfl]; omega)
        | false => simp
      rw [writtenAll_placeable, List.append_assoc, List.append_assoc,
        loop_placeable h hholds₁ hspaces]
      exact hgoesOn rfl rfl
    | text indent content newline =>
      have hplaceable (hopen : newline = false) :
          ∃ atMargin e others, rest = .placeable atMargin e :: others := by
        subst hopen
        exact placeable_follows ⟨hlies, hmeets, hrest⟩ hclosed
      cases hhidden : (Segment.text indent content newline).isHidden with
      | true =>
        -- The spaces are those of the placeable, with which it is read.
        obtain ⟨rfl, rfl⟩ : content = [] ∧ newline = false := by
          simpa [Segment.isHidden] using hhidden
        obtain ⟨atMargin, e, others, rfl⟩ := hplaceable rfl
        obtain ⟨rfl, hindent⟩ := hlies.of_hidden
        obtain ⟨he, hholdsOthers⟩ := List.forall_mem_cons.mp hholdsRest
        have hspaces : atLineStart ownLines read = true ↔ columnOf level + indent.getD 0 ≠ 0 := by
          simp [hstart, hindent]
        have hread : loop (segmentStep nested.placeable ownLines)
            (.placeable false e.dedent :: read)
            (writtenAll level false others ++ more) = _ :=
          ih _ (Nat.lt_of_succ_lt hlt) hrest.2.2 hclosed hholdsOthers rfl (by rintro - ⟨⟩)
            (forall_mem_dropLast_cons hothersRest).2 rfl
        rw [hlies.writtenAll_hidden, List.append_assoc, List.append_assoc,
          loop_placeable h he hspaces, hread, List.filter_cons_of_neg (by simp [hhidden]),
          List.filter_cons_of_pos (by rfl)]
        simp [readBack]
      | false =>
        have hbrace (hopen : newline = false) :
            (writtenAll level newline rest ++ more).head? = some '{' := by
          obtain ⟨atMargin, e, others, rfl⟩ := hplaceable hopen
          obtain ⟨body, hbraced⟩ := e.braced_begins level
          simp [hopen, writtenAll, Segment.written, hbraced]
        have htext : writtenAll level startsLine (.text indent content newline :: rest) ++ more =
            (Segment.text indent content newline).written level startsLine ++
              (writtenAll level newline rest ++ more) := List.append_assoc ..
        rw [htext, loop_text h hlies hhidden hstart hlevel hbrace]
        exact hgoesOn hhidden rfl

/-- The loop ends where the line at hand does not go on with the pattern. -/
private theorem loop_stops (hstart : atLineStart ownLines read = true)
    (hnone : atLine nested.placeable more = .ok (none, rest)) :
    loop (segmentStep nested.placeable ownLines) read more = .ok (read.reverse, rest) := by
  refine loop_done (advances_segmentStep h.contained.placeable ownLines) ?_
  rw [segmentStep_eq, nextSegment, if_pos hstart, bind_ok hnone]
  rfl

/-- At the start of a line, blank lines are read up to what ends the pattern. -/
private theorem blankLines_read (hends : EndsPattern more)
    (hstart : atLineStart ownLines read = true) :
    ∃ blank : List Segment, (∀ s ∈ blank, s.isBlank) ∧
      loop (segmentStep nested.placeable ownLines) read more =
        .ok (read.reverse ++ blank, dropBlankLines more) := by
  induction hn : more.length using Nat.strong_induction_on generalizing more read with
  | _ n ih =>
    rcases hrest : more.dropWhile (· == ' ') with _ | ⟨c, rest⟩
    · -- Nothing but spaces is left.
      have hnone : atLine nested.placeable more = .ok (none, []) := by
        rw [atLine_apply, hrest]
      have hdrop : dropBlankLines more = [] := by
        rw [dropBlankLines_apply, hrest]
        rfl
      exact ⟨[], by simp, by rw [hdrop, List.append_nil, loop_stops h hstart hnone]⟩
    by_cases hbreak : isBreak c
    · obtain ⟨after, hafter⟩ := afterLineEnd?_isSome_of_isBreak hbreak rest
      have hdrop : dropBlankLines more = dropBlankLines after := by
        rw [dropBlankLines_apply, hrest, hafter]
      have hlt : after.length < n :=
        calc after.length
            < (c :: rest).length := afterLineEnd?_length_lt hafter
          _ ≤ more.length := hrest ▸ (List.dropWhile_suffix _).length_le
          _ = n := hn
      have hends' : EndsPattern after := by
        rw [EndsPattern, hdrop] at hends
        exact hends
      obtain ⟨i, hline⟩ := atLine_blankLine nested.placeable hrest hbreak hafter
      have hnext : nextSegment nested.placeable ownLines read more =
          .ok (some (.text (some i) [] true), after) := by
        rw [nextSegment, if_pos hstart, hline]
      obtain ⟨blank, hblank, hloop⟩ :=
        ih _ hlt hends'
          (show atLineStart ownLines (.text (some i) [] true :: read) = true from rfl) rfl
      refine ⟨.text (some i) [] true :: blank, List.forall_mem_cons.mpr ⟨rfl, hblank⟩, ?_⟩
      rw [segmentStep_reads h hnext, hloop, hdrop]
      simp
    · have hdrop : dropBlankLines more = more :=
        dropBlankLines_eq_self hrest (by simpa using hbreak)
      have hlast := hends c rest
      rw [hdrop] at hlast
      obtain ⟨hbrace, hclosed⟩ := hlast hrest
      have hnone := atLine_stops nested.placeable hrest hbreak hbrace hclosed
      exact ⟨[], by simp, by rw [hdrop, List.append_nil, loop_stops h hstart hnone]⟩

omit h in
private theorem exists_spaces (more : List Char) (hblank : ∀ c ∈ text, c = ' ' ∨ c = '\n') :
    ∃ n below, text ++ '\n' :: more = List.replicate n ' ' ++ '\n' :: below ∧
      dropBlankLines below = dropBlankLines more := by
  induction text with
  | nil => exact ⟨0, more, rfl, rfl⟩
  | cons c text ih =>
    obtain ⟨hc, htext⟩ := List.forall_mem_cons.mp hblank
    obtain ⟨n, below, hsplit, hdrop⟩ := ih htext
    rcases hc with rfl | rfl
    · exact ⟨n + 1, below, by rw [List.cons_append, hsplit]; rfl, hdrop⟩
    · exact ⟨0, text ++ '\n' :: more, rfl, by rw [hsplit, dropBlankLines_spaces, hdrop]⟩

/-- Blank lines are read as no pattern. -/
theorem pattern_reads_blank (hblank : ∀ c ∈ text, c = ' ' ∨ c = '\n') (hends : EndsPattern more) :
    pattern nested.placeable (text ++ '\n' :: more) = .ok (none, dropBlankLines more) := by
  obtain ⟨n, below, hsplit, hdrop⟩ := exists_spaces more hblank
  have hline : acceptLineEnd ('\n' :: below) = .ok (true, below) := rfl
  have hends' : EndsPattern (dropBlankLines more) := by
    rwa [EndsPattern, dropBlankLines_idem]
  have hstart : atLineStart true [] = true := rfl
  obtain ⟨blank, hblank, hloop⟩ := blankLines_read h hends' hstart
  rw [dropBlankLines_idem, List.reverse_nil, List.nil_append] at hloop
  unfold pattern
  rw [hsplit, bind_ok (skipSpaces_apply _), dropWhile_spaces n (by rintro _ ⟨⟩; decide),
    bind_ok hline]
  simp only [if_true]
  rw [bind_ok (skipBlankLines_apply _), hdrop, bind_ok hloop, Pattern.ofSegments?_eq_none hblank]
  rfl

/-- The segments of a pattern are read back from where it begins, with the line end behind it and
the blank lines below it. -/
private theorem segments_read {p : Pattern} (hp : shape.Lines p) (outer : Nat)
    (hlaid : Laid p.ownLines (opened p.ownLines p.writtenSegments)) (hends : EndsPattern more) :
    (loop (segmentStep nested.placeable p.ownLines) [] >>= fun segments =>
      pure (Pattern.ofSegments? segments))
        (writtenAll (p.level outer) p.ownLines (opened p.ownLines p.writtenSegments) ++
          '\n' :: more) = .ok (p.dedent?, dropBlankLines more) := by
  have hlevel (hmultiline : p.isMultiline) : 0 < p.level outer := by
    rw [Pattern.level, if_pos hmultiline]
    exact Nat.succ_pos _
  have hown (hown : p.ownLines) : p.isMultiline := (Bool.and_eq_true _ _ ▸ hown : _ ∧ _).1
  have hholds : ∀ s ∈ closeLine p.ownLines (opened p.ownLines p.writtenSegments),
      s.Holds shape.placeable := by
    intro s hs
    cases s with
    | text indent content newline => trivial
    | placeable atMargin e =>
      have hs := (Segment.mem_closeLine hs).resolve_right (by rintro ⟨⟩)
      obtain ⟨t, ht, -, rfl | htext⟩ := Segment.mem_opened hs
      · exact hp.holds _ ht
      · cases htext
  have hlines : ∀ s ∈ (closeLine p.ownLines (opened p.ownLines p.writtenSegments)).dropLast,
      s.endsLine → 0 < p.level outer := by
    intro s hs hends
    obtain ⟨t, ht, hsame, -⟩ := Segment.mem_opened (Segment.mem_of_mem_dropLast_closeLine hs)
    exact hlevel (Pattern.isMultiline_of_endsLine ht (hsame ▸ hends))
  -- The loop reads on to the line end, which belongs to the last segment of what it has read; the
  -- blank lines below make blank segments, which are cut off again.
  have hread : loop (segmentStep nested.placeable p.ownLines) []
      (writtenAll (p.level outer) p.ownLines
        (closeLine p.ownLines (opened p.ownLines p.writtenSegments)) ++ more) = _ :=
    loop_reads h hlaid.closeLine (Segment.lineStart_closeLine _ _) hholds rfl
      (fun _ hs => hlevel (hown hs)) hlines
  have hline : atLineStart p.ownLines
      ((((closeLine p.ownLines (opened p.ownLines p.writtenSegments)).filter
        fun s => !s.isHidden).map (readBack (p.level outer))).reverse ++ []) = true := by
    obtain ⟨init, indent, content, hclosed⟩ := Segment.readBack_closeLine (p.level outer) p.ownLines
      (opened p.ownLines p.writtenSegments)
    rw [hclosed]
    simp [atLineStart]
  obtain ⟨blank, hblank, hbelow⟩ := blankLines_read h hends hline
  rw [hlaid.writtenAll_closeLine, List.append_assoc, List.singleton_append, hbelow] at hread
  rw [bind_ok hread, List.append_nil, List.reverse_reverse, Pattern.ofSegments?_append_blank hblank,
    hlaid.ofSegments?_closeLine, ← Pattern.ofSegments?_readBack (p.level outer) p]
  rfl

/-- A pattern is read back with the line end behind it and with the blank lines below it, but
without the spaces that its lines have in common. -/
theorem pattern_reads {p : Pattern} (hp : shape.Lines p) (outer : Nat) (hends : EndsPattern more) :
    pattern nested.placeable (p.written outer ++ '\n' :: more) =
      .ok (p.dedent?, dropBlankLines more) := by
  have hwritten : p.written outer = (if p.ownLines then '\n' else ' ') ::
      writtenAll (p.level outer) p.ownLines p.writtenSegments := (hp.legible.writes outer).layout
  by_cases hblank : ∀ s ∈ p.writtenSegments, s.isBlank
  · have hnone : p.dedent? = none := by
      rw [← Option.not_isSome_iff_eq_none, Pattern.isSome_dedent?, Pattern.isSome_unindent?]
      simpa using hblank
    have htext : ∀ c ∈ p.written outer, c = ' ' ∨ c = '\n' := by
      rw [hwritten, List.forall_mem_cons]
      refine ⟨?_, Segment.Laid.blank_writtenAll hp.legible hblank _⟩
      cases p.ownLines
      · exact .inl rfl
      · exact .inr rfl
    rw [hnone, pattern_reads_blank h htext hends]
  have hsolid : ∃ s ∈ p.writtenSegments, s.isBlank = false := by simpa using hblank
  have hfirst (hown : p.ownLines = false) := Pattern.isBlank_head?_of_not_ownLines hown
  obtain ⟨hlaid, hopen⟩ := Segment.Laid.opened hp.legible hfirst
  have hread := segments_read h hp outer hlaid hends
  rw [hwritten, List.cons_append]
  unfold pattern
  -- The pattern begins below the line at hand, or behind spaces.
  cases hown : p.ownLines with
  | true =>
    have hlegible : Laid true p.writtenSegments := hown ▸ hp.legible
    have hspaces (line : List Char) : skipSpaces ('\n' :: line) = .ok (0, '\n' :: line) := rfl
    have hline (line : List Char) : acceptLineEnd ('\n' :: line) = .ok (true, line) := rfl
    rw [hown] at hread
    rw [if_pos rfl, bind_ok (hspaces _), bind_ok (hline _)]
    simp only [if_true]
    rw [bind_ok (skipBlankLines_apply _), hlegible.dropBlankLines hsolid]
    exact hread
  | false =>
    have hlegible : Laid false p.writtenSegments := hown ▸ hp.legible
    rw [hown] at hread hlaid hopen
    obtain ⟨n, c, rest, hbegins, hspace, hbreak, hinside⟩ :=
      hlaid.begins hopen (Segment.exists_solid_opened hsolid false) (p.level outer)
    obtain rfl := hinside rfl
    have hdrop : (' ' :: (writtenAll (p.level outer) false p.writtenSegments ++
        '\n' :: more)).dropWhile (· == ' ') = _ :=
      hlegible.dropWhile_space (hfirst hown) hsolid (p.level outer) more
    have hline (line : List Char) : acceptLineEnd (c :: line) = .ok (false, c :: line) := by
      rw [acceptLineEnd, afterLineEnd?_cons_of_not_isBreak (by simp [hbreak])]
    rw [if_neg (by decide), bind_ok (skipSpaces_apply _), hdrop]
    rw [hbegins] at hread ⊢
    rw [List.replicate_zero, List.nil_append, List.cons_append] at hread ⊢
    rw [bind_ok (hline _)]
    exact hread

/-- A pattern that is not blank is read back. -/
theorem value_reads {p : Pattern} (hp : shape.Value p) (outer : Nat) (hends : EndsPattern more) :
    pattern nested.placeable (p.written outer ++ '\n' :: more) =
      .ok (some p.dedent, dropBlankLines more) := by
  rw [pattern_reads h hp.toLines outer hends, hp.dedent?_eq]

end Pattern

end Reader

end Phrasebook
