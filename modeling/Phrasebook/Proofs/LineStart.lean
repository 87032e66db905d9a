import Phrasebook.Proofs.Coverage

/-!
# Blocks begin lines

What follows a block of a source is the end of the source, or begins a line of it. Patterns end only
where a line begins, since inside a line they go on; attributes go back to the start of their line;
comments take their line end; and junk reaches to the start of a line.
-/

namespace Phrasebook

open Text

/-- The end of a source, or the start of one of its lines. -/
def AtLine (source rest : List Char) : Prop :=
  rest = [] ∨ ∃ front, source = front ++ rest ∧ LeadsToLine front

/-- A source begins with a line. -/
theorem atLine_self (source : List Char) : AtLine source source :=
  Or.inr ⟨[], rfl, leadsToLine_nil⟩

/-- What follows the text of one or more lines begins a line. -/
theorem AtLine.of_append {source front rest : List Char} (h : front ++ rest <:+ source)
    (hfront : LeadsToLine front) (hne : front ≠ []) : AtLine source rest := by
  obtain ⟨before, rfl⟩ := h
  exact Or.inr ⟨before ++ front, by simp, leadsToLine_append_right before hfront hne⟩

/-- Behind blank lines a line begins. -/
theorem AtLine.dropBlankLines {source rest : List Char} (h : AtLine source rest) :
    AtLine source (dropBlankLines rest) := by
  obtain ⟨blank, hrest, -, hend | ⟨hline, -⟩⟩ := dropBlankLines_spec rest
  · exact Or.inl hend
  rcases h with rfl | ⟨front, rfl, hfront⟩
  · exact Or.inl rfl
  · exact Or.inr ⟨front ++ blank, by rw [List.append_assoc, ← hrest], hfront.append hline⟩

namespace Reader

variable {source text : List Char}

/-! ## Patterns -/

/-- A line begins behind a segment that ends its line. -/
def LineBegins (source : List Char) (startsLine : Bool) (read : List Segment)
    (rest : List Char) : Prop :=
  rest <:+ source ∧ (atLineStart startsLine read = true → AtLine source rest)

/-- A line begins where the pattern ends, and behind a segment that ends its line. -/
def NextBegins (source : List Char) (startsLine : Bool) (read : List Segment)
    (next : Option Segment) (rest : List Char) : Prop :=
  Outcome (LineBegins source startsLine) (fun _ => AtLine source) (segmentOutcome read next) rest

private theorem ensures_textSegment (indent : Option Nat) (startsLine : Bool)
    (read : List Segment) (h : text <:+ source) :
    Ensures (textSegment indent >>= fun segment => pure (some segment)) text
      (NextBegins source startsLine read) fun _ => True := by
  have hd : text.dropWhile isTextChar <:+ source := (List.dropWhile_suffix _).trans h
  rw [Ensures, bind_apply, textSegment_apply]
  split_ifs
  · trivial
  cases he : afterLineEnd? (text.dropWhile isTextChar) with
  | none => exact ⟨hd, by rintro ⟨⟩⟩
  | some rest =>
    obtain ⟨e, hlineEnd, hrest⟩ := afterLineEnd?_eq_some he
    rw [hrest] at hd
    exact ⟨(List.suffix_append e rest).trans hd,
      fun _ => .of_append hd hlineEnd.leadsToLine hlineEnd.ne_nil⟩

variable {placeable : Reader Expression}

private theorem ensures_placeable (h : Contained placeable) (atMargin startsLine : Bool)
    (read : List Segment) (htext : text <:+ source) :
    Ensures (placeable >>= fun e => pure (some (.placeable atMargin e))) text
      (NextBegins source startsLine read) fun _ => True := by
  exact (h.ensures htext).bind fun e rest hrest => ⟨hrest, by rintro ⟨⟩⟩

private theorem ensures_inLine (h : Contained placeable) (startsLine : Bool)
    (read : List Segment) (htext : text <:+ source) :
    Ensures (inLine placeable) text (NextBegins source startsLine read) fun _ => True := by
  rcases text with _ | ⟨c, rest⟩
  · exact Or.inl rfl
  rw [Ensures, inLine_cons]
  split_ifs
  · exact ensures_placeable h false startsLine read ((List.suffix_cons c rest).trans htext)
  · exact ensures_textSegment none startsLine read htext

private theorem ensures_atLine (h : Contained placeable) (startsLine : Bool)
    (read : List Segment) (htext : text <:+ source) (hline : AtLine source text) :
    Ensures (atLine placeable) text (NextBegins source startsLine read) fun _ => True := by
  have hd : text.dropWhile (· == ' ') <:+ source := (List.dropWhile_suffix _).trans htext
  rw [Ensures, atLine_apply]
  rcases hdrop : text.dropWhile (· == ' ') with _ | ⟨c, rest⟩
  · exact Or.inl rfl
  rw [hdrop] at hd
  dsimp only
  split_ifs with h₁ h₂ h₃ h₄
  · exact ensures_placeable h _ startsLine read ((List.suffix_cons c rest).trans hd)
  · exact ensures_textSegment _ startsLine read hd
  · have hwhole := List.takeWhile_append_dropWhile (p := (· == ' ')) (l := text)
    rw [List.length_eq_zero_iff.mp h₂, hdrop, List.nil_append] at hwhole
    exact hwhole ▸ hline
  · exact hline
  · exact ensures_textSegment _ startsLine read hd

/-- A pattern goes on where its next segment ends. -/
theorem ensures_nextSegment (h : Contained placeable) {startsLine : Bool} {read : List Segment}
    (hline : LineBegins source startsLine read text) :
    Ensures (nextSegment placeable startsLine read) text (NextBegins source startsLine read)
      fun _ => True := by
  unfold nextSegment
  split_ifs with hstart
  · exact ensures_atLine h startsLine read hline.1 (hline.2 hstart)
  · exact ensures_inLine h startsLine read hline.1

/-- The lines of a pattern begin behind its mark, or on the first line below that is not blank. -/
theorem lineBegins_sameLine (htext : text <:+ source) :
    LineBegins source false [] (text.dropWhile (· == ' ')) :=
  ⟨(List.dropWhile_suffix _).trans htext, by rintro ⟨⟩⟩

/-- Behind spaces and a line end, the next line with something on it begins. -/
theorem lineBegins_nextLine {rest : List Char} (htext : text <:+ source)
    (h : afterLineEnd? (text.dropWhile (· == ' ')) = some rest) :
    LineBegins source true [] (Text.dropBlankLines rest) := by
  have hd : text.dropWhile (· == ' ') <:+ source := (List.dropWhile_suffix _).trans htext
  obtain ⟨e, hlineEnd, hrest⟩ := afterLineEnd?_eq_some h
  rw [hrest] at hd
  have hline : AtLine source rest := .of_append hd hlineEnd.leadsToLine hlineEnd.ne_nil
  have hsuffix := (dropBlankLines_suffix rest).trans ((List.suffix_append e rest).trans hd)
  exact ⟨hsuffix, fun _ => hline.dropBlankLines⟩

private theorem ensures_pattern (h : Contained placeable) (htext : text <:+ source) :
    Ensures (pattern placeable) text (fun _ => AtLine source) fun _ => True := by
  have hloop {startsLine : Bool} {rest : List Char} (hrest : LineBegins source startsLine [] rest) :
      Ensures (loop (segmentStep placeable startsLine) [] >>= fun segments =>
        pure (Pattern.ofSegments? segments)) rest (fun _ => AtLine source) fun _ => True := by
    refine Ensures.bind (m := fun _ => AtLine source) ?_ fun _ _ hr => hr
    refine Ensures.loop (I := LineBegins source startsLine) ?_ (fun _ _ _ => trivial) hrest
    intro read rest hline
    rw [segmentStep_eq]
    exact Ensures.bind (ensures_nextSegment h hline) fun _ _ hr => hr
  rw [Ensures, pattern, bind_ok (skipSpaces_apply _), bind_apply, acceptLineEnd]
  cases he : afterLineEnd? (text.dropWhile (· == ' ')) with
  | none => exact hloop (lineBegins_sameLine htext)
  | some rest => exact hloop (lineBegins_nextLine htext he)

/-! ## Entries -/

private theorem ensures_definition (htext : text <:+ source) :
    Ensures definition text (fun _ rest => rest <:+ source ∧ AtLine source rest)
      fun _ => True := by
  refine (contained_definition.ensures htext).and ?_
  refine (contained_identifier.ensures htext).bind fun _ rest hrest => ?_
  refine (contained_skipSpaces.ensures hrest).bind fun _ rest hrest => ?_
  refine ((contained_expect '=').ensures hrest).bind fun _ rest hrest => ?_
  exact (ensures_pattern (contained_levels maxNesting).placeable hrest).bind fun _ _ hr => hr

private theorem ensures_attributes (htext : text <:+ source) (hline : AtLine source text) :
    Ensures attributes text (fun _ => AtLine source) fun _ => True := by
  refine Ensures.loop (I := fun _ rest => rest <:+ source ∧ AtLine source rest) ?_
    (fun _ _ _ => trivial) ⟨htext, hline⟩
  intro read rest ⟨hsuffix, hline⟩
  by_cases hpoint : ∃ w, rest.dropWhile (· == ' ') = '.' :: w
  · obtain ⟨w, hw⟩ := hpoint
    have hd : rest.dropWhile (· == ' ') <:+ source := (List.dropWhile_suffix _).trans hsuffix
    rw [hw] at hd
    rw [Ensures, attributeStep_point read hw]
    refine Ensures.bind (m := fun _ rest => rest <:+ source ∧ AtLine source rest) ?_
      fun _ _ hr => hr
    refine (ensures_definition ((List.suffix_cons '.' w).trans hd)).bind fun result rest hrest => ?_
    split
    · exact hrest
    · trivial
  · rw [Ensures, attributeStep_of_ne read fun w hw => hpoint ⟨w, hw⟩]
    exact hline

private theorem ensures_messageBody (htext : text <:+ source) :
    Ensures messageBody text (fun _ => AtLine source) fun _ => True := by
  refine (ensures_definition htext).bind fun _ rest ⟨hsuffix, hline⟩ => ?_
  refine (ensures_attributes hsuffix hline).bind fun _ rest hrest => ?_
  dsimp only
  split
  · trivial
  · exact hrest

private theorem ensures_termBody (htext : text <:+ source) :
    Ensures termBody text (fun _ => AtLine source) fun _ => True := by
  refine ((contained_expect '-').ensures htext).bind fun _ rest hsuffix => ?_
  refine (ensures_definition hsuffix).bind fun result rest ⟨hsuffix, hline⟩ => ?_
  split
  · trivial
  · exact (ensures_attributes hsuffix hline).bind fun _ _ hr => hr

/-- An entry ends where a line begins, or with the source. -/
theorem entry_atLine {offset : Nat} {e : Entry} {rest : List Char} (htext : text <:+ source)
    (h : entry offset text = .ok (e, rest)) : AtLine source rest := by
  rw [entry_apply] at h
  split_ifs at h
  · obtain ⟨c, mid, hrun, h⟩ := bind_eq_ok h
    cases h
    obtain ⟨own, -, ⟨-, rfl⟩ | ⟨e, he, rfl⟩⟩ := comment_ok hrun
    · exact Or.inl rfl
    · rw [← List.append_assoc] at htext
      exact .of_append htext (leadsToLine_append_right own he.leadsToLine he.ne_nil)
        (by simp [he.ne_nil])
  · obtain ⟨t, mid, hrun, h⟩ := bind_eq_ok h
    cases h
    rw [term_eq] at hrun
    obtain ⟨⟨parts, own⟩, mid, hparts, hrun⟩ := bind_eq_ok hrun
    cases hrun
    exact (ensures_termBody htext).ok (withText_ok contained_termBody hparts).1
  · obtain ⟨m, mid, hrun, h⟩ := bind_eq_ok h
    cases h
    rw [message_eq] at hrun
    obtain ⟨⟨parts, own⟩, mid, hparts, hrun⟩ := bind_eq_ok hrun
    cases hrun
    exact (ensures_messageBody htext).ok (withText_ok contained_messageBody hparts).1

end Reader

namespace Block

/-- Skipping to the next entry ends at the end of the text or at the beginning of a line. -/
theorem nextEntry_eq (text : List Char) : nextEntry text = [] ∨
    ∃ front, text = front ++ nextEntry text ∧ LeadsToLine front ∧ front ≠ [] := by
  -- Skipping stops behind a line break; the characters before it are added to the front.
  fun_induction nextEntry text with
  | case1 => exact Or.inl rfl
  | case2 c rest h =>
    have hc : isBreak c = true := by
      simp only [Bool.and_eq_true] at h
      exact h.1
    exact Or.inr ⟨[c], rfl, by simpa [LeadsToLine] using hc, by simp⟩
  | case3 c rest h ih =>
    refine ih.imp_right ?_
    rintro ⟨front, hrest, hline, hne⟩
    exact ⟨c :: front, congrArg (c :: ·) hrest, leadsToLine_append_right [c] hline hne, by simp⟩

/-- What follows a block begins a line, or is the end of the source. -/
theorem read_atLine {source text : List Char} (offset : Nat) (htext : text <:+ source) :
    AtLine source (read offset text).2 := by
  cases hr : Reader.entry offset text with
  | ok result =>
    obtain ⟨entry, after⟩ := result
    simp only [read, hr]
    exact (Reader.entry_atLine htext hr).dropBlankLines
  | error failure =>
    simp only [read, hr]
    refine AtLine.dropBlankLines ?_
    have hrest := (Reader.contained_entry offset).suffix_of_error hr
    have hresume := (resumption_before_suffix hrest).trans htext
    rcases nextEntry_eq (resumption (before text failure.rest) failure.rest) with hnil | h
    · exact Or.inl hnil
    · obtain ⟨front, hfront, hline, hne⟩ := h
      rw [hfront] at hresume
      exact .of_append hresume hline hne

end Block

end Phrasebook
