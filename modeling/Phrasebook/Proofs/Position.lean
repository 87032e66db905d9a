import Mathlib.Data.Prod.Lex
import Phrasebook.Bundle
import Phrasebook.Proofs.Diagnostic

/-!
# Positions and line ends

A position counts the lines of a text by its line feeds. These are the line ends that reading
recognizes, but for carriage returns that stand alone: reading ends a line there, and positions do
not. Otherwise a position has one line more than there are line ends wholly before it, and one
column more than there are characters behind the last of these. Positions grow with the offset.
Warnings about junk name the line on which reading failed: recovery goes back to its start at most.
-/

namespace Phrasebook.Text

variable {tail front back text e rest : List Char} {offset offset' : Nat}

/-- A line end of a text: its characters, and the byte offset behind it. -/
structure LineEndAt where
  chars : List Char
  stop : Nat
  deriving DecidableEq

/-- The line ends of a text that begins at `offset`, as reading meets them. -/
def lineEndsFrom : (offset : Nat) → (text : List Char) → List LineEndAt
  | _, [] => []
  | offset, c :: rest =>
    match _ : afterLineEnd? (c :: rest) with
    | some below =>
      ⟨before (c :: rest) below, offset + byteLength (before (c :: rest) below)⟩ ::
        lineEndsFrom (offset + byteLength (before (c :: rest) below)) below
    | none => lineEndsFrom (offset + c.utf8Size) rest
termination_by _ text => text.length
decreasing_by
  · exact afterLineEnd?_length_lt ‹_›
  · exact Nat.lt_succ_self _

/-- The byte offsets at which the characters of a text begin. -/
def charOffsets : (offset : Nat) → (text : List Char) → List Nat
  | _, [] => []
  | offset, c :: rest => offset :: charOffsets (offset + c.utf8Size) rest

/-- The line and column of an offset, given the offsets behind the line ends of a text: one more
line than there are line ends wholly before the offset, and one more column than there are
characters between the last of these and the offset. -/
def positionBehind (stops : List Nat) (text : List Char) (offset : Nat) : Nat × Nat :=
  let above := stops.filter (· ≤ offset)
  (1 + above.length, 1 + (charOffsets 0 text).countP fun o => above.getLastD 0 ≤ o && o < offset)

/-- The offset is that of a character of a text, or its end. -/
def IsBoundary (text : List Char) (offset : Nat) : Prop :=
  ∃ front back, text = front ++ back ∧ byteLength front = offset

/-! ## Line ends and line feeds -/

/-- The offsets behind the line feeds of a text. -/
def newlineStops : (offset : Nat) → (text : List Char) → List Nat
  | _, [] => []
  | offset, c :: rest =>
    if c = '\n' then (offset + 1) :: newlineStops (offset + 1) rest
    else newlineStops (offset + c.utf8Size) rest

/-- No line end is noted at a character with which none begins. -/
theorem lineEndsFrom_of_none {c : Char} (h : afterLineEnd? (c :: rest) = none) :
    lineEndsFrom offset (c :: rest) = lineEndsFrom (offset + c.utf8Size) rest := by
  rw [lineEndsFrom]
  split
  · next hsome => simp [h] at hsome
  · rfl

/-- The first line end of a text is noted where it stops. -/
theorem lineEndsFrom_of_some (h : afterLineEnd? (e ++ rest) = some rest) :
    lineEndsFrom offset (e ++ rest) =
      ⟨e, offset + byteLength e⟩ :: lineEndsFrom (offset + byteLength e) rest := by
  have hbefore : before (e ++ rest) rest = e := before_append e rest
  rcases hcons : e ++ rest with _ | ⟨c, below⟩
  · simp [hcons] at h
  rw [hcons] at h hbefore
  rw [lineEndsFrom]
  split
  · next hsome =>
    obtain rfl := Option.some.inj (h.symm.trans hsome)
    rw [hbefore]
  · next hnone => simp [h] at hnone

/-- Only a line feed ends a line that is counted. -/
theorem newlineStops_of_ne {c : Char} (h : c ≠ '\n') :
    newlineStops offset (c :: rest) = newlineStops (offset + c.utf8Size) rest := by
  rw [newlineStops, if_neg h]

/-- A line end is counted unless it is a carriage return alone. -/
theorem LineEnd.newlineStops_append (he : LineEnd e) (offset : Nat) (rest : List Char) :
    newlineStops offset (e ++ rest) =
      (if e = ['\r'] then [] else [offset + byteLength e]) ++
        newlineStops (offset + byteLength e) rest := by
  cases he with
  | newline => rfl
  | «return» => rfl
  | both => rfl

/-- A line feed ends each line end but a carriage return that stands alone. -/
theorem map_stop_lineEndsFrom (offset : Nat) (text : List Char) :
    ((lineEndsFrom offset text).filter (·.chars ≠ ['\r'])).map (·.stop) =
      newlineStops offset text := by
  induction hn : text.length using Nat.strong_induction_on generalizing offset text with
  | _ n ih =>
    rcases text with _ | ⟨c, rest⟩
    · rw [lineEndsFrom, newlineStops]
      rfl
    cases h : afterLineEnd? (c :: rest) with
    | none =>
      have hc : c ≠ '\n' := by
        rintro rfl
        simp at h
      rw [lineEndsFrom_of_none h, newlineStops_of_ne hc]
      exact ih _ (hn ▸ Nat.lt_succ_self _) _ rest rfl
    | some below =>
      have hlt := afterLineEnd?_length_lt h
      obtain ⟨e, he, htext⟩ := afterLineEnd?_eq_some h
      rw [htext] at h ⊢
      rw [lineEndsFrom_of_some h, he.newlineStops_append, ← ih _ (hn ▸ hlt) _ below rfl]
      by_cases hreturn : e = ['\r'] <;> simp [hreturn]

/-- The line feeds of two texts stand one after the other. -/
theorem newlineStops_append (offset : Nat) (front back : List Char) :
    newlineStops offset (front ++ back) =
      newlineStops offset front ++ newlineStops (offset + byteLength front) back := by
  induction front generalizing offset with
  | nil => rfl
  | cons c front ih =>
    rw [List.cons_append, newlineStops, newlineStops, byteLength]
    split_ifs with hc
    · subst hc
      rw [ih, List.cons_append, Nat.add_assoc]
      rfl
    · rw [ih, Nat.add_assoc]

/-- The stops of line feeds are within the text. -/
theorem newlineStops_bounds (offset : Nat) (text : List Char) :
    ∀ stop ∈ newlineStops offset text, offset < stop ∧ stop ≤ offset + byteLength text := by
  induction text generalizing offset with
  | nil => rintro _ ⟨⟩
  | cons c text ih =>
    intro stop hstop
    have hpos := c.utf8Size_pos
    rw [newlineStops] at hstop
    rw [byteLength]
    split_ifs at hstop with hc
    · rcases List.mem_cons.mp hstop with rfl | hstop
      · omega
      · have hsize : '\n'.utf8Size = 1 := rfl
        have hrest := ih _ stop hstop
        subst hc
        omega
    · have hrest := ih _ stop hstop
      omega

/-- The line feeds wholly before an offset are those of the text before it. -/
theorem filter_newlineStops (front back : List Char) :
    (newlineStops 0 (front ++ back)).filter (· ≤ byteLength front) = newlineStops 0 front := by
  rw [newlineStops_append, List.filter_append, List.filter_eq_self.mpr, List.filter_eq_nil_iff.mpr,
    List.append_nil]
  · intro stop hstop
    have hbounds := newlineStops_bounds _ back stop hstop
    simp only [decide_eq_true_eq]
    omega
  · intro stop hstop
    have hbounds := newlineStops_bounds _ front stop hstop
    simp only [decide_eq_true_eq]
    omega

/-! ## Columns -/

/-- The characters of two texts stand one after the other. -/
theorem charOffsets_append (offset : Nat) (front back : List Char) :
    charOffsets offset (front ++ back) =
      charOffsets offset front ++ charOffsets (offset + byteLength front) back := by
  induction front generalizing offset with
  | nil => rfl
  | cons c front ih =>
    rw [List.cons_append, charOffsets, charOffsets, byteLength, ih, List.cons_append, Nat.add_assoc]

/-- The offsets of characters are within the text. -/
theorem charOffsets_bounds (offset : Nat) (text : List Char) :
    ∀ o ∈ charOffsets offset text, offset ≤ o ∧ o < offset + byteLength text := by
  induction text generalizing offset with
  | nil => rintro _ ⟨⟩
  | cons c text ih =>
    intro o ho
    have hpos := c.utf8Size_pos
    rw [byteLength]
    rcases List.mem_cons.mp ho with rfl | ho
    · omega
    · have hrest := ih _ o ho
      omega

/-- A line feed leads to the start of the next line, and any other character to the next column. -/
theorem positionAfter_concat (front : List Char) (c : Char) :
    positionAfter (front ++ [c]) =
      if c = '\n' then ((positionAfter front).1 + 1, 1)
      else ((positionAfter front).1, (positionAfter front).2 + 1) := by
  simp only [positionAfter, List.count_append, List.reverse_append, List.reverse_cons,
    List.reverse_nil, List.nil_append, List.singleton_append]
  by_cases hc : c = '\n' <;> simp [hc]

/-- The last line begins within the text. -/
theorem getLastD_newlineStops_le (text : List Char) :
    (newlineStops 0 text).getLastD 0 ≤ byteLength text := by
  rcases List.eq_nil_or_concat (newlineStops 0 text) with hnil | ⟨stops, stop, hstops⟩
  · rw [hnil]
    exact Nat.zero_le _
  · rw [List.concat_eq_append] at hstops
    have hstop := newlineStops_bounds 0 text stop (hstops ▸ List.mem_concat_self)
    rw [hstops, List.getLastD_concat]
    omega

/-- The position after a text counts its line feeds, and the characters behind the last of them. -/
theorem positionAfter_eq (text : List Char) :
    positionAfter text =
      (1 + (newlineStops 0 text).length,
        1 + (charOffsets 0 text).countP ((newlineStops 0 text).getLastD 0 ≤ ·)) := by
  induction text using List.reverseRecOn with
  | nil => rfl
  | append_singleton text c ih =>
    have hoffset : charOffsets (byteLength text) [c] = [byteLength text] := rfl
    rw [positionAfter_concat, ih, newlineStops_append, charOffsets_append, Nat.zero_add, hoffset]
    by_cases hc : c = '\n'
    · -- No character begins behind a line feed at the end.
      subst hc
      have hstop : newlineStops (byteLength text) ['\n'] = [byteLength text + 1] := rfl
      have hnone : (charOffsets 0 text ++ [byteLength text]).countP (byteLength text + 1 ≤ ·) =
          0 := by
        rw [List.countP_eq_zero]
        intro o ho
        rw [decide_eq_true_eq]
        rcases List.mem_append.mp ho with ho | ho
        · have hbounds := charOffsets_bounds 0 text o ho
          omega
        · rw [List.mem_singleton.mp ho]
          omega
      rw [if_pos rfl, hstop, List.getLastD_concat, hnone, List.length_append,
        List.length_singleton, Nat.add_assoc]
    · have hstop : newlineStops (byteLength text) [c] = [] := by
        rw [newlineStops_of_ne hc]
        rfl
      rw [if_neg hc, hstop, List.append_nil, List.countP_append, List.countP_singleton,
        if_pos (decide_eq_true (getLastD_newlineStops_le text)), Nat.add_assoc]

/-! ## Positions in a text -/

/-- As many bytes as a text has are that text. -/
theorem takeBytes?_append (front back : List Char) :
    takeBytes? (byteLength front) (front ++ back) = some front := by
  induction front with
  | nil => rw [byteLength, takeBytes?]
  | cons c front ih =>
    have hpos := c.utf8Size_pos
    obtain ⟨count, hcount⟩ := Nat.exists_eq_add_of_lt hpos
    have hbytes : byteLength (c :: front) = count + byteLength front + 1 := by
      rw [byteLength]
      omega
    rw [hbytes, List.cons_append, takeBytes?, if_pos (by omega)]
    have hrest : count + byteLength front + 1 - c.utf8Size = byteLength front := by omega
    rw [hrest, ih]
    rfl

/-- The position of an offset is the one that the text before it leads to. -/
theorem lineColumn_append (front back : List Char) :
    lineColumn (front ++ back) (byteLength front) = positionAfter front := by
  rw [lineColumn, takeBytes?_append, Option.getD_some]

/-- A position counts the line feeds wholly before it, and the characters behind the last of
them. -/
theorem lineColumn_eq_positionBehind (h : IsBoundary text offset) :
    lineColumn text offset = positionBehind (newlineStops 0 text) text offset := by
  obtain ⟨front, back, rfl, rfl⟩ := h
  have hfront : (charOffsets 0 front).countP (fun o =>
      (newlineStops 0 front).getLastD 0 ≤ o && o < byteLength front) =
        (charOffsets 0 front).countP ((newlineStops 0 front).getLastD 0 ≤ ·) := by
    refine List.countP_congr fun o ho => ?_
    have hlt := (charOffsets_bounds 0 front o ho).2
    rw [Nat.zero_add] at hlt
    simp [hlt]
  have hback : (charOffsets (byteLength front) back).countP (fun o =>
      (newlineStops 0 front).getLastD 0 ≤ o && o < byteLength front) = 0 := by
    rw [List.countP_eq_zero]
    intro o ho
    have hle := (charOffsets_bounds _ back o ho).1
    simp [Nat.not_lt.mpr hle]
  rw [lineColumn_append, positionAfter_eq, positionBehind, filter_newlineStops, charOffsets_append,
    List.countP_append, Nat.zero_add, hfront, hback, Nat.add_zero]

/-- Each character leads to a later position. -/
theorem positionAfter_lt_append (front : List Char) (hne : tail ≠ []) :
    toLex (positionAfter front) < toLex (positionAfter (front ++ tail)) := by
  induction tail using List.reverseRecOn with
  | nil => exact absurd rfl hne
  | append_singleton tail c ih =>
    have hstep : toLex (positionAfter (front ++ tail)) <
        toLex (positionAfter (front ++ tail ++ [c])) := by
      rw [positionAfter_concat, Prod.Lex.toLex_lt_toLex]
      split_ifs
      · exact .inl (Nat.lt_succ_self _)
      · exact .inr ⟨rfl, Nat.lt_succ_self _⟩
    rw [← List.append_assoc]
    rcases tail with _ | ⟨d, tail⟩
    · simpa using hstep
    · exact (ih (List.cons_ne_nil d tail)).trans hstep

/-- Positions grow with the offset. -/
theorem lineColumn_lt (h : IsBoundary text offset) (h' : IsBoundary text offset')
    (hlt : offset < offset') :
    toLex (lineColumn text offset) < toLex (lineColumn text offset') := by
  obtain ⟨front, back, rfl, rfl⟩ := h
  obtain ⟨front', back', htext, rfl⟩ := h'
  rcases List.append_eq_append_iff.mp htext with ⟨tail, rfl, -⟩ | ⟨tail, rfl, -⟩
  · have hne : tail ≠ [] := by
      rintro rfl
      simp at hlt
    rw [lineColumn_append, htext, lineColumn_append]
    exact positionAfter_lt_append front hne
  · rw [byteLength_append] at hlt
    omega

/-- Positions count all line ends before an offset exactly if none of them is a carriage return that
stands alone. -/
theorem lineColumn_eq_positionBehind_iff (h : IsBoundary text offset) :
    lineColumn text offset =
        positionBehind ((lineEndsFrom 0 text).map (·.stop)) text offset ↔
      ∀ e ∈ lineEndsFrom 0 text, e.stop ≤ offset → e.chars ≠ ['\r'] := by
  have habove : (newlineStops 0 text).filter (· ≤ offset) =
      (((lineEndsFrom 0 text).filter (·.stop ≤ offset)).filter
        (·.chars ≠ ['\r'])).map (·.stop) := by
    rw [← map_stop_lineEndsFrom, List.filter_map, List.filter_filter, List.filter_filter]
    simp only [Function.comp_def, Bool.and_comm]
  have hall : ((lineEndsFrom 0 text).map (·.stop)).filter (· ≤ offset) =
      ((lineEndsFrom 0 text).filter (·.stop ≤ offset)).map (·.stop) := by
    rw [List.filter_map]
    rfl
  rw [lineColumn_eq_positionBehind h, positionBehind, positionBehind, habove, hall]
  generalize hends : (lineEndsFrom 0 text).filter (·.stop ≤ offset) = ends
  have hmem : (∀ e ∈ lineEndsFrom 0 text, e.stop ≤ offset → e.chars ≠ ['\r']) ↔
      ∀ e ∈ ends, decide (e.chars ≠ ['\r']) = true := by
    rw [← hends]
    simp [List.mem_filter]
  rw [hmem]
  constructor
  · intro heq
    have hlen := (Prod.mk.inj heq).1
    rw [List.length_map, List.length_map, Nat.add_left_cancel_iff] at hlen
    exact List.length_filter_eq_length_iff.mp hlen
  · intro hcounted
    rw [List.filter_eq_self.mpr hcounted]

end Phrasebook.Text

/-! ## Junk -/

namespace Phrasebook

open Text

variable {source : String} {j : Junk}

/-- Reading an entry of a source failed at the offset, and the junk is what came of it. -/
def Junk.FailedAt (source : String) (j : Junk) (offset : Nat) : Prop :=
  ∃ above text failure, source.toList = above ++ text ∧
    Reader.entry (byteLength above) text = .error failure ∧
      offset = byteLength above + byteLength (before text failure.rest) ∧
        j = (Block.junk (byteLength above) text failure).1

namespace Text

variable {text rest : List Char}

/-- Where the rest of a text begins is a boundary of characters. -/
theorem isBoundary_before (front : List Char) (h : rest <:+ text) :
    IsBoundary (front ++ text) (byteLength front + byteLength (before text rest)) :=
  ⟨front ++ before text rest, rest, by rw [List.append_assoc, before_append_self h],
    byteLength_append _ _⟩

/-- The position at which the rest of a text begins is that behind what was read. -/
theorem lineColumn_before (front : List Char) (h : rest <:+ text) :
    lineColumn (front ++ text) (byteLength front + byteLength (before text rest)) =
      positionAfter (front ++ before text rest) := by
  rw [← byteLength_append, ← lineColumn_append _ rest, List.append_assoc, before_append_self h]

end Text

namespace Block

variable {text : List Char} {failure : Failure}

/-- Recovery goes on behind the problem, or from the start of the line on which it was met. -/
theorem recover_spec (text rest : List Char) :
    recover text rest <:+ rest ∨
      ∃ line, (∀ c ∈ line, isBreak c = false) ∧ recover text rest = line ++ rest := by
  unfold recover
  rcases lastBreak (before text rest) with hfirst | ⟨above, b, line, hread, hb, hline⟩
  · rw [resumption_firstLine hfirst]
    exact .inl (nextEntry_suffix rest)
  · rw [hread, resumption_line above hb hline, nextEntry]
    split
    · exact .inr ⟨line, hline, rfl⟩
    · rw [nextEntry_line_append hline]
      exact .inl (nextEntry_suffix rest)

/-- The diagnostic of junk begins where reading failed, or where it goes on if that is before. -/
theorem junk_start (offset : Nat) (text : List Char) (failure : Failure) :
    ∃ rest, (junk offset text failure).1.diagnostic.span.start =
        offset + byteLength (before text rest) ∧
      (rest = failure.rest ∨ rest = recover text failure.rest ∧
        byteLength (before text rest) < byteLength (before text failure.rest)) := by
  by_cases hback : byteLength (before text (recover text failure.rest)) <
      byteLength (before text failure.rest)
  · refine ⟨_, ?_, .inr ⟨rfl, hback⟩⟩
    unfold recover at hback ⊢
    simp only [junk, Nat.add_lt_add_iff_left, if_pos hback]
  · refine ⟨_, ?_, .inl rfl⟩
    unfold recover at hback
    simp only [junk, Nat.add_lt_add_iff_left, if_neg hback]

/-- The diagnostic of junk begins with a character of the text or at its end, on the line on which
reading failed. -/
theorem junk_line (front : List Char) (h : failure.rest <:+ text) :
    IsBoundary (front ++ text) (junk (byteLength front) text failure).1.diagnostic.span.start ∧
      (lineColumn (front ++ text)
          (junk (byteLength front) text failure).1.diagnostic.span.start).1 =
        (lineColumn (front ++ text)
          (byteLength front + byteLength (before text failure.rest))).1 := by
  obtain ⟨rest, hstart, rfl | ⟨rfl, hback⟩⟩ := junk_start (byteLength front) text failure
  · rw [hstart]
    exact ⟨isBoundary_before front h, rfl⟩
  have hrecover : recover text failure.rest <:+ text := junk_suffix 0 h
  rw [hstart, lineColumn_before front h, lineColumn_before front hrecover]
  refine ⟨isBoundary_before front hrecover, ?_⟩
  rcases recover_spec text failure.rest with ⟨skipped, hskipped⟩ | ⟨line, hline, hrest⟩
  · -- Recovery that goes on behind the problem does not go on before it.
    have hcut : text = before text failure.rest ++ skipped ++ recover text failure.rest := by
      rw [List.append_assoc, hskipped, before_append_self h]
    rw [before_eq hcut, byteLength_append] at hback
    omega
  · have hcut : text = before text (recover text failure.rest) ++ line ++ failure.rest := by
      rw [List.append_assoc, ← hrest, before_append_self hrecover]
    have hnewline : line.count '\n' = 0 := by
      rw [List.count_eq_zero]
      intro hmem
      cases hline _ hmem
    rw [before_eq hcut]
    simp only [positionAfter, List.count_append, hnewline, Nat.add_zero]

end Block

namespace Resource

/-- Junk is what came of an entry that could not be read. -/
theorem exists_failedAt (h : j ∈ (parse source).junk) : ∃ offset, j.FailedAt source offset := by
  obtain ⟨e, he, hjunk⟩ := List.mem_filterMap.mp h
  obtain rfl : e = .junk j := by
    cases e <;> cases hjunk
    rfl
  rw [entries_parse] at he
  obtain ⟨b, hb, hentry⟩ := Block.exists_of_junk_mem he
  obtain ⟨above, below, htext, -, rfl⟩ := Block.exists_read_of_mem_all hb
  generalize hfront : before source.toList (dropBlankLines source.toList) = front at hentry
  cases hr : Reader.entry (byteLength (front ++ above)) below with
  | ok result =>
    simp only [Block.read, hr] at hentry
    exact absurd hentry (Reader.entry_ne_junk hr j)
  | error failure =>
    simp only [Block.read, hr] at hentry
    refine ⟨_, front ++ above, below, failure, ?_, hr, rfl, (Entry.junk.inj hentry).symm⟩
    rw [← hfront, List.append_assoc, ← htext, before_append_self (dropBlankLines_suffix _)]

/-- The diagnostic of junk begins with a character of the source or at its end, on the line on which
reading failed. -/
theorem junk_line (h : j ∈ (parse source).junk) :
    IsBoundary source.toList j.diagnostic.span.start ∧
      ∃ offset, j.FailedAt source offset ∧ IsBoundary source.toList offset ∧
        (lineColumn source.toList j.diagnostic.span.start).1 =
          (lineColumn source.toList offset).1 := by
  obtain ⟨_, above, text, failure, hsource, hr, rfl, rfl⟩ := exists_failedAt h
  have hwithin := (Reader.contained_entry _).suffix_of_error hr
  obtain ⟨hboundary, hline⟩ := Block.junk_line above hwithin
  refine ⟨by rwa [hsource], _, ⟨above, text, failure, hsource, hr, rfl, rfl⟩, ?_, by rwa [hsource]⟩
  rw [hsource]
  exact isBoundary_before above hwithin

/-- The position of an offset in a source counts the line ends wholly before it and the characters
behind the last of these, but for carriage returns that stand alone; it counts all line ends that
reading meets exactly if no carriage return stands alone before it. Positions grow with the offset.
The diagnostic of junk begins on the line on which reading failed, and loading the source warns
about the junk with the position of its diagnostic. -/
theorem position_counts_lines (source : String) :
    let text := source.toList
    let ends := lineEndsFrom 0 text
    let counted := ends.filter (·.chars ≠ ['\r'])
    (∀ offset, IsBoundary text offset →
        lineColumn text offset = positionBehind (counted.map (·.stop)) text offset ∧
          (lineColumn text offset = positionBehind (ends.map (·.stop)) text offset ↔
            ∀ e ∈ ends, e.stop ≤ offset → e.chars ≠ ['\r'])) ∧
      (∀ offset offset', IsBoundary text offset → IsBoundary text offset' → offset < offset' →
        toLex (lineColumn text offset) < toLex (lineColumn text offset')) ∧
      (∀ j ∈ (parse source).junk, IsBoundary text j.diagnostic.span.start ∧
        ∃ offset, j.FailedAt source offset ∧ IsBoundary text offset ∧
          (lineColumn text j.diagnostic.span.start).1 = (lineColumn text offset).1) ∧
      ∀ (b : Bundle) origin loaded warnings, b.load origin source = .ok (loaded, warnings) →
        ∃ names : List String, warnings = ((parse source).junk.map fun j =>
            let position := positionBehind (counted.map (·.stop)) text j.diagnostic.span.start
            .junk origin position.1 position.2 j.diagnostic.problem) ++
          names.map (.overridden origin) := by
  intro text ends counted
  have hcounted : counted.map (·.stop) = newlineStops 0 text := map_stop_lineEndsFrom 0 text
  rw [hcounted]
  refine ⟨fun offset h => ⟨lineColumn_eq_positionBehind h, lineColumn_eq_positionBehind_iff h⟩,
    fun offset offset' => lineColumn_lt, fun j => junk_line,
    fun b origin loaded warnings hload => ?_⟩
  simp only [Bundle.load] at hload
  split at hload
  · cases hload
  · cases hload
    refine ⟨_, congrArg (· ++ _) (List.map_congr_left fun j hj => ?_)⟩
    rw [Bundle.junkWarning, lineColumn_eq_positionBehind (junk_line hj).1]

/-- With line feeds and pairs in one source all line ends count: an offset inside a pair is on the
line that the pair ends, and the second line is junk from its first column. -/
theorem position_counts_lines_mixed :
    let source := "a = b\r\n=\nc = d\n"
    let text := source.toList
    let ends := lineEndsFrom 0 text
    ends.map (·.stop) = [7, 9, 15] ∧ IsBoundary text 6 ∧ IsBoundary text 7 ∧
      lineColumn text 6 = positionBehind (ends.map (·.stop)) text 6 ∧
      positionBehind (ends.map (·.stop)) text 6 = (1, 7) ∧
      toLex (lineColumn text 6) < toLex (lineColumn text 7) ∧
      ∀ b : Bundle, ∃ loaded, ∃ names : List String, b.load "o" source =
        .ok (loaded, [.junk "o" 2 1 (.expectedCharRange .letters)] ++
          names.map (.overridden "o")) := by
  intro source text ends
  obtain ⟨hcounts, hgrows, -, hloads⟩ := position_counts_lines source
  have hinside : IsBoundary text 6 :=
    ⟨_, _, (List.take_append_drop 6 text).symm, by decide +kernel⟩
  have hbehind : IsBoundary text 7 :=
    ⟨_, _, (List.take_append_drop 7 text).symm, by decide +kernel⟩
  refine ⟨by decide +kernel, hinside, hbehind, (hcounts 6 hinside).2.mpr (by decide +kernel),
    by decide +kernel, hgrows 6 7 hinside hbehind (by decide), fun b => ?_⟩
  obtain ⟨loaded, warnings, hload⟩ : ∃ loaded warnings,
      b.load "o" source = .ok (loaded, warnings) := by
    rw [Bundle.load, if_neg (by decide +kernel)]
    exact ⟨_, _, rfl⟩
  obtain ⟨names, rfl⟩ := hloads b "o" loaded warnings hload
  have hjunk : (parse source).junk = [⟨"=\n", ⟨.expectedCharRange .letters, ⟨7, 8⟩⟩, ⟨7, 9⟩⟩] := by
    decide +kernel
  have hposition :
      positionBehind ((ends.filter (·.chars ≠ ['\r'])).map (·.stop)) text 7 = (2, 1) := by
    decide +kernel
  refine ⟨loaded, names, ?_⟩
  rw [hload, hjunk, List.map_singleton]
  dsimp only
  rw [hposition]

/-- Reading ends a line at a carriage return that stands alone, and positions do not. -/
theorem position_misses_return :
    ¬ ∀ offset, IsBoundary "a\rb".toList offset →
      lineColumn "a\rb".toList offset =
        positionBehind ((lineEndsFrom 0 "a\rb".toList).map (·.stop)) "a\rb".toList offset :=
  fun h => absurd (h 2 ⟨['a', '\r'], ['b'], rfl, rfl⟩) (by decide +kernel)

end Resource

end Phrasebook
