import Phrasebook.Proofs.LineStart
import Phrasebook.Proofs.RoundTrip.Literal

/-!
# What reading makes of patterns

A pattern that is read has the shape of its level. This is kept segment by segment:
what has been read is lined up, and text stops at a line end, at a placeable or at the end.
-/

namespace Phrasebook

open Text

/-- No line of a source begins with a brace. -/
def BraceFree (source : List Char) : Prop :=
  ∀ front rest, source = front ++ '{' :: rest → ¬LeadsToLine front

/-- Whether a line begins with a brace is told place by place. -/
theorem braceFree_iff (source : List Char) :
    BraceFree source ↔
      ∀ i < source.length, source[i]? = some '{' → ¬(source.take i).getLast?.all isBreak := by
  constructor
  · intro h i hi hbrace
    obtain ⟨_, hget⟩ := List.getElem?_eq_some_iff.mp hbrace
    rw [Option.all_eq_true]
    refine h (source.take i) (source.drop (i + 1)) ?_
    rw [← hget, List.getElem_cons_drop, List.take_append_drop]
  · rintro h front rest rfl
    have hplace := h front.length (by simp) (by simp)
    rw [List.take_left, Option.all_eq_true] at hplace
    exact hplace

instance (source : List Char) : Decidable (BraceFree source) :=
  decidable_of_iff _ (braceFree_iff source).symm

namespace Segment

variable {startsLine : Bool} {segments : List Segment} {segment : Segment}

/-- A segment that fits behind the others can be added to them, unless two texts would meet on one
line. -/
theorem lined_concat (h : Lined startsLine segments)
    (hfits : segment.Fits (lineStart startsLine segments))
    (hlast : ∀ last ∈ segments.getLast?, last.isText → segment.isText → last.endsLine) :
    Lined startsLine (segments ++ [segment]) := by
  induction segments generalizing startsLine with
  | nil => exact ⟨hfits, by rintro _ ⟨⟩, trivial⟩
  | cons first rest ih =>
    obtain ⟨hfirst, hnext, hrest⟩ := h
    rcases rest with _ | ⟨second, rest⟩
    · refine ⟨hfirst, ?_, hfits, by rintro _ ⟨⟩, trivial⟩
      rintro _ ⟨⟩
      exact hlast first rfl
    · refine ⟨hfirst, hnext, ih hrest hfits ?_⟩
      intro last hmem
      exact hlast last (by simpa using hmem)

end Segment

namespace Reader

open Segment

variable {source text : List Char} {shape : Shape} {startsLine : Bool} {read : List Segment}

/-- The segments read last first stand at the start of a line where the segments in their order
do. -/
theorem lineStart_reverse (startsLine : Bool) (read : List Segment) :
    lineStart startsLine read.reverse = atLineStart startsLine read := by
  rcases read with _ | ⟨_ | _, read⟩
  · rfl
  all_goals
    rw [List.reverse_cons, Pattern.lineStart_append]
    rfl

/-- What has been read of a pattern, last first, and what is left of the source. -/
structure Taken (shape : Shape) (source : List Char) (startsLine : Bool) (read : List Segment)
    (rest : List Char) : Prop where
  line : LineBegins source startsLine read rest
  lined : Lined startsLine read.reverse
  holds : ∀ s ∈ read, s.Holds shape.placeable
  offMargin : BraceFree source → ∀ s ∈ read, s.OffMargin
  begins : ∀ s ∈ read.getLast?, s.Begins
  stops : ∀ s ∈ read.head?, s.isText → s.endsLine = false → ∀ c ∈ rest.head?, c = '{'
  firstLine : read = [] → ∀ c ∈ (rest.dropWhile (· == ' ')).head?, isBreak c = false
  firstChar : read = [] → startsLine = false → rest.head? ≠ some ' '

/-- What becomes of a segment that may follow what has been read. -/
structure Goes (shape : Shape) (source : List Char) (startsLine : Bool) (read : List Segment)
    (segment : Segment) (rest : List Char) : Prop where
  fits : segment.Fits (atLineStart startsLine read)
  holds : segment.Holds shape.placeable
  offMargin : BraceFree source → segment.OffMargin
  begins : read = [] → segment.Begins
  stops : segment.isText → segment.endsLine = false → ∀ c ∈ rest.head?, c = '{'
  follows : ∀ s ∈ read.head?, s.isText → segment.isText → s.endsLine

/-- One more segment can be taken where it begins a line or goes on with one. -/
theorem Taken.again {segment : Segment} {rest : List Char}
    (h : Taken shape source startsLine read text)
    (hline : LineBegins source startsLine (segment :: read) rest)
    (hgoes : Goes shape source startsLine read segment rest) :
    Taken shape source startsLine (segment :: read) rest where
  line := hline
  lined := by
    rw [List.reverse_cons]
    refine lined_concat h.lined (by rw [lineStart_reverse]; exact hgoes.fits) ?_
    rw [List.getLast?_reverse]
    exact hgoes.follows
  holds := by
    intro s hs
    rcases List.mem_cons.mp hs with rfl | hs
    · exact hgoes.holds
    · exact h.holds s hs
  offMargin := by
    intro hfree s hs
    rcases List.mem_cons.mp hs with rfl | hs
    · exact hgoes.offMargin hfree
    · exact h.offMargin hfree s hs
  begins := by
    rcases read with _ | ⟨last, read⟩
    · rintro _ ⟨⟩
      exact hgoes.begins rfl
    · simpa using h.begins
  stops := by
    rintro _ ⟨⟩
    exact hgoes.stops
  firstLine := by rintro ⟨⟩
  firstChar := by rintro ⟨⟩

/-- Text ends before a line break, a brace, or the end of the source. -/
private theorem eq_brace_of_stop (hclose : (text.dropWhile isTextChar).head? ≠ some '}') :
    ∀ c ∈ (text.dropWhile isTextChar).head?, isBreak c = false → c = '{' := by
  intro c hc hbreak
  obtain ⟨rest, hdrop⟩ := List.head?_eq_some_iff.mp hc
  have hnot : isTextChar c = false := stop_of_dropWhile hdrop
  have hclosing : c ≠ '}' := by
    rintro rfl
    exact hclose hc
  simpa [isTextChar, hbreak, hclosing] using hnot

/-- Text that begins with a character other than a brace. -/
theorem textSegment_taken (indent : Option Nat) {c : Char} (rest : List Char) (hc : c ≠ '{') :
    Ensures (textSegment indent) (c :: rest)
      (fun segment after => ∃ content newline, segment = .text indent content newline ∧
        (∀ d ∈ content, isTextChar d) ∧ (∀ d ∈ content.head?, d = c) ∧
        (content = [] → isBreak c ∧ newline = true) ∧
        (newline = false → ∀ d ∈ after.head?, d = '{'))
      fun _ => True := by
  rw [Ensures, textSegment_apply]
  by_cases hclose : ((c :: rest).dropWhile isTextChar).head? = some '}'
  · rw [if_pos hclose]
    trivial
  rw [if_neg hclose]
  have hstop := eq_brace_of_stop hclose
  have hchars : ∀ d ∈ (c :: rest).takeWhile isTextChar, isTextChar d :=
    fun d hd => List.mem_takeWhile_imp hd
  have hhead : ∀ d ∈ ((c :: rest).takeWhile isTextChar).head?, d = c := by
    intro d hd
    by_cases htext : isTextChar c
    · simpa [htext] using hd.symm
    · simp [htext] at hd
  -- The content is empty only where the segment begins with its line end.
  have hnil (h : (c :: rest).takeWhile isTextChar = []) :
      (c :: rest).dropWhile isTextChar = c :: rest ∧ isBreak c := by
    have htext : isTextChar c = false := by
      rw [← Bool.not_eq_true]
      intro htext
      simp [htext] at h
    have hdrop : (c :: rest).dropWhile isTextChar = c :: rest := by simp [htext]
    refine ⟨hdrop, ?_⟩
    rw [hdrop] at hstop
    by_contra hbreak
    exact hc (hstop c rfl (by simpa using hbreak))
  cases he : afterLineEnd? ((c :: rest).dropWhile isTextChar) with
  | some after => exact ⟨_, true, rfl, hchars, hhead, fun h => ⟨(hnil h).2, rfl⟩, by rintro ⟨⟩⟩
  | none =>
    have hunbroken := isBreak_of_afterLineEnd?_eq_none he
    refine ⟨_, false, rfl, hchars, hhead, fun h => ?_, fun _ d hd => hstop d hd (hunbroken d hd)⟩
    obtain ⟨hdrop, hbreak⟩ := hnil h
    rw [hunbroken c (by rw [hdrop]; rfl)] at hbreak
    cases hbreak

variable {placeable : Reader Expression}

/-- The reader of placeables reads nothing but what the shape allows. -/
def Allows (shape : Shape) (source : List Char) (placeable : Reader Expression) : Prop :=
  ∀ ⦃text⦄, text <:+ source →
    Ensures placeable text (fun e _ => shape.placeable e) fun _ => True

/-- What becomes of the segment that was read, if one was. -/
private def NextGoes (shape : Shape) (source : List Char) (startsLine : Bool) (read : List Segment)
    (next : Option Segment) (rest : List Char) : Prop :=
  ∀ segment ∈ next, Goes shape source startsLine read segment rest

private theorem goes_placeable (hallows : Allows shape source placeable) (atMargin : Bool)
    (htext : text <:+ source) (hmargin : atMargin → atLineStart startsLine read)
    (hfree : BraceFree source → atMargin = false) :
    Ensures (placeable >>= fun e => pure (some (.placeable atMargin e))) text
      (NextGoes shape source startsLine read) fun _ => True := by
  refine (hallows htext).bind fun e rest he => ?_
  rintro _ ⟨⟩
  exact
    { fits := hmargin
      holds := he
      offMargin := hfree
      begins := fun _ => trivial
      stops := by rintro ⟨⟩
      follows := by rintro _ - - ⟨⟩ }

private theorem begins_of_head {indent : Option Nat} {content : List Char} {newline : Bool}
    {c : Char}
    (hhead : ∀ d ∈ content.head?, d = c) (hspace : c ≠ ' ') (hne : content ≠ []) :
    (Segment.text indent content newline).Begins := by
  rcases content with _ | ⟨d, content⟩
  · exact absurd rfl hne
  · exact ⟨d, rfl, hhead d rfl ▸ hspace⟩

private theorem goes_inLine (hallows : Allows shape source placeable)
    (h : Taken shape source startsLine read text) (hstart : atLineStart startsLine read = false) :
    Ensures (inLine placeable) text (NextGoes shape source startsLine read) fun _ => True := by
  rcases text with _ | ⟨c, rest⟩
  · rintro _ ⟨⟩
  have hrest : rest <:+ source := (List.suffix_cons c rest).trans h.line.1
  rw [Ensures, inLine_cons]
  by_cases hc : c = '{'
  · rw [if_pos hc]
    exact goes_placeable hallows false hrest (by rintro ⟨⟩) fun _ => rfl
  rw [if_neg hc]
  refine (textSegment_taken none rest hc).bind ?_
  rintro _ after ⟨content, newline, rfl, hchars, hhead, hnil, hstops⟩ _ ⟨⟩
  exact
    { fits := by
        rw [hstart]
        refine ⟨rfl, hchars, by rintro ⟨⟩, ?_⟩
        rintro rfl hcontent
        cases (hnil hcontent).2
      holds := trivial
      offMargin := fun _ => trivial
      begins := by
        intro hread
        have hstarts : startsLine = false := by simpa [hread, atLineStart] using hstart
        have hspace : c ≠ ' ' := by simpa using h.firstChar hread hstarts
        have hbreak := h.firstLine hread c (by simp [hspace])
        exact begins_of_head hhead hspace fun hcontent => by simp [(hnil hcontent).1] at hbreak
      stops := fun _ => hstops
      follows := by
        intro s hs htext _
        rw [← Bool.not_eq_false]
        intro hends
        exact hc (h.stops s hs htext hends c rfl) }

/-- Text behind any indentation goes on with a pattern; where a line has none it is empty. -/
private theorem goes_text {c : Char} {rest : List Char}
    (h : Taken shape source startsLine read text) (hstart : atLineStart startsLine read = true)
    (hdrop : text.dropWhile (· == ' ') = c :: rest) (hbrace : c ≠ '{') (indent : Nat)
    (hends : endsPattern c = false) :
    Ensures (textSegment (some indent) >>= fun segment => pure (some segment)) (c :: rest)
      (NextGoes shape source startsLine read) fun _ => True := by
  have hspace : c ≠ ' ' := ne_space_of_dropWhile hdrop
  refine (textSegment_taken (some indent) rest hbrace).bind ?_
  rintro _ after ⟨content, newline, rfl, hchars, hhead, hnil, hstops⟩ _ ⟨⟩
  exact
    { fits := by
        rw [hstart]
        refine ⟨rfl, hchars, fun _ d hd => ?_, ?_⟩
        · rw [hhead d hd]
          exact ⟨hspace, hends⟩
        · rintro rfl hcontent
          cases (hnil hcontent).2
      holds := trivial
      offMargin := fun _ => trivial
      begins := by
        intro hread
        have hbreak := h.firstLine hread c (by simp [hdrop])
        exact begins_of_head hhead hspace fun hcontent => by simp [(hnil hcontent).1] at hbreak
      stops := fun _ => hstops
      follows := by
        intro s hs hstext _
        rcases read with _ | ⟨_ | _, read⟩
        · cases hs
        · obtain rfl := Option.mem_some_iff.mp hs
          exact hstart
        · cases hstart }

private theorem goes_atLine (hallows : Allows shape source placeable)
    (h : Taken shape source startsLine read text) (hstart : atLineStart startsLine read = true) :
    Ensures (atLine placeable) text (NextGoes shape source startsLine read) fun _ => True := by
  have hline := h.line.2 hstart
  have hwhole := List.takeWhile_append_dropWhile (p := (· == ' ')) (l := text)
  have hsuffix : text.dropWhile (· == ' ') <:+ source :=
    (List.dropWhile_suffix _).trans h.line.1
  rw [Ensures, atLine_apply]
  rcases hdrop : text.dropWhile (· == ' ') with _ | ⟨c, rest⟩
  · rintro _ ⟨⟩
  rw [hdrop] at hwhole hsuffix
  dsimp only
  split_ifs with h₁ h₂ h₃ h₄
  · subst h₁
    refine goes_placeable hallows _ ((List.suffix_cons _ _).trans hsuffix) (fun _ => hstart) ?_
    intro hfree
    rw [decide_eq_false_iff_not]
    intro hindent
    rw [List.length_eq_zero_iff.mp hindent, List.nil_append] at hwhole
    rcases hline with rfl | ⟨front, hsource, hfront⟩
    · cases hwhole
    · exact hfree front rest (hwhole ▸ hsource) hfront
  · refine goes_text h hstart hdrop h₁ 0 ?_
    rcases isBreak_iff.mp h₃ with rfl | rfl <;> decide
  · rintro _ ⟨⟩
  · rintro _ ⟨⟩
  · exact goes_text h hstart hdrop h₁ _ (by simpa using h₄)

private theorem taken_nil {rest : List Char} (hline : LineBegins source startsLine [] rest)
    (hbreak : ∀ c ∈ (rest.dropWhile (· == ' ')).head?, isBreak c = false)
    (hspace : startsLine = false → rest.head? ≠ some ' ') :
    Taken shape source startsLine [] rest where
  line := hline
  lined := trivial
  holds := by rintro _ ⟨⟩
  offMargin := by rintro - _ ⟨⟩
  begins := by rintro _ ⟨⟩
  stops := by rintro _ ⟨⟩
  firstLine := fun _ => hbreak
  firstChar := fun _ => hspace

/-- A step keeps what is known of the segments read so far. -/
private theorem taken_segmentStep (hcontained : Contained placeable)
    (hallows : Allows shape source placeable) (h : Taken shape source startsLine read text) :
    Ensures (segmentStep placeable startsLine read) text
      (Outcome (Taken shape source startsLine) fun segments _ =>
        ∃ rest, Taken shape source startsLine segments.reverse rest) fun _ => True := by
  rw [segmentStep_eq]
  refine Ensures.bind (m := fun next after => NextBegins source startsLine read next after ∧
    NextGoes shape source startsLine read next after) ?_ ?_
  · refine (ensures_nextSegment hcontained h.line).and ?_
    unfold nextSegment
    split_ifs with hstart
    · exact goes_atLine hallows h hstart
    · exact goes_inLine hallows h (by simpa using hstart)
  · rintro (_ | segment) after ⟨hbegins, hgoes⟩
    · exact ⟨text, by rwa [List.reverse_reverse]⟩
    · exact h.again hbegins (hgoes segment rfl)

/-- What is made of the segments of a pattern has the shape of its level. -/
private theorem Taken.value {segments : List Segment} {p : Pattern}
    (hpattern : ∀ p : Pattern, p.Sound → (BraceFree source → p.Aligned) → shape.pattern p)
    (h : Taken shape source startsLine segments.reverse text)
    (hp : Pattern.ofSegments? segments = some p) : shape.Value p := by
  have hlined := h.lined
  have hbegins := h.begins
  rw [List.reverse_reverse] at hlined
  rw [List.getLast?_reverse] at hbegins
  obtain ⟨hsound, hholds, haligned⟩ := Pattern.sound_ofSegments? hlined hbegins hp
  exact
    { legible := hsound.lined.laid
      holds := hholds _ fun s hs => h.holds s (List.mem_reverse.mpr hs)
      pattern := hpattern p hsound fun hfree => haligned fun s hs =>
        h.offMargin hfree s (List.mem_reverse.mpr hs)
      present := by rw [hsound.unindent?_eq, Option.isSome_some] }

/-- A pattern that is read has the shape of its level. -/
theorem value_pattern (hcontained : Contained placeable) (hallows : Allows shape source placeable)
    (hpattern : ∀ p : Pattern, p.Sound → (BraceFree source → p.Aligned) → shape.pattern p)
    (htext : text <:+ source) :
    Ensures (pattern placeable) text (fun value _ => ∀ p ∈ value, shape.Value p)
      fun _ => True := by
  have hloop {startsLine : Bool} {rest : List Char}
      (hrest : Taken shape source startsLine [] rest) :
      Ensures (loop (segmentStep placeable startsLine) [] >>= fun segments =>
        pure (Pattern.ofSegments? segments)) rest (fun value _ => ∀ p ∈ value, shape.Value p)
        fun _ => True := by
    have hsegments := Ensures.loop (fun _ _ h => taken_segmentStep hcontained hallows h)
      (fun _ _ _ => trivial) hrest
    refine hsegments.bind ?_
    rintro segments - ⟨rest, h⟩ p hp
    exact h.value hpattern hp
  rw [Ensures, pattern, bind_ok (skipSpaces_apply _), bind_apply, acceptLineEnd]
  cases he : afterLineEnd? (text.dropWhile (· == ' ')) with
  | none =>
    have hspace : (text.dropWhile (· == ' ')).head? ≠ some ' ' := by
      intro hspace
      obtain ⟨rest, hdrop⟩ := List.head?_eq_some_iff.mp hspace
      exact ne_space_of_dropWhile hdrop rfl
    refine hloop (taken_nil (lineBegins_sameLine htext) ?_ fun _ => hspace)
    rw [List.dropWhile_idempotent]
    exact isBreak_of_afterLineEnd?_eq_none he
  | some rest =>
    refine hloop (taken_nil (lineBegins_nextLine htext he) ?_ (by rintro ⟨⟩))
    obtain ⟨-, -, -, hnil | ⟨-, c, after, hdrop, hbreak⟩⟩ := dropBlankLines_spec rest
    · rw [hnil]
      rintro _ ⟨⟩
    · rw [hdrop]
      rintro _ ⟨⟩
      exact hbreak

end Reader

end Phrasebook
