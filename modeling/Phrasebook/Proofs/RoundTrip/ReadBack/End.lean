import Phrasebook.Proofs.Isolation.Resource
import Phrasebook.Proofs.RoundTrip.ReadBack.Entry

/-!
# Where units end

A pattern ends with its text, or at a line with which it cannot go on, and the attributes of a unit
end at a line without a point. So what follows a unit, whatever it is, can follow that unit again.
-/

namespace Phrasebook.Reader

open Text

variable {text : List Char}

private theorem ensures_any {α : Type} (r : Reader α) (text : List Char) :
    Ensures r text (fun _ _ => True) fun _ => True := by
  unfold Ensures
  split <;> trivial

/-- What is left by a pattern: its first line is not blank, and does not go on with the pattern. -/
structure PatternLeaves (rest : List Char) : Prop where
  ends : EndsPattern rest
  shown : dropBlankLines rest = rest

/-- A pattern may leave nothing. -/
theorem patternLeaves_nil : PatternLeaves [] := ⟨by rintro _ _ ⟨⟩, rfl⟩

/-- A line that is not blank is left by a pattern that its first characters end. -/
theorem patternLeaves_line {c : Char} {rest : List Char} (h : text.dropWhile (· == ' ') = c :: rest)
    (hbrace : c ≠ '{') (hbreak : isBreak c = false)
    (hends : text.head? = some ' ' → endsPattern c = true) : PatternLeaves text := by
  have hshown := dropBlankLines_eq_self h hbreak
  refine ⟨fun d tail hd => ?_, hshown⟩
  rw [hshown, h] at hd
  obtain ⟨rfl, rfl⟩ := List.cons_eq_cons.mp hd
  exact ⟨hbrace, fun hspace => hends (hshown ▸ hspace)⟩

/-- The characters that end a pattern at the start of a line are no line breaks. -/
theorem isBreak_eq_false_of_endsPattern {c : Char} (h : endsPattern c) : isBreak c = false := by
  by_contra hbreak
  rcases isBreak_iff.mp (Bool.not_eq_false _ ▸ hbreak) with rfl | rfl <;> cases h

/-- What is left where no segment follows. -/
private def NoSegment (next : Option Segment) (rest : List Char) : Prop :=
  next = none → PatternLeaves rest

private theorem leaves_some (r : Reader Segment) :
    Ensures (r >>= fun segment => pure (some segment)) text NoSegment fun _ => True := by
  rw [Ensures, bind_apply]
  cases r text with
  | error failure => trivial
  | ok result => rintro ⟨⟩

variable {placeable : Reader Expression}

private theorem leaves_some_placeable (atMargin : Bool) :
    Ensures (placeable >>= fun e => pure (some (.placeable atMargin e))) text NoSegment
      fun _ => True := by
  rw [Ensures, bind_apply]
  cases placeable text with
  | error failure => trivial
  | ok result => rintro ⟨⟩

private theorem leaves_inLine : Ensures (inLine placeable) text NoSegment fun _ => True := by
  rcases text with _ | ⟨c, rest⟩
  · exact fun _ => patternLeaves_nil
  rw [Ensures, inLine_cons]
  split_ifs
  · exact leaves_some_placeable false
  · exact leaves_some _

private theorem leaves_atLine : Ensures (atLine placeable) text NoSegment fun _ => True := by
  rw [Ensures, atLine_apply]
  rcases hdrop : text.dropWhile (· == ' ') with _ | ⟨c, rest⟩
  · exact fun _ => patternLeaves_nil
  dsimp only
  split_ifs with hbrace hmargin hbreak hends
  · exact leaves_some_placeable _
  · exact leaves_some _
  · intro _
    have hwhole := List.takeWhile_append_dropWhile (p := (· == ' ')) (l := text)
    rw [List.length_eq_zero_iff.mp hmargin, hdrop, List.nil_append] at hwhole
    rw [hwhole]
    refine patternLeaves_line hdrop hbrace (by simpa using hbreak) fun hspace => ?_
    rw [← hwhole, List.head?_cons] at hspace
    exact absurd (Option.some.inj hspace) (ne_space_of_dropWhile hdrop)
  · exact fun _ => patternLeaves_line hdrop hbrace (isBreak_eq_false_of_endsPattern hends)
      fun _ => hends
  · exact leaves_some _

/-- Whatever a pattern is read from, it leaves a line that is not blank and that does not go on with
it. -/
theorem leaves_pattern (placeable : Reader Expression) (text : List Char) :
    Ensures (pattern placeable) text (fun _ => PatternLeaves) fun _ => True := by
  have hloop (startsLine : Bool) (rest : List Char) :
      Ensures (loop (segmentStep placeable startsLine) [] >>= fun segments =>
        pure (Pattern.ofSegments? segments)) rest (fun _ => PatternLeaves) fun _ => True := by
    refine Ensures.bind (m := fun _ => PatternLeaves) ?_ fun _ _ hr => hr
    refine Ensures.loop (I := fun _ _ => True) ?_ (fun _ _ _ => trivial) trivial
    intro read rest _
    have hnext : Ensures (nextSegment placeable startsLine read) rest NoSegment fun _ => True := by
      unfold nextSegment
      split_ifs
      · exact leaves_atLine
      · exact leaves_inLine
    rw [segmentStep_eq]
    refine hnext.bind fun next rest hrest => ?_
    cases next with
    | none => exact hrest rfl
    | some segment => trivial
  rw [Ensures, pattern, bind_ok (skipSpaces_apply _), bind_apply, acceptLineEnd]
  cases afterLineEnd? (text.dropWhile (· == ' ')) with
  | none => exact hloop false _
  | some rest => exact hloop true _

private theorem leaves_definition (text : List Char) :
    Ensures definition text (fun _ => PatternLeaves) fun _ => True := by
  refine (ensures_any identifier text).bind fun _ rest _ => ?_
  refine (ensures_any skipSpaces rest).bind fun _ rest _ => ?_
  refine (ensures_any (expect '=') rest).bind fun _ rest _ => ?_
  exact (leaves_pattern _ rest).bind fun _ _ hr => hr

/-- What is left by the attributes of a unit. -/
structure UnitLeaves (rest : List Char) : Prop extends PatternLeaves rest where
  point : ∀ tail, rest.dropWhile (· == ' ') ≠ '.' :: tail

/-- What the attributes of a unit leave goes on with neither of them. -/
theorem UnitLeaves.unitEnds (h : UnitLeaves text) : UnitEnds text :=
  ⟨h.ends, by rw [h.shown]; exact h.point⟩

private theorem leaves_attributes (h : PatternLeaves text) :
    Ensures attributes text (fun _ => UnitLeaves) fun _ => True := by
  refine Ensures.loop (I := fun _ => PatternLeaves) ?_ (fun _ _ _ => trivial) h
  intro read rest hrest
  by_cases hpoint : ∃ tail, rest.dropWhile (· == ' ') = '.' :: tail
  · obtain ⟨tail, htail⟩ := hpoint
    rw [Ensures, attributeStep_point read htail]
    refine Ensures.bind (m := fun _ => PatternLeaves) ?_ fun _ _ hr => hr
    refine (leaves_definition tail).bind fun result rest hrest => ?_
    split
    · exact hrest
    · trivial
  · have hne : ∀ tail, rest.dropWhile (· == ' ') ≠ '.' :: tail := fun tail h => hpoint ⟨tail, h⟩
    rw [Ensures, attributeStep_of_ne read hne]
    exact ⟨hrest, hne⟩

private theorem leaves_messageBody (text : List Char) :
    Ensures messageBody text (fun _ => UnitLeaves) fun _ => True := by
  refine (leaves_definition text).bind fun _ rest hrest => ?_
  refine (leaves_attributes hrest).bind fun _ rest hrest => ?_
  dsimp only
  split
  · trivial
  · exact hrest

private theorem leaves_termBody (text : List Char) :
    Ensures termBody text (fun _ => UnitLeaves) fun _ => True := by
  refine (ensures_any (expect '-') text).bind fun _ rest _ => ?_
  refine (leaves_definition rest).bind fun result rest hrest => ?_
  split
  · trivial
  · exact (leaves_attributes hrest).bind fun _ _ hr => hr

/-- What follows a unit can follow it again. -/
theorem unitLeaves_of_ok {offset : Nat} {e : Entry} {span : Span} {rest : List Char}
    (h : entry offset text = .ok (e, rest)) (hspan : e.unitSpan? = some span) :
    UnitLeaves rest := by
  rw [entry_apply] at h
  split_ifs at h
  · obtain ⟨c, mid, hrun, h⟩ := bind_eq_ok h
    cases h
    cases hspan
  · obtain ⟨t, mid, hrun, h⟩ := bind_eq_ok h
    cases h
    rw [term_eq] at hrun
    obtain ⟨⟨parts, own⟩, mid, hparts, hrun⟩ := bind_eq_ok hrun
    cases hrun
    exact (leaves_termBody text).ok (withText_ok contained_termBody hparts).1
  · obtain ⟨m, mid, hrun, h⟩ := bind_eq_ok h
    cases h
    rw [message_eq] at hrun
    obtain ⟨⟨parts, own⟩, mid, hparts, hrun⟩ := bind_eq_ok hrun
    cases hrun
    exact (leaves_messageBody text).ok (withText_ok contained_messageBody hparts).1

end Phrasebook.Reader
