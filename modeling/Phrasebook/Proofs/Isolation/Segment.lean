import Phrasebook.Proofs.Isolation.Literal

/-!
# Patterns before a seam

A pattern agrees on a source and on its continuation, given that what its placeables hold does. A
line that is not at its start has something left; at the start of a line, the first character of an
entry ends the pattern as the end of the source does.
-/

namespace Phrasebook.Reader

open Text

variable {α : Type} {u v : List Char}

/-- On every text that ends its lines, the runs agree, and a successful run leaves something. -/
def Agrees (v : List Char) (r : Reader α) : Prop :=
  ∀ ⦃u : List Char⦄, LeadsToLine u → Agree v SomethingLeft never r u

/-- Something is left behind a segment unless a line begins there. -/
private def LineGoesOn (startsLine : Bool) (read : List Segment) (rest : List Char) : Prop :=
  atLineStart startsLine read = false → rest ≠ []

private theorem agree_textSegment (hv : OpensEntry v) (indent : Option Nat) (hu : LeadsToLine u)
    (hne : u ≠ []) :
    Agree v (fun segment w => ∀ startsLine read, LineGoesOn startsLine (segment :: read) w) never
      (textSegment indent) u := by
  have hp : isTextChar '\n' = false ∧ isTextChar '\r' = false := by decide
  have hrest : LeadsToLine (u.dropWhile isTextChar) := hu.of_suffix (List.dropWhile_suffix _)
  have hleft := hu.dropWhile_ne_nil hne hp
  have htextSegment := textSegment_apply indent (u ++ v)
  rw [hu.dropWhile_append hne hp, hu.takeWhile_append hne hp, List.head?_append_of_ne_nil _ hleft,
    hrest.afterLineEnd?_append hv.isBlank_eq_false] at htextSegment
  rw [Agree, textSegment_apply, htextSegment]
  by_cases hbrace : (u.dropWhile isTextChar).head? = some '}'
  · rw [if_pos hbrace, if_pos hbrace]
    exact Or.inl rfl
  rw [if_neg hbrace, if_neg hbrace]
  cases he : afterLineEnd? (u.dropWhile isTextChar) with
  | some after => exact ⟨rfl, hrest.afterLineEnd? he, by rintro _ _ ⟨⟩⟩
  | none => exact ⟨rfl, hrest, fun _ _ _ => hleft⟩

section Placeable

variable {placeable : Reader Expression}

/-- A line goes on behind the segment that was read, if one was. -/
private def NextGoesOn (next : Option Segment) (rest : List Char) : Prop :=
  ∀ segment ∈ next, ∀ startsLine read, LineGoesOn startsLine (segment :: read) rest

private theorem agree_some_text (hv : OpensEntry v) (indent : Option Nat) (hu : LeadsToLine u)
    (hne : u ≠ []) :
    Agree v NextGoesOn never (textSegment indent >>= fun segment => pure (some segment)) u := by
  refine (agree_textSegment hv indent hu hne).bind_never fun segment w hw hleft => agree_pure hw ?_
  rintro _ ⟨⟩
  exact hleft

private theorem agree_some_placeable (h : Agrees v placeable) (atMargin : Bool)
    (hu : LeadsToLine u) :
    Agree v NextGoesOn never
      (placeable >>= fun e => pure (some (.placeable atMargin e))) u := by
  refine (h hu).bind_never fun e w hw hleft => agree_pure hw ?_
  rintro _ ⟨⟩ _ _ _
  exact hleft

private theorem agree_inLine (hv : OpensEntry v) (h : Agrees v placeable) (hu : LeadsToLine u)
    (hne : u ≠ []) :
    Agree v NextGoesOn never (inLine placeable) u := by
  obtain ⟨c, u, rfl⟩ := List.exists_cons_of_ne_nil hne
  have hrest : LeadsToLine u := hu.of_suffix (List.suffix_cons c u)
  by_cases hc : c = '{'
  · subst hc
    exact (agree_some_placeable h false hrest).of_eq rfl rfl
  · refine (agree_some_text hv none hu hne).of_eq ?_ ?_
    · rw [inLine_cons, if_neg hc]
    · rw [List.cons_append, inLine_cons, if_neg hc]

/-- At the start of a line, the end of the source and the start of an entry both end a pattern. -/
private theorem agree_atLine_seam (hv : OpensEntry v) :
    Agree v NextGoesOn never (atLine placeable) [] := by
  have hspaces := isSpace_eq_false hv
  have hdrop : v.dropWhile (· == ' ') = v := by
    simpa using dropWhile_append_of_head hspaces []
  have htake : v.takeWhile (· == ' ') = [] := by
    simpa using takeWhile_append_of_head hspaces []
  refine ⟨?_, leadsToLine_nil, by rintro _ ⟨⟩⟩
  rw [List.nil_append, atLine_apply, hdrop, htake]
  obtain ⟨c, w, hw, -⟩ := hv.exists_cons
  have hbrace : c ≠ '{' := fun hc =>
    hv.head?_ne (c := '{') (by decide) (by rw [hw, hc]; rfl)
  have hbreak : ¬ isBreak c := by
    have hblank := hv.isBlank_eq_false c (by rw [hw]; rfl)
    exact fun hc => by simp [isBlank_of_isBreak hc] at hblank
  rw [hw]
  simp [hbrace, hbreak]

private theorem agree_atLine (hv : OpensEntry v) (h : Agrees v placeable) (hu : LeadsToLine u) :
    Agree v NextGoesOn never (atLine placeable) u := by
  by_cases hne : u = []
  · subst hne
    exact agree_atLine_seam hv
  have hrest : LeadsToLine (u.dropWhile (· == ' ')) := hu.of_suffix (List.dropWhile_suffix _)
  obtain ⟨c, w, hw⟩ := List.exists_cons_of_ne_nil
      (hu.dropWhile_ne_nil hne (p := (· == ' ')) ⟨rfl, rfl⟩)
  have hdrop : (u ++ v).dropWhile (· == ' ') = c :: (w ++ v) := by
    rw [hu.dropWhile_append hne ⟨rfl, rfl⟩, hw, List.cons_append]
  have htake : (u ++ v).takeWhile (· == ' ') = u.takeWhile (· == ' ') :=
    hu.takeWhile_append hne ⟨rfl, rfl⟩ v
  have hline := atLine_apply placeable u
  have hlines := atLine_apply placeable (u ++ v)
  rw [hw] at hline hrest
  rw [hdrop, htake] at hlines
  dsimp only at hline hlines
  have htext (indent : Option Nat) : Agree v NextGoesOn never
      (textSegment indent >>= fun segment => pure (some segment)) (c :: w) :=
    agree_some_text hv indent hrest (List.cons_ne_nil c w)
  split_ifs at hline hlines
  · exact (agree_some_placeable h _ (hrest.of_suffix (List.suffix_cons c w))).of_eq hline hlines
  · exact (htext _).of_eq hline hlines
  · exact agree_ok hline hlines hrest (by rintro _ ⟨⟩)
  · exact agree_ok hline hlines hu (by rintro _ ⟨⟩)
  · exact (htext _).of_eq hline hlines

private theorem agree_segmentStep (hv : OpensEntry v) (h : Agrees v placeable) (startsLine : Bool)
    (read : List Segment) (hu : LeadsToLine u) (hleft : LineGoesOn startsLine read u) :
    Agree v (Outcome (LineGoesOn startsLine) fun _ _ => True) (Outcome never never)
      (segmentStep placeable startsLine read) u := by
  have hnext : Agree v NextGoesOn never (nextSegment placeable startsLine read) u := by
    unfold nextSegment
    split_ifs with hstart
    · exact agree_atLine hv h hu
    · exact agree_inLine hv h hu (hleft (by simpa using hstart))
  rw [segmentStep_eq]
  refine hnext.bind_never fun next w hw hsegment => ?_
  cases next with
  | none => exact agree_pure hw trivial
  | some segment => exact agree_pure hw (hsegment segment rfl startsLine read)

/-- A pattern that has something to read agrees. -/
theorem agree_pattern (hv : OpensEntry v) (h : Agrees v placeable) (hc : Contained placeable)
    (hu : LeadsToLine u) (hne : u ≠ []) :
    Agree v (fun _ _ => True) never (pattern placeable) u := by
  refine (agree_skipSpaces hv hu).bind_never fun _ w hw hleft => ?_
  refine (agree_acceptLineEnd hv hw).bind_never fun startsLine w' hw' hsame => ?_
  have hloop {rest : List Char} (hrest : LeadsToLine rest) (hgoes : LineGoesOn startsLine [] rest) :
      Agree v (fun _ _ => True) never
        (loop (segmentStep placeable startsLine) [] >>= fun segments =>
          pure (Pattern.ofSegments? segments)) rest :=
    (Agree.loop (advances_segmentStep hc startsLine)
      (fun read _ hu hgoes => agree_segmentStep hv h startsLine read hu hgoes) hrest
      hgoes).bind_never fun _ w hw _ => agree_pure hw trivial
  cases startsLine
  · refine hloop hw' fun _ => ?_
    rw [hsame rfl]
    exact hleft hne
  · exact (agree_skipBlankLines hv hw').bind_never fun _ w hw _ => hloop hw (by rintro ⟨⟩)

end Placeable

end Phrasebook.Reader
