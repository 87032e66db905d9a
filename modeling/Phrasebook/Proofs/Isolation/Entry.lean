import Phrasebook.Proofs.Isolation.Expression

/-!
# Entries before a seam

An entry agrees on a source and on its continuation by a unit. Attributes and comment lines end at
the seam, since a unit begins with neither. A comment behind the seam can go on with one before it,
but then an entry can be read in both runs or in none.
-/

namespace Phrasebook.Reader

open Text

variable {u v : List Char}

/-! ## Messages and terms -/

private theorem agree_definition (hv : OpensEntry v) (hu : LeadsToLine u) (hne : u ≠ []) :
    Agree v (fun _ _ => True) never definition u := by
  have hlevels := agrees_levels hv maxNesting
  refine (agree_identifier hu hne).bind_never fun id w hw hleft =>
    (agree_skipSpaces hv hw).bind_never fun _ w hw hleft' => ?_
  have hequals : w = [] → v.head? ≠ some '=' := fun h => absurd h (hleft' hleft)
  refine (agree_expect hequals (by decide) hw).bind_never fun _ w hw hleft => ?_
  exact (agree_pattern hv hlevels.placeable hlevels.contained.placeable hw hleft).bind_never
    fun _ w hw _ => agree_pure hw trivial

private theorem agree_attributeBody (hv : OpensEntry v) (hu : LeadsToLine u) (hne : u ≠ []) :
    Agree v (fun _ _ => True) never attributeBody u := by
  refine (agree_definition hv hu hne).bind_never fun _ w hw _ => ?_
  split
  · exact agree_pure hw trivial
  · exact agree_fail _

private theorem agree_attributeStep (hv : OpensEntry v) (read : List Attribute)
    (hu : LeadsToLine u) :
    Agree v (Outcome (fun _ _ => True) fun _ _ => True) (Outcome never never)
      (attributeStep read) u := by
  have hrest : LeadsToLine (u.dropWhile (· == ' ')) := hu.of_suffix (List.dropWhile_suffix _)
  have hdrop := dropWhile_append_of_head (isSpace_eq_false hv) u
  by_cases hpoint : ∃ w, u.dropWhile (· == ' ') = '.' :: w
  · obtain ⟨w, hw⟩ := hpoint
    rw [hw] at hrest
    have hlines : (u ++ v).dropWhile (· == ' ') = '.' :: (w ++ v) := by
      rw [hdrop, hw, List.cons_append]
    refine Agree.of_eq ?_ (attributeStep_point read hw) (attributeStep_point read hlines)
    exact (agree_attributeBody hv (hrest.of_suffix (List.suffix_cons '.' w))
      (hrest.tail_ne_nil (by decide))).bind_never fun _ _ hw _ => agree_pure hw trivial
  · refine agree_ok (attributeStep_of_ne read fun w hw => hpoint ⟨w, hw⟩)
      (attributeStep_of_ne read fun w hw => ?_) hu trivial
    rw [hdrop] at hw
    rcases hd : u.dropWhile (· == ' ') with _ | ⟨c, rest⟩
    · rw [hd, List.nil_append] at hw
      exact hv.head?_ne (c := '.') (by decide) (by rw [hw]; rfl)
    · rw [hd] at hw
      cases hw
      exact hpoint ⟨rest, hd⟩

/-- Attribute lists end before the seam. -/
theorem agree_attributes (hv : OpensEntry v) (hu : LeadsToLine u) :
    Agree v (fun _ _ => True) never attributes u :=
  Agree.loop advances_attributeStep (fun read _ hu _ => agree_attributeStep hv read hu) hu trivial

private theorem agree_messageBody (hv : OpensEntry v) (hu : LeadsToLine u) (hne : u ≠ []) :
    Agree v (fun _ _ => True) never messageBody u := by
  refine (agree_definition hv hu hne).bind_never fun _ w hw _ =>
    (agree_attributes hv hw).bind_never fun _ w hw _ => ?_
  dsimp only
  split
  · exact agree_fail_bind _ _
  · exact agree_pure hw trivial

private theorem agree_termBody (hv : OpensEntry v) (hu : LeadsToLine u) (hne : u ≠ []) :
    Agree v (fun _ _ => True) never termBody u := by
  refine (agree_expect (fun h => absurd h hne) (by decide) hu).bind_never fun _ w hw hleft =>
    (agree_definition hv hw hleft).bind_never fun _ w hw _ => ?_
  split
  · exact agree_fail _
  · exact (agree_attributes hv hw).bind_never fun _ w hw _ => agree_pure hw trivial

/-! ## Comments -/

private theorem isPrefixOf?_append {marks : List Char} (hmarks : ∀ c ∈ marks, isBreak c = false)
    (hu : LeadsToLine u) (hne : u ≠ []) :
    marks.isPrefixOf? (u ++ v) = (marks.isPrefixOf? u).map (· ++ v) ∧
      ∀ rest ∈ marks.isPrefixOf? u, rest ≠ [] := by
  induction marks generalizing u with
  | nil =>
    refine ⟨by simp [List.isPrefixOf?], ?_⟩
    rintro _ ⟨⟩
    exact hne
  | cons m marks ih =>
    obtain ⟨c, u, rfl⟩ := List.exists_cons_of_ne_nil hne
    simp only [List.cons_append, List.isPrefixOf?]
    by_cases hc : m = c
    · subst hc
      have hrest : LeadsToLine u := hu.of_suffix (List.suffix_cons m u)
      have hleft := hu.tail_ne_nil (hmarks m List.mem_cons_self)
      simpa using ih (fun d hd => hmarks d (List.mem_cons_of_mem m hd)) hrest hleft
    · simp [hc]

private theorem afterSigil?_seam (hv : StartsUnit v) (level : CommentLevel) :
    afterSigil? level v = none := by
  obtain ⟨d, w, rfl, -⟩ := hv.exists_cons
  have hd : d ≠ '#' := fun hd => hv.head?_ne_mark (by rw [hd]; rfl)
  rw [afterSigil?]
  cases level <;> simp [CommentLevel.sigil, List.isPrefixOf?, Ne.symm hd]

/-- The mark of a comment line is not cut by the seam. -/
private theorem afterSigil?_append (hv : StartsUnit v) (level : CommentLevel) (hu : LeadsToLine u) :
    afterSigil? level (u ++ v) = (afterSigil? level u).map (· ++ v) ∧
      ∀ rest ∈ afterSigil? level u, rest ≠ [] := by
  by_cases hne : u = []
  · subst hne
    have hnil : afterSigil? level [] = none := by cases level <;> rfl
    rw [hnil, List.nil_append, afterSigil?_seam hv]
    exact ⟨rfl, by rintro _ ⟨⟩⟩
  have hmarks : ∀ c ∈ level.sigil.toList, isBreak c = false := by
    intro c hc
    rw [eq_of_mem_sigil hc]
    decide
  obtain ⟨happend, hleft⟩ := isPrefixOf?_append (v := v) hmarks hu hne
  rw [afterSigil?, afterSigil?, happend]
  cases hp : level.sigil.toList.isPrefixOf? u with
  | none => exact ⟨rfl, by rintro _ ⟨⟩⟩
  | some rest =>
    have hrest : rest ≠ [] := hleft rest hp
    have hhead : (rest ++ v).head? = rest.head? := List.head?_append_of_ne_nil rest hrest
    simp only [Option.map_some, Option.filter_some, hhead]
    split
    · refine ⟨rfl, ?_⟩
      rintro _ ⟨⟩
      exact hrest
    · exact ⟨rfl, by rintro _ ⟨⟩⟩

private theorem agree_commentLevel (hu : LeadsToLine u) (hne : u ≠ []) :
    Agree v SomethingLeft never commentLevel u := by
  obtain ⟨a, u, rfl⟩ := List.exists_cons_of_ne_nil hne
  by_cases ha : a = '#'
  swap
  · simp [Agree, commentLevel, ha]
  subst ha
  have hu₁ : LeadsToLine u := hu.of_suffix (List.suffix_cons '#' u)
  obtain ⟨b, u, rfl⟩ := List.exists_cons_of_ne_nil (hu.tail_ne_nil (by decide))
  by_cases hb : b = '#'
  swap
  · refine agree_ok (a := .entry) (w := b :: u) ?_ ?_ hu₁ (List.cons_ne_nil b u) <;>
      simp [commentLevel, hb]
  subst hb
  have hu₂ : LeadsToLine u := hu₁.of_suffix (List.suffix_cons '#' u)
  obtain ⟨c, u, rfl⟩ := List.exists_cons_of_ne_nil (hu₁.tail_ne_nil (by decide))
  by_cases hc : c = '#'
  swap
  · refine agree_ok (a := .group) (w := c :: u) ?_ ?_ hu₂ (List.cons_ne_nil c u) <;>
      simp [commentLevel, hc]
  subst hc
  have hu₃ : LeadsToLine u := hu₂.of_suffix (List.suffix_cons '#' u)
  obtain ⟨d, u, rfl⟩ := List.exists_cons_of_ne_nil (hu₂.tail_ne_nil (by decide))
  by_cases hd : d = '#'
  · subst hd
    exact Or.inl rfl
  · refine agree_ok (a := .resource) (w := d :: u) ?_ ?_ hu₃ (List.cons_ne_nil d u) <;>
      simp [commentLevel, hd]

private theorem agree_commentLine (hv : OpensEntry v) (hu : LeadsToLine u) (hne : u ≠ []) :
    Agree v (fun _ _ => True) never commentLine u := by
  have hline := commentLine_apply u
  have hlines := commentLine_apply (u ++ v)
  rw [hu.afterLineEnd?_append hv.isBlank_eq_false] at hlines
  cases he : afterLineEnd? u with
  | some after =>
    rw [he] at hline hlines
    exact agree_ok hline hlines (hu.afterLineEnd? he) trivial
  | none =>
    rw [he] at hline hlines
    obtain ⟨c, u, rfl⟩ := List.exists_cons_of_ne_nil hne
    simp only [Option.map_none, List.cons_append] at hline hlines
    by_cases hc : c = ' '
    · subst hc
      have hp : isLineChar '\n' = false ∧ isLineChar '\r' = false := by decide
      have hrest : LeadsToLine u := hu.of_suffix (List.suffix_cons ' ' u)
      have hleft : u ≠ [] := hu.tail_ne_nil (by decide)
      have hend : LeadsToLine (u.dropWhile isLineChar) := hrest.of_suffix (List.dropWhile_suffix _)
      rw [if_pos rfl] at hline hlines
      rw [hrest.takeWhile_append hleft hp, hrest.dropWhile_append hleft hp,
        hend.afterLineEnd?_append hv.isBlank_eq_false] at hlines
      cases hafter : afterLineEnd? (u.dropWhile isLineChar) with
      | some after =>
        rw [hafter] at hline hlines
        exact agree_ok hline hlines (hend.afterLineEnd? hafter) trivial
      | none =>
        rw [hafter] at hline hlines
        exact agree_ok hline hlines hend trivial
    · rw [if_neg hc] at hline hlines
      rw [Agree, hline]
      exact Or.inl hlines

private theorem agree_commentStep (hv : StartsUnit v) (level : CommentLevel) (read : List String)
    (hu : LeadsToLine u) :
    Agree v (Outcome (fun _ _ => True) fun _ _ => True) (Outcome never never)
      (commentStep level read) u := by
  have hline := commentStep_apply level read u
  have hlines := commentStep_apply level read (u ++ v)
  obtain ⟨happend, hleft⟩ := afterSigil?_append hv level hu
  rw [happend] at hlines
  cases hsigil : afterSigil? level u with
  | none =>
    rw [hsigil] at hline hlines
    exact agree_ok hline hlines hu trivial
  | some rest =>
    obtain ⟨htext, -⟩ := afterSigil?_eq_some hsigil
    simp only [hsigil, Option.map_some] at hline hlines
    refine Agree.of_eq ?_ hline hlines
    exact (agree_commentLine hv.opensEntry (hu.of_suffix ⟨_, htext.symm⟩)
      (hleft rest hsigil)).bind_never
      fun _ _ hw _ => agree_pure hw trivial

/-- Behind a mark that is followed by its space or its end, a comment line is read. -/
private theorem commentLine_total {text : List Char}
    (h : text.head?.all fun c => c == ' ' || isBreak c) :
      ∃ result, commentLine text = .ok result := by
  rw [commentLine_apply]
  cases he : afterLineEnd? text with
  | some rest => exact ⟨_, rfl⟩
  | none =>
    rcases text with _ | ⟨c, rest⟩
    · exact ⟨_, rfl⟩
    by_cases hc : c = ' '
    · simp only [if_pos hc]
      exact ⟨_, rfl⟩
    · have hbreak : isBreak c = true := by simpa [hc] using h
      rw [isBreak_of_afterLineEnd?_eq_none he c rfl] at hbreak
      cases hbreak

/-- Only the first line of a comment can be broken. -/
private theorem commentLines_total (level : CommentLevel) (read : List String)
    (text : List Char) : ∃ result, loop (commentStep level) read text = .ok result := by
  have hadvances := advances_commentStep level
  induction hn : text.length using Nat.strong_induction_on generalizing read text with
  | _ n ih =>
    have hstep := commentStep_apply level read text
    cases hsigil : afterSigil? level text with
    | none =>
      rw [hsigil] at hstep
      exact ⟨_, loop_done hadvances hstep⟩
    | some rest =>
      rw [afterSigil?, Option.filter_eq_some_iff] at hsigil
      have hsome : afterSigil? level text = some rest := by
        rw [afterSigil?, Option.filter_eq_some_iff]
        exact hsigil
      obtain ⟨⟨line, after⟩, hline⟩ := commentLine_total hsigil.2
      have hagain : commentStep level read text = .ok (.again (line :: read), after) := by
        rw [hstep, hsome]
        exact bind_ok hline
      -- A line that begins with the mark has been read, so the loop goes on below it.
      obtain ⟨result, hloop⟩ := ih _ (hn ▸ hadvances _ _ _ _ hagain) (line :: read) after rfl
      exact ⟨result, (loop_again hadvances hagain).trans hloop⟩

private theorem failAlike_comment (hv : OpensEntry v) (hu : LeadsToLine u) (hne : u ≠ []) :
    FailAlike v comment u := by
  refine .bind (agree_commentLevel hu hne) fun level w hw hleft =>
    .bind (agree_commentLine hv hw hleft) fun first w _ _ => failAlike_of_total fun text => ?_
  obtain ⟨⟨lines, rest⟩, hloop⟩ := commentLines_total level [first] text
  exact ⟨_, bind_ok hloop⟩

private theorem agree_comment (hv : StartsUnit v) (hu : LeadsToLine u) (hne : u ≠ []) :
    Agree v (fun _ _ => True) never comment u := by
  refine (agree_commentLevel hu hne).bind_never fun level w hw hleft =>
    (agree_commentLine hv.opensEntry hw hleft).bind_never fun first w hw _ => ?_
  have hloop : Agree v (fun _ _ => True) never (loop (commentStep level) [first]) w :=
    Agree.loop (advances_commentStep level)
      (fun read _ hu _ => agree_commentStep hv level read hu) hw trivial
  exact hloop.map_pure _

private theorem agree_term (hv : OpensEntry v) (offset : Nat) (hu : LeadsToLine u) (hne : u ≠ []) :
    Agree v (fun _ _ => True) never (term offset) u :=
  ((agree_termBody hv hu hne).withText contained_termBody).map_pure _

private theorem agree_message (hv : OpensEntry v) (offset : Nat) (hu : LeadsToLine u)
    (hne : u ≠ []) : Agree v (fun _ _ => True) never (message offset) u :=
  ((agree_messageBody hv hu hne).withText contained_messageBody).map_pure _

/-- Before a unit an entry agrees, if there is something to read. -/
theorem agree_entry (hv : StartsUnit v) (offset : Nat) (hu : LeadsToLine u) (hne : u ≠ []) :
    Agree v (fun _ _ => True) never (entry offset) u := by
  have hline := entry_apply offset u
  have hlines := entry_apply offset (u ++ v)
  rw [List.head?_append_of_ne_nil u hne] at hlines
  split_ifs at hline hlines
  · exact ((agree_comment hv hu hne).map_pure _).of_eq hline hlines
  · exact ((agree_term hv.opensEntry offset hu hne).map_pure _).of_eq hline hlines
  · exact ((agree_message hv.opensEntry offset hu hne).map_pure _).of_eq hline hlines

/-- Before any entry, an entry can be read as it can before nothing. -/
theorem failAlike_entry (hv : OpensEntry v) (offset : Nat) (hu : LeadsToLine u) (hne : u ≠ []) :
    FailAlike v (entry offset) u := by
  have hline := entry_apply offset u
  have hlines := entry_apply offset (u ++ v)
  rw [List.head?_append_of_ne_nil u hne] at hlines
  split_ifs at hline hlines
  · exact ((failAlike_comment hv hu hne).map_pure _).of_eq hline hlines
  · exact ((agree_term hv offset hu hne).map_pure _).failAlike.of_eq hline hlines
  · exact ((agree_message hv offset hu hne).map_pure _).failAlike.of_eq hline hlines

end Phrasebook.Reader
