import Phrasebook.Proofs.Reflow.Expression

/-!
# Entries side by side

Entries are read from the start of a line, and so are attributes and the lines of a comment. What is
read in both texts is the same but for its place.
-/

namespace Phrasebook

open Text

/-- An entry, and the entry with other places. The content of junk is reflowed where it is known how
its first line stands, which is where no line is moved. -/
inductive Entry.Reflowed (f : Reflow) : Entry → Entry → Prop
  | message (m : Message) (span : Span) : Reflowed f (.message m) (.message { m with span })
  | term (t : Term) (span : Span) : Reflowed f (.term t) (.term { t with span })
  | comment (c : Comment) : Reflowed f (.comment c) (.comment c)
  | junk (j : Junk) (content : String) (place span : Span)
      (h : f.shift = 0 → content = String.ofList (f.flow j.content.toList)) :
      Reflowed f (.junk j) (.junk ⟨content, ⟨j.diagnostic.problem, place⟩, span⟩)

namespace Reader

variable {f : Reflow} {start : Bool} {u : List Char}

/-! ## Messages and terms -/

private theorem parallel_definition (hu : f.Suits start u) :
    Parallel f Same definition definition start u := by
  have hlevels := steady_levels f maxNesting
  refine (parallel_identifier hu).bind_inside fun id w hw =>
    (parallel_skipSpaces hw).bind fun _ _ place w hw hplace => ?_
  subst hplace
  refine (parallel_expect (by decide) hw).bind_inside fun _ w hw => ?_
  exact (parallel_pattern hlevels.placeable hlevels.contained.placeable hw).map_same _

private theorem parallel_attributeBody (hu : f.Suits start u) :
    Parallel f Same attributeBody attributeBody start u := by
  refine (parallel_definition hu).bind_same fun result place w hw => ?_
  split
  · exact parallel_pure hw rfl
  · exact parallel_fail _

private theorem parallel_attributeStep (read : List Attribute) (hu : f.Suits start u) :
    Parallel f (Outcomes Same Same) (attributeStep read) (attributeStep read) start u := by
  have hrest : f.Suits false (u.dropWhile (· == ' ')) := hu.of_suffix (List.dropWhile_suffix _)
  have hhead := hrest.head?_flowAt (c := '.') (by decide)
  by_cases hpoint : (u.dropWhile (· == ' ')).head? = some '.'
  · obtain ⟨w, hw⟩ := List.head?_eq_some_iff.mp hpoint
    have hflow : (f.flowAt start u).dropWhile (· == ' ') = '.' :: f.flowAt false w := by
      rw [hu.dropWhile_space, hw, f.flow_cons (by decide)]
      rfl
    rw [hw] at hrest
    refine Parallel.of_eq ?_ (attributeStep_point read hw) (attributeStep_point read hflow)
    exact (parallel_attributeBody hrest.tail).bind_same fun a place w hw => parallel_pure hw rfl
  · refine parallel_ok (attributeStep_of_ne read fun w hw => hpoint (by rw [hw]; rfl))
      (attributeStep_of_ne read fun w hw => hpoint (hhead.mp ?_)) hu rfl
    rw [f.flowAt_false, ← hu.dropWhile_space, hw]
    rfl

private theorem parallel_attributes (hu : f.Suits start u) :
    Parallel f Same attributes attributes start u := by
  refine Parallel.loop (I := Same) advances_attributeStep advances_attributeStep ?_ hu rfl
  rintro read _ start w hw rfl
  exact parallel_attributeStep _ hw

private theorem parallel_messageBody (hu : f.Suits start u) :
    Parallel f Same messageBody messageBody start u := by
  refine (parallel_definition hu).bind_same fun result place w hw =>
    (parallel_attributes hw).bind_same fun attributes place w hw => ?_
  dsimp only
  split
  · exact parallel_fail_bind _ _ _
  · exact parallel_pure hw rfl

private theorem parallel_termBody (hu : f.Suits start u) :
    Parallel f Same termBody termBody start u := by
  refine (parallel_expect (by decide) hu).bind_inside fun _ w hw =>
    (parallel_definition hw).bind_same fun result place w hw => ?_
  split
  · exact parallel_fail _
  · exact (parallel_attributes hw).map_same _

private theorem parallel_message (offset offset' : Nat) (hu : f.Suits start u) :
    Parallel f (fun m m' _ _ => ∃ span, m' = { m with span }) (message offset) (message offset')
      start u := by
  refine (parallel_messageBody hu).withText.bind fun result result' place w hw hsame => ?_
  obtain ⟨parts, text⟩ := result
  obtain ⟨_, text'⟩ := result'
  obtain rfl := hsame
  exact parallel_pure hw ⟨spanOf offset' text', rfl⟩

private theorem parallel_term (offset offset' : Nat) (hu : f.Suits start u) :
    Parallel f (fun t t' _ _ => ∃ span, t' = { t with span }) (term offset) (term offset')
      start u := by
  refine (parallel_termBody hu).withText.bind fun result result' place w hw hsame => ?_
  obtain ⟨parts, text⟩ := result
  obtain ⟨_, text'⟩ := result'
  obtain rfl := hsame
  exact parallel_pure hw ⟨spanOf offset' text', rfl⟩

/-! ## Comments -/

private theorem commentLevel_entry {text : List Char} (h : text.head? ≠ some '#') :
    commentLevel ('#' :: text) = .ok (.entry, text) := by
  rcases text with _ | ⟨c, text⟩
  · rfl
  · have hc : c ≠ '#' := by simpa using h
    simp [commentLevel, hc]

private theorem commentLevel_group {text : List Char} (h : text.head? ≠ some '#') :
    commentLevel ('#' :: '#' :: text) = .ok (.group, text) := by
  rcases text with _ | ⟨c, text⟩
  · rfl
  · have hc : c ≠ '#' := by simpa using h
    simp [commentLevel, hc]

private theorem commentLevel_resource {text : List Char} (h : text.head? ≠ some '#') :
    commentLevel ('#' :: '#' :: '#' :: text) = .ok (.resource, text) := by
  rcases text with _ | ⟨c, text⟩
  · rfl
  · have hc : c ≠ '#' := by simpa using h
    simp [commentLevel, hc]

/-- The mark of a comment is as long in both texts. -/
private theorem parallel_commentLevel (hu : f.Suits false ('#' :: u)) :
    Parallel f SameInside commentLevel commentLevel false ('#' :: u) := by
  have hflow {w : List Char} : f.flowAt false ('#' :: w) = '#' :: f.flowAt false w :=
    f.flow_cons (by decide) w
  have hnext {w : List Char} (hw : f.Suits false w) (h : w.head? ≠ some '#') :
      (f.flowAt false w).head? ≠ some '#' := (hw.head?_flowAt (by decide)).not.mpr h
  by_cases h₁ : u.head? = some '#'
  swap
  · refine parallel_ok (commentLevel_entry h₁) ?_ hu.tail ⟨rfl, rfl⟩
    rw [hflow]
    exact commentLevel_entry (hnext hu.tail h₁)
  obtain ⟨u, rfl⟩ := List.head?_eq_some_iff.mp h₁
  by_cases h₂ : u.head? = some '#'
  swap
  · refine parallel_ok (commentLevel_group h₂) ?_ hu.tail.tail ⟨rfl, rfl⟩
    rw [hflow, hflow]
    exact commentLevel_group (hnext hu.tail.tail h₂)
  obtain ⟨u, rfl⟩ := List.head?_eq_some_iff.mp h₂
  by_cases h₃ : u.head? = some '#'
  swap
  · refine parallel_ok (commentLevel_resource h₃) ?_ hu.tail.tail.tail ⟨rfl, rfl⟩
    rw [hflow, hflow, hflow]
    exact commentLevel_resource (hnext hu.tail.tail.tail h₃)
  obtain ⟨u, rfl⟩ := List.head?_eq_some_iff.mp h₃
  refine parallel_error_inside (w := '#' :: u) rfl ?_
  rw [hflow, hflow, hflow, hflow]
  rfl

private theorem isBreak_not_isLineChar (c : Char) (h : isBreak c = true) :
    isLineChar c = false := by
  simp [isLineChar, h]

private theorem parallel_commentLine (hu : f.Suits false u) :
    Parallel f Same commentLine commentLine false u := by
  have hline := commentLine_apply u
  have hflow := commentLine_apply (f.flowAt false u)
  rw [hu.afterLineEnd?] at hflow
  cases he : afterLineEnd? u with
  | some after =>
    rw [he] at hline hflow
    exact parallel_ok hline hflow (hu.of_afterLineEnd? he) rfl
  | none =>
    rw [he] at hline hflow
    rcases u with _ | ⟨c, u⟩
    · exact parallel_ok_inside rfl rfl hu rfl
    have hbreak : c ≠ '\n' := by
      rintro rfl
      contradiction
    rw [f.flowAt_false, f.flow_cons hbreak] at hflow
    simp only [Option.map_none] at hline hflow
    -- Behind its mark a line of a comment goes on with a space, or it is an error in both texts.
    by_cases hc : c = ' '
    · subst hc
      obtain ⟨htake, hdrop⟩ := hu.tail.span_flow isBreak_not_isLineChar
      have hrest : f.Suits false (u.dropWhile isLineChar) :=
        hu.tail.of_suffix (List.dropWhile_suffix _)
      rw [if_pos rfl] at hline hflow
      rw [htake, hdrop, ← f.flowAt_false (u.dropWhile _), hrest.afterLineEnd?] at hflow
      rw [← f.flow_cons hbreak, ← f.flowAt_false] at hflow
      cases hafter : afterLineEnd? (u.dropWhile isLineChar) with
      | some after =>
        rw [hafter] at hline hflow
        exact parallel_ok hline hflow (hrest.of_afterLineEnd? hafter) rfl
      | none =>
        rw [hafter] at hline hflow
        exact parallel_ok hline hflow hrest rfl
    · rw [if_neg hc] at hline hflow
      rw [← f.flow_cons hbreak, ← f.flowAt_false] at hflow
      exact parallel_error hline hflow

private theorem isPrefixOf?_flow {marks : List Char} (hmarks : ∀ c ∈ marks, c = '#')
    (hu : f.Suits false u) :
    marks.isPrefixOf? (f.flow u) = (marks.isPrefixOf? u).map f.flow := by
  induction marks generalizing u with
  | nil => simp [List.isPrefixOf?]
  | cons m marks ih =>
    obtain rfl := hmarks m List.mem_cons_self
    have hhead := hu.head?_flowAt (c := '#') (by decide)
    have hnone {w : List Char} (hw : w.head? ≠ some '#') :
        List.isPrefixOf? ('#' :: marks) w = none := by
      rcases w with _ | ⟨c, w⟩
      · rfl
      · have hc : '#' ≠ c := by simpa [eq_comm] using hw
        simp [List.isPrefixOf?, hc]
    by_cases h : u.head? = some '#'
    · obtain ⟨w, rfl⟩ := List.head?_eq_some_iff.mp h
      rw [f.flow_cons (by decide)]
      simpa [List.isPrefixOf?] using ih (fun d hd => hmarks d (List.mem_cons_of_mem _ hd)) hu.tail
    · rw [hnone h, ← f.flowAt_false, hnone (hhead.not.mpr h)]
      rfl

private theorem endsMark_flow (hu : f.Suits false u) :
    ((f.flow u).head?.all fun c => c == ' ' || isBreak c) =
      u.head?.all fun c => c == ' ' || isBreak c := by
  rcases u with _ | ⟨c, u⟩
  · rfl
  by_cases hc : c = '\n'
  · subst hc
    obtain ⟨d, e, hlineEnd, hd⟩ := f.isLineEnd.exists_cons
    rw [f.flow_lineFeed, hlineEnd]
    simp [hd]
  · rw [f.flow_cons hc]
    rfl

/-- A comment line of the level begins in both texts or in neither. -/
private theorem afterSigil?_flowAt (level : CommentLevel) (hu : f.Suits start u) :
    afterSigil? level (f.flowAt start u) = (afterSigil? level u).map f.flow := by
  have hnone {w : List Char} (hw : w.head? ≠ some '#') : afterSigil? level w = none := by
    cases hsigil : afterSigil? level w with
    | none => rfl
    | some rest =>
      obtain ⟨rfl, -⟩ := afterSigil?_eq_some hsigil
      cases level <;> exact absurd rfl hw
  by_cases h : u.head? = some '#'
  · obtain ⟨w, rfl⟩ := List.head?_eq_some_iff.mp h
    have hmarks : ∀ c ∈ level.sigil.toList, c = '#' := fun c hc => eq_of_mem_sigil hc
    rw [hu.flowAt_eq_flow (by decide), afterSigil?, afterSigil?, isPrefixOf?_flow hmarks hu.inLine]
    cases hprefix : level.sigil.toList.isPrefixOf? ('#' :: w) with
    | none => rfl
    | some rest =>
      have hrest : f.Suits false rest := by
        rw [List.isPrefixOf?_eq_some_iff_append_eq] at hprefix
        exact hu.of_suffix ⟨_, hprefix⟩
      simp only [Option.map_some, Option.filter_some, endsMark_flow hrest]
      split <;> rfl
  · rw [hnone h, hnone ((hu.head?_flowAt (by decide)).not.mpr h)]
    rfl

private theorem parallel_commentStep (level : CommentLevel) (read : List String)
    (hu : f.Suits start u) :
    Parallel f (Outcomes Same Same) (commentStep level read) (commentStep level read) start u := by
  have hline := commentStep_apply level read u
  have hflow := commentStep_apply level read (f.flowAt start u)
  rw [afterSigil?_flowAt level hu] at hflow
  cases hrest : afterSigil? level u with
  | none =>
    rw [hrest] at hline hflow
    exact parallel_ok hline hflow hu rfl
  | some rest =>
    simp only [hrest, Option.map_some] at hline hflow
    obtain ⟨htext, -⟩ := afterSigil?_eq_some hrest
    have hsuits : f.Suits false rest := hu.of_suffix ⟨_, htext.symm⟩
    rw [← f.flowAt_false] at hflow
    refine Parallel.of_eq ?_ hline hflow
    exact (parallel_commentLine hsuits).bind_same fun line place w hw => parallel_pure hw rfl

private theorem parallel_comment (hu : f.Suits false ('#' :: u)) :
    Parallel f Same comment comment false ('#' :: u) := by
  refine (parallel_commentLevel hu).bind_inside fun level w hw =>
    (parallel_commentLine hw).bind_same fun first place w hw => ?_
  have hloop : Parallel f Same (loop (commentStep level) [first]) (loop (commentStep level) [first])
      place w := by
    refine Parallel.loop (I := Same) (advances_commentStep level) (advances_commentStep level) ?_
      hw rfl
    rintro read _ start w hw rfl
    exact parallel_commentStep level _ hw
  exact hloop.map_same _

/-- Wherever they are run, the runs come to the same entry. -/
theorem parallel_entry (offset offset' : Nat) (hu : f.Suits start u) :
    Parallel f (fun e e' _ _ => e.Reflowed f e') (entry offset) (entry offset') start u := by
  have hline := entry_apply offset u
  have hflow := entry_apply offset' (f.flowAt start u)
  simp only [hu.head?_flowAt (c := '#') (by decide), hu.head?_flowAt (c := '-') (by decide)]
    at hflow
  split_ifs at hline hflow with hcomment
  · obtain ⟨w, rfl⟩ := List.head?_eq_some_iff.mp hcomment
    have hinside : f.flowAt start ('#' :: w) = f.flowAt false ('#' :: w) :=
      hu.flowAt_eq_flow (by decide)
    refine Parallel.of_eq ?_ hline (hflow.trans (congrArg _ hinside))
    exact (parallel_comment hu.inLine).bind_same fun c place w hw => parallel_pure hw (.comment c)
  · refine Parallel.of_eq ?_ hline hflow
    refine (parallel_term offset offset' hu).bind fun t _ place w hw ht => ?_
    obtain ⟨span, rfl⟩ := ht
    exact parallel_pure hw (.term t span)
  · refine Parallel.of_eq ?_ hline hflow
    refine (parallel_message offset offset' hu).bind fun m _ place w hw hm => ?_
    obtain ⟨span, rfl⟩ := hm
    exact parallel_pure hw (.message m span)

end Reader

end Phrasebook
