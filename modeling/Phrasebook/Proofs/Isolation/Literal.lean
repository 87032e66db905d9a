import Phrasebook.Proofs.Isolation.Agreement

/-!
# Tokens before a seam

The single steps, the tokens and the literals agree on a source and on its continuation. Most of
them are given something to read; since a source ends in a line break, they leave something as well.
-/

namespace Phrasebook.Reader

open Text

variable {α : Type} {u v : List Char}

/-- Something is left. -/
def SomethingLeft (_ : α) (rest : List Char) : Prop := rest ≠ []

/-- Something is still left after a result is changed. -/
theorem Agree.then_pure {β : Type} {r : Reader α} (h : Agree v SomethingLeft never r u)
    (f : α → β) : Agree v SomethingLeft never (r >>= fun a => pure (f a)) u :=
  h.bind_never fun _ _ hw hleft => agree_pure hw hleft

/-! ## Single steps -/

/-- Blanks are not continued behind the seam. -/
theorem agree_skipBlanks (hv : OpensEntry v) (hu : LeadsToLine u) :
    Agree v (fun _ _ => True) never skipBlanks u := by
  refine ⟨?_, hu.of_suffix (List.dropWhile_suffix _), trivial⟩
  rw [skipBlanks_apply, dropWhile_append_of_head hv.isBlank_eq_false]

/-- An entry does not open with a space. -/
theorem isSpace_eq_false (hv : OpensEntry v) :
    ∀ c ∈ v.head?, (c == ' ') = false := by
  intro c hc
  have hblank := hv.isBlank_eq_false c hc
  by_contra hspace
  obtain rfl : c = ' ' := by simpa using hspace
  contradiction

/-- Spaces are not continued behind the seam, and a line break is left before it. -/
theorem agree_skipSpaces (hv : OpensEntry v) (hu : LeadsToLine u) :
    Agree v (fun _ w => u ≠ [] → w ≠ []) never skipSpaces u := by
  refine ⟨?_, hu.of_suffix (List.dropWhile_suffix _), fun hne => hu.dropWhile_ne_nil hne ⟨rfl, rfl⟩⟩
  rw [skipSpaces_apply, dropWhile_append_of_head (isSpace_eq_false hv),
    takeWhile_append_of_head (isSpace_eq_false hv)]

/-- A character is accepted before the seam or not at all. -/
theorem agree_accept {c : Char} (hv : u = [] → v.head? ≠ some c) (hc : isBreak c = false)
    (hu : LeadsToLine u) :
    Agree v (fun accepted w => if accepted then w ≠ [] else w = u) never (accept c) u := by
  rcases u with _ | ⟨d, u⟩
  · refine ⟨?_, hu, rfl⟩
    rcases v with _ | ⟨d, v⟩
    · rfl
    · have hd : d ≠ c := fun hd => hv rfl (by rw [hd]; rfl)
      simp [hd]
  · rw [Agree, accept_cons]
    by_cases hd : d = c
    · subst hd
      rw [if_pos rfl]
      refine ⟨by simp, hu.of_suffix (List.suffix_cons d u), hu.tail_ne_nil hc⟩
    · rw [if_neg hd]
      exact ⟨by simp [hd], hu, rfl⟩

/-- An expected character stands before the seam. -/
theorem agree_expect {c : Char} (hv : u = [] → v.head? ≠ some c) (hc : isBreak c = false)
    (hu : LeadsToLine u) :
    Agree v SomethingLeft never (expect c) u := by
  refine (agree_accept hv hc hu).bind_never fun accepted w hw hleft => ?_
  cases accepted
  · exact agree_fail _
  · exact agree_pure hw hleft

/-- A line end is accepted before the seam or not at all. -/
theorem agree_acceptLineEnd (hv : OpensEntry v) (hu : LeadsToLine u) :
    Agree v (fun accepted w => accepted = false → w = u) never acceptLineEnd u := by
  have happend := hu.afterLineEnd?_append hv.isBlank_eq_false
  unfold Agree acceptLineEnd
  rw [happend]
  cases he : afterLineEnd? u with
  | none => exact ⟨rfl, hu, fun _ => rfl⟩
  | some rest => exact ⟨rfl, hu.afterLineEnd? he, by rintro ⟨⟩⟩

/-- Blank lines are not continued behind the seam. -/
theorem agree_skipBlankLines (hv : OpensEntry v) (hu : LeadsToLine u) :
    Agree v (fun _ _ => True) never skipBlankLines u := by
  refine ⟨?_, hu.of_suffix (dropBlankLines_suffix u), trivial⟩
  rw [skipBlankLines_apply, hu.dropBlankLines_append hv.isBlank_eq_false]

/-- A run that no line break belongs to ends before the seam. -/
theorem agree_takeWhile {p : Char → Bool} (hp : p '\n' = false ∧ p '\r' = false)
    (hu : LeadsToLine u)
    (hne : u ≠ []) : Agree v SomethingLeft never (takeWhile p) u := by
  refine ⟨?_, hu.of_suffix (List.dropWhile_suffix _), hu.dropWhile_ne_nil hne hp⟩
  rw [takeWhile_apply, hu.dropWhile_append hne hp, hu.takeWhile_append hne hp]

/-- Identifiers have no line breaks. -/
theorem isBreak_eq_false_of_isIdentifierChar {c : Char} (h : isIdentifierChar c) :
    isBreak c = false := by
  by_contra hbreak
  rcases isBreak_iff.mp (Bool.not_eq_false _ ▸ hbreak) with rfl | rfl <;> contradiction

/-- Letters may stand in identifiers. -/
theorem isIdentifierChar_of_isAlpha {c : Char} (h : c.isAlpha) : isIdentifierChar c := by
  simp [isIdentifierChar, Char.isAlphanum, h]

/-- Identifiers end before the seam. -/
theorem agree_identifier (hu : LeadsToLine u) (hne : u ≠ []) :
    Agree v SomethingLeft never identifier u := by
  obtain ⟨c, u, rfl⟩ := List.exists_cons_of_ne_nil hne
  unfold Agree identifier
  by_cases hc : c.isAlpha
  · have hrest : LeadsToLine u := hu.of_suffix (List.suffix_cons c u)
    have hleft : u ≠ [] :=
      hu.tail_ne_nil (isBreak_eq_false_of_isIdentifierChar (isIdentifierChar_of_isAlpha hc))
    have hp : isIdentifierChar '\n' = false ∧ isIdentifierChar '\r' = false := by decide
    simp only [if_pos hc, List.cons_append]
    rw [hrest.dropWhile_append hleft hp, hrest.takeWhile_append hleft hp]
    exact ⟨rfl, hrest.of_suffix (List.dropWhile_suffix _), hrest.dropWhile_ne_nil hleft hp⟩
  · simp [if_neg hc]

/-- What was read is the same with a continuation as without. -/
theorem before_append_right {rest : List Char} (h : rest <:+ u) (v : List Char) :
    before (u ++ v) (rest ++ v) = before u rest := by
  obtain ⟨s, rfl⟩ := h
  rw [before_append, List.append_assoc, before_append]

/-- Two runs that agree have read the same text. -/
theorem Agree.withText {r : Reader α} {post : α → List Char → Prop} (hr : Contained r)
    (h : Agree v post never r u) :
    Agree v (fun result w => post result.1 w) never (withText r) u := by
  unfold Agree Ensures Reader.withText at *
  rcases hrun : r u with ⟨problem, w⟩ | ⟨a, w⟩
  · rw [hrun] at h
    rcases h with huv | ⟨hw, he⟩
    · exact Or.inl (by rw [huv])
    · refine Or.inr ⟨hw, ?_⟩
      rcases hstray : r (u ++ v) with failure | ⟨a, y⟩
      · rw [hstray] at he
        exact he
      · rw [hstray] at he
        exact he.elim
  · rw [hrun] at h
    obtain ⟨huv, hw, ha⟩ := h
    have hsuffix := hr.suffix_of_ok hrun
    refine ⟨?_, hw, ha⟩
    rw [huv]
    dsimp only
    rw [before_append_right hsuffix]

/-! ## Numbers -/

/-- Digits end before the seam. -/
theorem agree_digits (hu : LeadsToLine u) (hne : u ≠ []) :
    Agree v SomethingLeft never digits u := by
  refine (agree_takeWhile (by decide) hu hne).bind_never fun ds w hw hleft => ?_
  dsimp only
  split
  · exact agree_fail_bind _ _
  · exact agree_pure hw hleft

/-- The fraction of a number ends before the seam. -/
theorem agree_fraction (hu : LeadsToLine u) (hne : u ≠ []) :
    Agree v SomethingLeft never fraction u := by
  obtain ⟨c, u, rfl⟩ := List.exists_cons_of_ne_nil hne
  by_cases hc : c = '.'
  · subst hc
    have hrest : LeadsToLine u := hu.of_suffix (List.suffix_cons '.' u)
    have hleft : u ≠ [] := hu.tail_ne_nil (by decide)
    have hp : Char.isDigit '\n' = false ∧ Char.isDigit '\r' = false := by decide
    unfold Agree fraction
    simp only [List.cons_append]
    rw [hrest.dropWhile_append hleft hp, hrest.takeWhile_append hleft hp]
    by_cases hd : (u.takeWhile Char.isDigit).isEmpty
    · rw [if_pos hd, if_pos hd]
      exact ⟨rfl, hu, hne⟩
    · rw [if_neg hd, if_neg hd]
      exact ⟨rfl, hrest.of_suffix (List.dropWhile_suffix _), hrest.dropWhile_ne_nil hleft hp⟩
  · have hfraction (rest : List Char) : fraction (c :: rest) = .ok ([], c :: rest) := by
      simp [fraction, hc]
    rw [Agree, hfraction]
    exact ⟨hfraction _, hu, hne⟩

/-- Numbers end before the seam. -/
theorem agree_numberLiteral (hu : LeadsToLine u) (hne : u ≠ []) :
    Agree v SomethingLeft never numberLiteral u := by
  refine (agree_accept (fun h => absurd h hne) (by decide) hu).bind_never
    fun accepted w hw hleft => ?_
  have hleft' : w ≠ [] := by
    cases accepted
    · exact fun h => hne (hleft ▸ h)
    · exact hleft
  exact (agree_digits hw hleft').bind_never fun whole w hw hleft =>
    (agree_fraction hw hleft).then_pure _

/-! ## Strings -/

/-- The digits of an escape end before the seam. -/
theorem agree_codePoint (marker : Char) (count : Nat) (hu : LeadsToLine u) (hne : u ≠ []) :
    Agree v SomethingLeft never (codePoint marker count) u := by
  have hp : isHexDigit '\n' = false ∧ isHexDigit '\r' = false := by decide
  have htake : ((u ++ v).take count).takeWhile isHexDigit =
      (u.take count).takeWhile isHexDigit := by
    rw [List.take_append]
    by_cases hlen : count ≤ u.length
    · rw [Nat.sub_eq_zero_of_le hlen, List.take_zero, List.append_nil]
    · rw [List.take_of_length_le (by omega), hu.takeWhile_append hne hp]
  have hprefix : (u.take count).takeWhile isHexDigit <+: u :=
    (List.takeWhile_prefix _).trans (List.take_prefix _ _)
  -- The last character before the seam breaks a line and is no digit, so the digits leave
  -- something.
  have hdrop : u.drop ((u.take count).takeWhile isHexDigit).length ≠ [] := by
    intro hnil
    have hall : (u.take count).takeWhile isHexDigit = u := by
      refine hprefix.eq_of_length (Nat.le_antisymm hprefix.length_le ?_)
      exact List.drop_eq_nil_iff.mp hnil
    have hlast : isBreak (u.getLast hne) = true := hu _ (List.getLast?_eq_some_getLast hne)
    have hmem : u.getLast hne ∈ (u.take count).takeWhile isHexDigit := by
      rw [hall]
      exact List.getLast_mem hne
    have hhex := List.mem_takeWhile_imp hmem
    rcases isBreak_iff.mp hlast with hc | hc
    · rw [hc, hp.1] at hhex
      cases hhex
    · rw [hc, hp.2] at hhex
      cases hhex
  have hrest := hu.of_suffix (List.drop_suffix ((u.take count).takeWhile isHexDigit).length u)
  unfold Agree codePoint
  dsimp only
  rw [htake, List.drop_append_of_le_length hprefix.length_le]
  by_cases hlen : ((u.take count).takeWhile isHexDigit).length = count
  · rw [if_pos hlen, if_pos hlen]
    exact ⟨rfl, hrest, hdrop⟩
  · rw [if_neg hlen, if_neg hlen]
    exact Or.inl rfl

/-- Escapes end before the seam. -/
theorem agree_escape (hu : LeadsToLine u) (hne : u ≠ []) :
    Agree v SomethingLeft never escape u := by
  obtain ⟨c, u, rfl⟩ := List.exists_cons_of_ne_nil hne
  have hrest : LeadsToLine u := hu.of_suffix (List.suffix_cons c u)
  have hleft : isBreak c = false → u ≠ [] := hu.tail_ne_nil
  by_cases h₁ : c = '\\'
  · subst h₁
    exact ⟨rfl, hrest, hleft (by decide)⟩
  by_cases h₂ : c = '"'
  · subst h₂
    exact ⟨rfl, hrest, hleft (by decide)⟩
  by_cases h₃ : c = 'u'
  · subst h₃
    exact (agree_codePoint 'u' 4 hrest (hleft (by decide))).of_eq rfl rfl
  by_cases h₄ : c = 'U'
  · subst h₄
    exact (agree_codePoint 'U' 6 hrest (hleft (by decide))).of_eq rfl rfl
  · rw [Agree, escape_cons, if_neg h₁, if_neg h₂, if_neg h₃, if_neg h₄]
    refine Or.inl ?_
    rw [List.cons_append, escape_cons, if_neg h₁, if_neg h₂, if_neg h₃, if_neg h₄]

private theorem agree_stringStep (read : List Char) (hu : LeadsToLine u) (hne : u ≠ []) :
    Agree v (Outcome SomethingLeft fun _ w => ∃ rest, w = '"' :: rest) (Outcome never never)
      (stringStep read) u := by
  obtain ⟨c, u, rfl⟩ := List.exists_cons_of_ne_nil hne
  have hrest : LeadsToLine u := hu.of_suffix (List.suffix_cons c u)
  by_cases h₁ : c = '"'
  · subst h₁
    exact ⟨rfl, hu, u, rfl⟩
  by_cases h₂ : c = '\\'
  · subst h₂
    have hescape : Agree v (Outcome SomethingLeft fun _ w => ∃ rest, w = '"' :: rest)
        (Outcome never never)
        (escape >>= fun d => pure (.again (d :: read) : Step (List Char) (List Char))) u :=
      (agree_escape hrest (hu.tail_ne_nil (by decide))).bind_never fun _ w hw hleft =>
        agree_pure hw hleft
    exact hescape.of_eq rfl rfl
  by_cases h₃ : isBreak c
  · rw [Agree, stringStep_cons, if_neg h₁, if_neg h₂, if_pos h₃]
    refine Or.inl ?_
    rw [List.cons_append, stringStep_cons, if_neg h₁, if_neg h₂, if_pos h₃]
  · rw [Agree, stringStep_cons, if_neg h₁, if_neg h₂, if_neg h₃]
    refine ⟨?_, hrest, hu.tail_ne_nil (by simpa using h₃)⟩
    rw [List.cons_append, stringStep_cons, if_neg h₁, if_neg h₂, if_neg h₃]

/-- Strings end before the seam, since no line break stands in them. -/
theorem agree_stringLiteral (hu : LeadsToLine u) (hne : u ≠ []) :
    Agree v SomethingLeft never stringLiteral u := by
  refine (agree_expect (fun h => absurd h hne) (by decide) hu).bind_never fun _ w hw hleft => ?_
  have hloop : Agree v (fun _ w => ∃ rest, w = '"' :: rest) never (loop stringStep []) w :=
    Agree.loop advances_stringStep (fun read _ => agree_stringStep read) hw hleft
  refine (hloop.withText (.loop contained_stringStep [])).bind_never fun result w hw hquote => ?_
  obtain ⟨rest, rfl⟩ := hquote
  have hadvance : Agree v SomethingLeft never advance ('"' :: rest) :=
    ⟨rfl, hw.of_suffix (List.suffix_cons '"' rest), hw.tail_ne_nil (by decide)⟩
  exact hadvance.then_pure _

/-! ## Literals -/

/-- Whether a number starts is told before the seam. -/
theorem startsNumber_append (hu : LeadsToLine u) (hne : u ≠ []) :
    startsNumber (u ++ v) = startsNumber u := by
  obtain ⟨c, u, rfl⟩ := List.exists_cons_of_ne_nil hne
  rcases u with _ | ⟨d, u⟩
  · rcases isBreak_iff.mp (hu c rfl) with rfl | rfl <;> rfl
  · rfl

/-- No literal begins where an entry does. -/
theorem OpensEntry.no_literal (hv : OpensEntry v) :
    v.head? ≠ some '"' ∧ startsNumber v = false := by
  refine ⟨hv.head?_ne (by decide), ?_⟩
  have halpha {c : Char} (hc : c.isAlpha) : c.isDigit = false ∧ c ≠ '-' :=
    ⟨isDigit_eq_false_of_isAlpha hc, by rintro rfl; contradiction⟩
  rcases hv with (⟨c, name, spaces, tail, rfl, hc, -⟩ |
    ⟨_, rfl, c, name, spaces, tail, rfl, hc, -⟩) | ⟨w, rfl⟩
  · simp [startsNumber, halpha hc]
  · simp [startsNumber, halpha hc]
  · rfl

/-- Literals end before the seam. -/
theorem agree_literal (hv : OpensEntry v) (hu : LeadsToLine u) :
    Agree v SomethingLeft never literal u := by
  by_cases hne : u = []
  · subst hne
    obtain ⟨hquote, hnumber⟩ := OpensEntry.no_literal hv
    refine Or.inl ?_
    rw [List.nil_append, literal_apply, if_neg hquote, hnumber]
    rfl
  have hhead : (u ++ v).head? = u.head? := by
    rw [List.head?_append_of_ne_nil u hne]
  by_cases h₁ : u.head? = some '"'
  · have hstring :
        Agree v SomethingLeft never (stringLiteral >>= fun l => pure (Literal.string l)) u :=
      (agree_stringLiteral hu hne).then_pure _
    refine hstring.of_eq ?_ ?_
    · rw [literal_apply, if_pos h₁]
    · rw [literal_apply, hhead, if_pos h₁]
  by_cases h₂ : startsNumber u
  · have hnumber :
        Agree v SomethingLeft never (numberLiteral >>= fun l => pure (Literal.number l)) u :=
      (agree_numberLiteral hu hne).then_pure _
    refine hnumber.of_eq ?_ ?_
    · rw [literal_apply, if_neg h₁, if_pos h₂]
    · rw [literal_apply, hhead, if_neg h₁, startsNumber_append hu hne, if_pos h₂]
  · rw [Agree, literal_apply, if_neg h₁, if_neg h₂]
    refine Or.inl ?_
    rw [literal_apply, hhead, if_neg h₁, startsNumber_append hu hne, if_neg h₂]

end Phrasebook.Reader
