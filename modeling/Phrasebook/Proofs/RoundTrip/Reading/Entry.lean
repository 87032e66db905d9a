import Phrasebook.Proofs.Blocks
import Phrasebook.Proofs.RoundTrip.Reading.Expression

/-!
# What reading makes of a source

Every entry that is read from a source is sound. If no line of the source begins with a brace, then
no pattern in it has an indentation that its lines share.
-/

namespace Phrasebook

/-- A pattern that was read from a source: its lines share no indentation unless a line of the
source begins with a brace. -/
structure Pattern.From (source : List Char) (p : Pattern) : Prop where
  sound : p.Sound
  aligned : BraceFree source → p.Aligned

namespace Reader

variable {α β : Type} {source : List Char}

/-- A reader that also gives back the text it has read yields the same results. -/
theorem Yields.withText {r : Reader α} {P : α → Prop} (h : Yields source r P) :
    Yields source (withText r) fun result => P result.1 := by
  intro text htext
  rw [Ensures, Reader.withText]
  rcases hr : r text with failure | ⟨a, rest⟩
  · trivial
  · exact (h htext).ok hr

private theorem yields_entryPattern :
    Yields source entryPattern fun value => ∀ p ∈ value, p.InFull (Pattern.From source) :=
  yields_pattern (yields_levels (fun _ hsound haligned => ⟨hsound, haligned⟩) maxNesting)

private theorem yields_definition : Yields source definition fun result =>
    IsIdentifier result.1 ∧ ∀ p ∈ result.2, p.InFull (Pattern.From source) :=
  yields_identifier.bind fun _ hid => contained_skipSpaces.yields_true.bind fun _ _ =>
    (contained_expect '=').yields_true.bind fun _ _ =>
      yields_entryPattern.bind fun _ hvalue => yields_pure ⟨hid, hvalue⟩

private theorem yields_attributes : Yields source attributes fun attributes =>
    ∀ a ∈ attributes, a.Sound (Pattern.From source) := by
  refine Yields.loop (P := fun read => ∀ a ∈ read, a.Sound (Pattern.From source)) ?_ (by simp)
  intro read hread text htext
  have hbody : Yields source attributeBody fun a => a.Sound (Pattern.From source) := by
    refine yields_definition.bind fun result hresult => ?_
    rcases result with ⟨id, _ | value⟩
    · exact yields_fail _
    · exact yields_pure ⟨hresult.1, hresult.2 _ rfl⟩
  by_cases hpoint : ∃ rest, text.dropWhile (· == ' ') = '.' :: rest
  · obtain ⟨rest, hrest⟩ := hpoint
    have hsuffix : rest <:+ source := by
      refine (List.suffix_cons '.' rest).trans ?_
      rw [← hrest]
      exact (List.dropWhile_suffix _).trans htext
    rw [Ensures, attributeStep_point read hrest]
    refine Yields.bind_pure (f := fun a => .again (a :: read)) (Q := StepKind _ _) hbody ?_ hsuffix
    intro a ha b hb
    rcases List.mem_cons.mp hb with rfl | hb
    · exact ha
    · exact hread b hb
  · rw [Ensures, attributeStep_of_ne read fun rest hrest => hpoint ⟨rest, hrest⟩]
    exact ⟨fun a ha => hread a (List.mem_reverse.mp ha), htext⟩

private theorem yields_message (offset : Nat) :
    Yields source (message offset) fun m => m.Sound (Pattern.From source) := by
  have hbody : Yields source messageBody fun result =>
      IsIdentifier result.1 ∧ (∀ p ∈ result.2.1, p.InFull (Pattern.From source)) ∧
        (∀ a ∈ result.2.2, a.Sound (Pattern.From source)) ∧
        (result.2.1 = none → result.2.2 ≠ []) := by
    refine yields_definition.bind fun result hresult =>
      yields_attributes.bind fun attrs hattrs => ?_
    obtain ⟨id, value⟩ := result
    by_cases hnone : value.isNone && attrs.isEmpty
    · simp only [hnone, if_true]
      exact yields_fail _
    · simp only [hnone]
      refine yields_pure ⟨hresult.1, hresult.2, hattrs, ?_⟩
      rintro rfl rfl
      exact hnone rfl
  rw [message_eq]
  exact hbody.withText.bind fun result hresult => yields_pure
    { id := hresult.1
      value := fun p hp => (hresult.2.1 p hp).toLines
      attributes := hresult.2.2.1
      present := fun hnone => hresult.2.2.2 <| by
        rcases hvalue : result.1.2.1 with _ | p
        · rfl
        · have hpresent := (hresult.2.1 p hvalue).present
          rw [hvalue, Option.bind_some] at hnone
          rw [hnone] at hpresent
          cases hpresent
      comment := by rintro _ ⟨⟩ }

private theorem yields_term (offset : Nat) :
    Yields source (term offset) fun t => t.Sound (Pattern.From source) := by
  have hbody : Yields source termBody fun result =>
      IsIdentifier result.1 ∧ result.2.1.InFull (Pattern.From source) ∧
        ∀ a ∈ result.2.2, a.Sound (Pattern.From source) := by
    refine (contained_expect '-').yields_true.bind fun _ _ =>
      yields_definition.bind fun result hresult => ?_
    rcases result with ⟨id, _ | value⟩
    · exact yields_fail _
    · exact yields_attributes.bind fun attrs hattrs =>
        yields_pure ⟨hresult.1, hresult.2 _ rfl, hattrs⟩
  rw [term_eq]
  exact hbody.withText.bind fun result hresult => yields_pure
    { id := hresult.1
      value := hresult.2.1
      attributes := hresult.2.2
      comment := by rintro _ ⟨⟩ }

private theorem yields_commentLine : Yields source commentLine fun line =>
    ∀ d ∈ line.toList, Text.isBreak d = false := by
  refine contained_commentLine.yields fun text _ => ?_
  rw [Ensures, commentLine_apply]
  cases Text.afterLineEnd? text with
  | some rest => simp
  | none =>
    rcases text with _ | ⟨c, rest⟩
    · simp
    by_cases hc : c = ' '
    · simp only [if_pos hc, String.toList_ofList]
      intro d hd
      simpa [isLineChar] using List.mem_takeWhile_imp hd
    · simp only [if_neg hc]

private theorem yields_comment : Yields source comment Comment.Sound := by
  have hlevel : Yields source commentLevel fun _ => True := contained_commentLevel.yields_true
  refine hlevel.bind fun level _ => yields_commentLine.bind fun first hfirst => ?_
  refine (Yields.loop (P := fun read => read ≠ [] ∧
    ∀ line ∈ read, ∀ d ∈ line.toList, Text.isBreak d = false) (Q := fun lines => lines ≠ [] ∧
    ∀ line ∈ lines, ∀ d ∈ line.toList, Text.isBreak d = false) ?_ ?_).bind
    fun lines hlines => yields_pure ⟨hlines.1, hlines.2⟩
  · rintro read ⟨hne, hread⟩ text htext
    rw [Ensures, commentStep_apply]
    cases hsigil : afterSigil? level text with
    | none =>
      exact ⟨⟨by simpa using hne, fun line hline => hread line (by simpa using hline)⟩, htext⟩
    | some rest =>
      have hrest : rest <:+ source := by
        rw [(afterSigil?_eq_some hsigil).1] at htext
        exact (List.suffix_append _ rest).trans htext
      refine Yields.bind_pure (f := fun line => .again (line :: read)) (Q := StepKind _ _)
        yields_commentLine ?_ hrest
      intro line hline
      refine ⟨List.cons_ne_nil _ _, ?_⟩
      intro other hother
      rcases List.mem_cons.mp hother with rfl | hother
      · exact hline
      · exact hread other hother
  · exact ⟨List.cons_ne_nil _ _, by simpa using hfirst⟩

/-- An entry that is read from a source is sound. -/
theorem yields_entry (offset : Nat) :
    Yields source (entry offset) fun e => e.Sound (Pattern.From source) := by
  intro text htext
  rw [Ensures, entry_apply]
  split_ifs
  · exact Yields.bind_pure (f := .comment) (Q := Entry.Sound _) yields_comment (fun _ h => h) htext
  · exact Yields.bind_pure (f := .term) (Q := Entry.Sound _) (yields_term offset)
      (fun _ h => h) htext
  · exact Yields.bind_pure (f := .message) (Q := Entry.Sound _) (yields_message offset)
      (fun _ h => h) htext

end Reader

namespace Block

variable {source : List Char}

private theorem sound_read {text : List Char} (offset : Nat) (htext : text <:+ source) :
    (read offset text).1.entry.Sound (Pattern.From source) := by
  have hentry := Reader.yields_entry offset htext
  unfold read
  cases hr : Reader.entry offset text with
  | ok result => exact (hentry.ok hr).1
  | error failure => trivial

private theorem sound_all {text : List Char} (offset : Nat) (htext : text <:+ source) :
    ∀ b ∈ all offset text, b.entry.Sound (Pattern.From source) := by
  induction hn : text.length using Nat.strong_induction_on generalizing offset text with
  | _ n ih =>
    by_cases hne : text = []
    · subst hne
      rintro _ ⟨⟩
    rw [all_of_ne_nil offset hne]
    intro b hb
    rcases List.mem_cons.mp hb with rfl | hb
    · exact sound_read offset htext
    · exact ih _ (hn ▸ read_length_lt offset hne) _ ((read_suffix offset text).trans htext) rfl b hb

private theorem sound_joinComments {pattern : Pattern → Prop} {blocks : List Block}
    (h : ∀ b ∈ blocks, b.entry.Sound pattern) : ∀ e ∈ joinComments blocks, e.Sound pattern := by
  fun_induction joinComments blocks with
  | case1 lines m meets rest ih =>
    have hcomment : Comment.Sound ⟨.entry, lines⟩ := h _ List.mem_cons_self
    have hm : m.Sound pattern := h _ (List.mem_cons_of_mem _ List.mem_cons_self)
    have hrest := ih fun b hb => h b (List.mem_cons_of_mem _ (List.mem_cons_of_mem _ hb))
    rintro e (_ | ⟨_, he⟩)
    · exact { hm with comment := by rintro _ ⟨⟩; exact ⟨rfl, hcomment⟩ }
    · exact hrest e he
  | case2 lines t meets rest ih =>
    have hcomment : Comment.Sound ⟨.entry, lines⟩ := h _ List.mem_cons_self
    have ht : t.Sound pattern := h _ (List.mem_cons_of_mem _ List.mem_cons_self)
    have hrest := ih fun b hb => h b (List.mem_cons_of_mem _ (List.mem_cons_of_mem _ hb))
    rintro e (_ | ⟨_, he⟩)
    · exact { ht with comment := by rintro _ ⟨⟩; exact ⟨rfl, hcomment⟩ }
    · exact hrest e he
  | case3 block rest _ _ ih =>
    have hrest := ih fun b hb => h b (List.mem_cons_of_mem _ hb)
    rintro e (_ | ⟨_, he⟩)
    · exact h _ List.mem_cons_self
    · exact hrest e he
  | case4 => rintro _ ⟨⟩

end Block

/-- Every entry of a source is sound. -/
theorem Resource.sound_parse (source : String) :
    ∀ e ∈ (Resource.parse source).entries, e.Sound (Pattern.From source.toList) := by
  rw [entries_parse]
  exact Block.sound_joinComments (Block.sound_all _ (Text.dropBlankLines_suffix _))

end Phrasebook
