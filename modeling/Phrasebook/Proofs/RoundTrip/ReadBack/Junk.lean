import Phrasebook.Proofs.RoundTrip.ReadBack.End
import Phrasebook.Proofs.RoundTrip.ReadBack.Resource

/-!
# Junk read back

What the first entry of a text takes of it depends on what it is: junk takes the text up to a line
on which an entry may start, and a unit what stands before a text that can follow any unit. Junk is
read back before every text that is the same as what it was read before, up to where an entry opens:
there recovery ends, if it did not end before.
-/

namespace Phrasebook

open Text

/-! ## Up to where an entry opens -/

/-- Where an entry starts there are no blank lines to be passed over. -/
theorem Block.dropBlankLines_of_startsEntry {text : List Char}
    (h : text = [] ∨ startsEntry text) : dropBlankLines text = text := by
  rcases h with rfl | h
  · rfl
  · obtain ⟨c, rest, rfl, hc⟩ := startsEntry_iff.mp h
    exact dropBlankLines_cons (isBlank_eq_false_of_start hc) rest

/-- Two texts are the same, or the same up to the start of a line on which both open an entry. -/
def SameToEntry (text text' : List Char) : Prop :=
  text = text' ∨ ∃ u v v', text = u ++ v ∧ text' = u ++ v' ∧ LeadsToLine u ∧
    OpensEntry v ∧ OpensEntry v'

namespace SameToEntry

variable {text text' own : List Char}

/-- Texts that both open an entry are the same up to there. -/
theorem of_opensEntry (h : OpensEntry text) (h' : OpensEntry text') : SameToEntry text text' :=
  .inr ⟨[], text, text', rfl, rfl, leadsToLine_nil, h, h'⟩

/-- The same lines may be put in front of texts that are the same up to an entry. -/
theorem append (h : SameToEntry text text') (hown : text ≠ [] → LeadsToLine own) :
    SameToEntry (own ++ text) (own ++ text') := by
  rcases h with rfl | ⟨u, v, v', rfl, rfl, hu, hv, hv'⟩
  · exact .inl rfl
  · obtain ⟨c, rest, rfl, -⟩ := hv.exists_cons
    have hline := hown (by simp)
    exact .inr ⟨own ++ u, _, v', by simp, by simp, hline.append hu, hv, hv'⟩

/-- If the one text is nothing or begins an entry, no blank lines stand before the other. -/
theorem dropBlankLines_eq (h : SameToEntry text text')
    (hstart : text = [] ∨ Block.startsEntry text) : dropBlankLines text' = text' := by
  refine Block.dropBlankLines_of_startsEntry ?_
  rcases h with rfl | ⟨_ | ⟨c, u⟩, v, v', rfl, rfl, -, -, hv'⟩
  · exact hstart
  · exact .inr (Block.startsEntry_of_opensEntry hv')
  · exact .inr (hstart.resolve_left (by simp))

end SameToEntry

/-! ## First lines -/

/-- A text whose first line holds more than spaces. -/
def FirstLineShown (text : List Char) : Prop :=
  ∃ c rest, text.dropWhile (· == ' ') = c :: rest ∧ isBreak c = false

namespace FirstLineShown

variable {own rest : List Char}

/-- An entry stands at the start of a line, so the first line of a text is shown above it. -/
theorem of_append (hne : own ≠ []) (hline : rest ≠ [] → LeadsToLine own)
    (h : dropBlankLines (own ++ rest) = own ++ rest) : FirstLineShown own := by
  obtain ⟨-, -, -, hnil | ⟨-, c, tail, hfirst, hc⟩⟩ := dropBlankLines_spec (own ++ rest)
  · rw [h] at hnil
    exact absurd (List.append_eq_nil_iff.mp hnil).1 hne
  rw [h] at hfirst
  rcases hown : own.dropWhile (· == ' ') with _ | ⟨d, line⟩
  · by_cases hrest : rest = []
    · rw [hrest, List.append_nil, hown] at hfirst
      cases hfirst
    · exact absurd hown ((hline hrest).dropWhile_ne_nil hne ⟨rfl, rfl⟩)
  · rw [List.dropWhile_append, hown] at hfirst
    obtain ⟨rfl, -⟩ := List.cons_eq_cons.mp hfirst
    exact ⟨d, line, hown, hc⟩

/-- Behind the spaces in front of it a text goes on as before, whatever follows it. -/
theorem dropWhile_append {c : Char} {line : List Char}
    (h : own.dropWhile (· == ' ') = c :: line) (rest : List Char) :
    (own ++ rest).dropWhile (· == ' ') = c :: (line ++ rest) := by
  rw [List.dropWhile_append, h]
  rfl

/-- A first line that is shown is passed over by nothing, whatever follows the text. -/
theorem dropBlankLines_append (h : FirstLineShown own) (rest : List Char) :
    dropBlankLines (own ++ rest) = own ++ rest := by
  obtain ⟨c, line, hown, hc⟩ := h
  exact dropBlankLines_eq_self (dropWhile_append hown rest) hc

/-- Whether a unit goes on with a text shows on the first line. -/
theorem unitEnds (h : FirstLineShown own) (hends : Reader.UnitEnds (own ++ rest))
    (rest' : List Char) : Reader.UnitEnds (own ++ rest') := by
  obtain ⟨c, line, hown, -⟩ := id h
  have hne : own ≠ [] := by
    rintro rfl
    cases hown
  have hfirst := dropWhile_append hown
  have hshown := h.dropBlankLines_append
  refine ⟨fun d tail hd => ?_, fun tail hd => ?_⟩
  · have hpattern := hends.pattern c (line ++ rest) (by rw [hshown, hfirst])
    rw [hshown, hfirst] at hd
    obtain ⟨rfl, -⟩ := List.cons_eq_cons.mp hd
    rwa [hshown, List.head?_append_of_ne_nil own hne] at hpattern ⊢
  · rw [hshown, hfirst] at hd
    obtain ⟨rfl, -⟩ := List.cons_eq_cons.mp hd
    exact hends.point (line ++ rest) (by rw [hshown, hfirst])

end FirstLineShown

namespace Block

variable {text : List Char} {offset : Nat}

/-- Junk is read alike wherever its text stands. -/
theorem read_junk_offset {j : Junk} {rest : List Char}
    (h : read offset text = (⟨.junk j, false⟩, rest)) (offset' : Nat) :
    ∃ j' : Junk, j'.content = j.content ∧ read offset' text = (⟨.junk j', false⟩, rest) := by
  have hread := read_shift offset 0 text
  have hread' := read_shift offset' 0 text
  rw [Nat.add_zero] at hread hread'
  rw [h] at hread
  generalize read 0 text = atZero at hread hread'
  obtain ⟨⟨entry, meets⟩, after⟩ := atZero
  cases entry <;> cases hread
  refine ⟨_, ?_, hread'⟩
  rfl

/-- Junk is read back before a text that is the same up to where an entry opens. -/
theorem read_junk_same {own rest rest' : List Char} {j : Junk} {failure : Failure}
    (hsame : SameToEntry rest rest') (hne : own ≠ []) (hline : rest ≠ [] → LeadsToLine own)
    (hentry : Reader.entry offset (own ++ rest) = .error failure)
    (hread : read offset (own ++ rest) = (⟨.junk j, false⟩, rest)) (offset' : Nat) :
    ∃ j' : Junk, j'.content = j.content ∧
      read offset' (own ++ rest') = (⟨.junk j', false⟩, rest') := by
  rcases hsame with rfl | ⟨u, v, v', rfl, rfl, hu, hv, hv'⟩
  · exact read_junk_offset hread offset'
  -- Both texts go on with an entry behind `own ++ u`, which is read up to the seam.
  obtain ⟨c, tail, rfl, -⟩ := hv.exists_cons
  have hown : LeadsToLine (own ++ u) := (hline (by simp)).append hu
  have hne : own ++ u ≠ [] := by simp [hne]
  rw [← List.append_assoc] at hentry hread
  obtain ⟨seam, hseam⟩ : ∃ seam, Reader.entry offset (own ++ u) = .error seam := by
    have halike := Reader.failAlike_entry hv offset hown hne
    unfold Reader.FailAlike at halike
    rcases hr : Reader.entry offset (own ++ u) with seam | result
    · exact ⟨seam, rfl⟩
    · rw [hr, hentry] at halike
      obtain ⟨_, ⟨⟩⟩ := halike
  obtain ⟨content, span, d, d', halone, hbefore⟩ := junk_append hv offset hown hne hseam
  obtain ⟨content', span', _, d'', halone', hbefore'⟩ := junk_append hv' offset hown hne hseam
  rw [hread] at hbefore
  obtain ⟨hblock, hrest⟩ := Prod.mk.inj hbefore
  obtain rfl := Entry.junk.inj (Block.mk.inj hblock).1
  have hcontent : content' = content := by
    rw [halone] at halone'
    exact (Junk.mk.inj (Entry.junk.inj (Block.mk.inj (Prod.mk.inj halone').1).1)).1.symm
  have hbehind : (read offset (own ++ u)).2 = u := (List.append_cancel_right hrest).symm
  rw [hbehind, hcontent] at hbefore'
  rw [← List.append_assoc]
  exact read_junk_offset hbefore' offset'

/-! ## What an entry takes -/

/-- What the first entry of a text takes of it, and what it leaves. -/
inductive Takes (offset : Nat) : (text : List Char) → Entry → (rest : List Char) → Prop
  /-- Junk takes the text up to a line on which an entry may start. -/
  | junk {own rest : List Char} {j : Junk} {failure : Failure} (content : j.content.toList = own)
      (ne_nil : own ≠ []) (line : rest ≠ [] → LeadsToLine own)
      (starts : rest = [] ∨ startsEntry rest)
      (fails : Reader.entry offset (own ++ rest) = .error failure)
      (reads : read offset (own ++ rest) = (⟨.junk j, false⟩, rest)) :
      Takes offset (own ++ rest) (.junk j) rest
  | comment {text rest : List Char} {c : Comment} : Takes offset text (.comment c) rest
  /-- A unit opens an entry, with the comment that joins it, and leaves what can follow a unit. -/
  | unit {text rest : List Char} {e : Entry} (written : e.isJunk = false)
      (defined : e.isComment = false) (opens : OpensEntry text) (ends : Reader.UnitEnds rest) :
      Takes offset text e rest

/-- A block leaves no blank lines in front of the next one. -/
theorem dropBlankLines_read (offset : Nat) (text : List Char) :
    dropBlankLines (read offset text).2 = (read offset text).2 := by
  unfold read
  split <;> exact dropBlankLines_idem _

private theorem takes_junk {failure : Failure} (hne : text ≠ [])
    (h : Reader.entry offset text = .error failure) :
    Takes offset text (read offset text).1.entry (read offset text).2 := by
  have hsuffix := (Reader.contained_entry offset).suffix_of_error h
  obtain ⟨own, hown, htext, hcontent, -⟩ := junk_spec offset hne hsuffix
  have hstarts : (junk offset text failure).2 = [] ∨ startsEntry (junk offset text failure).2 :=
    nextEntry_eq_nil_or_startsEntry _
  have hread : read offset text =
      (⟨.junk (junk offset text failure).1, false⟩, (junk offset text failure).2) := by
    rw [read, h]
    exact Prod.ext rfl (dropBlankLines_of_startsEntry hstarts)
  have hline := read_atLine offset (List.suffix_rfl (l := text))
  rw [hread] at hline ⊢
  generalize junk offset text failure = result at *
  obtain ⟨j, rest⟩ := result
  subst htext
  refine .junk (by rw [hcontent, String.toList_ofList]) hown (fun hrest => ?_) hstarts h hread
  obtain ⟨front, hfront, hfrontLine⟩ := hline.resolve_left hrest
  rwa [List.append_cancel_right hfront]

/-- What is no junk was read as an entry. -/
private theorem entry_of_read (h : (read offset text).1.entry.isJunk = false) :
    ∃ after, Reader.entry offset text = .ok ((read offset text).1.entry, after) ∧
      (read offset text).2 = dropBlankLines after := by
  cases hr : Reader.entry offset text with
  | error failure =>
    simp only [read, hr] at h
    cases h
  | ok result => exact ⟨result.2, by simp only [read, hr], by rw [read, hr]⟩

/-- A unit is read where it opens, up to where it ends. -/
private theorem read_unit {span : Span} (h : (read offset text).1.entry.unitSpan? = some span) :
    StartsUnit text ∧ Reader.UnitEnds (read offset text).2 := by
  have hjunk : (read offset text).1.entry.isJunk = false := by
    generalize (read offset text).1.entry = e at h ⊢
    cases e with
    | junk j => cases h
    | _ => rfl
  obtain ⟨after, hread, hrest⟩ := entry_of_read hjunk
  have hleaves := Reader.unitLeaves_of_ok hread h
  rw [hrest, hleaves.shown]
  exact ⟨(Reader.startsUnit_of_ok hread h).1, hleaves.unitEnds⟩

private theorem opensEntry_of_comment {c : Comment} (h : (read offset text).1.entry = .comment c) :
    OpensEntry text := by
  obtain ⟨after, hread, -⟩ := entry_of_read (by rw [h]; rfl)
  rw [h, Reader.entry_apply] at hread
  split_ifs at hread with hhead
  · exact .inr (List.head?_eq_some_iff.mp hhead)
  · obtain ⟨t, mid, -, hpure⟩ := Reader.bind_eq_ok hread
    cases hpure
  · obtain ⟨m, mid, -, hpure⟩ := Reader.bind_eq_ok hread
    cases hpure

private theorem takes_read (offset : Nat) (hne : text ≠ []) :
    Takes offset text (read offset text).1.entry (read offset text).2 := by
  cases hr : Reader.entry offset text with
  | error failure => exact takes_junk hne hr
  | ok result =>
    obtain ⟨e, after⟩ := result
    have hentry : (read offset text).1.entry = e := by rw [read, hr]
    rw [hentry]
    cases e with
    | junk j => exact absurd rfl (Reader.entry_ne_junk hr j)
    | comment c => exact .comment
    | message m =>
      obtain ⟨hopens, hends⟩ := read_unit (congrArg Entry.unitSpan? hentry)
      exact .unit rfl rfl hopens.opensEntry hends
    | term t =>
      obtain ⟨hopens, hends⟩ := read_unit (congrArg Entry.unitSpan? hentry)
      exact .unit rfl rfl hopens.opensEntry hends

/-- A comment and the unit that it joins are taken together. -/
private theorem takes_joined {next : Nat} {e : Entry}
    (h : joined? (read offset text).1 (read next (read offset text).2).1 = some e) :
    Takes offset text e (read next (read offset text).2).2 := by
  obtain ⟨lines, hcomment, ⟨m, hunit, rfl⟩ | ⟨t, hunit, rfl⟩⟩ := exists_of_joined? h
  · exact .unit rfl rfl (opensEntry_of_comment hcomment)
      (read_unit (congrArg Entry.unitSpan? hunit)).2
  · exact .unit rfl rfl (opensEntry_of_comment hcomment)
      (read_unit (congrArg Entry.unitSpan? hunit)).2

/-- The entries of a text are the first, and those of what the first leaves. -/
theorem exists_takes (offset : Nat) (hne : text ≠ []) :
    ∃ e next rest, joinComments (all offset text) = e :: joinComments (all next rest) ∧
      rest.length < text.length ∧ dropBlankLines rest = rest ∧ Takes offset text e rest := by
  have hlt := read_length_lt offset hne
  have hall := all_of_ne_nil offset hne
  generalize offset + byteLength (before text (read offset text).2) = next at hall
  by_cases hrest : (read offset text).2 = []
  · refine ⟨_, next, _, ?_, hlt, dropBlankLines_read offset text, takes_read offset hne⟩
    rw [hall, hrest, all_nil, joinComments_singleton]
    rfl
  have hbelow := all_of_ne_nil next hrest
  cases hjoined : joined? (read offset text).1 (read next (read offset text).2).1 with
  | none =>
    refine ⟨_, next, _, ?_, hlt, dropBlankLines_read offset text, takes_read offset hne⟩
    rw [hall, hbelow, joinComments_cons_cons, hjoined]
  | some e =>
    have hlt' := read_length_lt next hrest
    generalize next + byteLength _ = next' at hbelow
    refine ⟨e, next', _, ?_, hlt'.trans hlt, dropBlankLines_read next _, takes_joined hjoined⟩
    rw [hall, hbelow, joinComments_cons_cons, hjoined]

end Block

end Phrasebook
