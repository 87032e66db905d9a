import Phrasebook.Proofs.Blocks
import Phrasebook.Proofs.RoundTrip.ReadBack.Entry

/-!
# Resources read back

The text of a resource is read back entry by entry: a unit with the comment above it, and a comment
of its own as one that nothing joins, since an empty line stands below it. What is read back are all
entries but junk, with their patterns dedented and without what is not written.
-/

namespace Phrasebook

open Text
open Piece (Writes)

variable {Q : Pattern → Prop} {more : List Char}

/-- The empty line before a comment that stands alone. -/
def Entry.gapText : Entry → List Char
  | .comment _ => ['\n']
  | _ => []

/-- A comment that stands alone. -/
def Entry.isComment : Entry → Bool
  | .comment _ => true
  | _ => false

/-- The text of the entries of a resource. -/
def Resource.written : List Entry → List Char
  | [] => []
  | first :: rest => first.written ++ rest.flatMap fun e => e.gapText ++ e.written

private theorem writes_gap (e : Entry) : Writes true e.gap e.gapText true := by
  cases e with
  | comment c => exact Piece.writes_newline
  | _ => exact Piece.writes_nil

private theorem writes_others {entries : List Entry} (h : ∀ e ∈ entries, e.Sound Q)
    (hjunk : ∀ e ∈ entries, e.isJunk = false) :
    Writes true (entries.flatMap fun e => e.gap ++ e.pieces)
      (entries.flatMap fun e => e.gapText ++ e.written) true := by
  induction entries with
  | nil => exact Piece.writes_nil
  | cons e rest ih =>
    have hentry : Writes true e.pieces e.written true :=
      (h e List.mem_cons_self).writes (hjunk e List.mem_cons_self)
    have hrest := ih (fun e he => h e (List.mem_cons_of_mem _ he))
      fun e he => hjunk e (List.mem_cons_of_mem _ he)
    exact ((writes_gap e).append hentry).append hrest

/-- A resource is printed without its junk as the text of its other entries. -/
theorem Resource.print_eq {r : Resource} (h : ∀ e ∈ r.entries, e.Sound Q) :
    (Resource.print false r).toList =
      Resource.written (r.entries.filter fun e => !e.isJunk) := by
  have hsound : ∀ e ∈ r.entries.filter fun e => !e.isJunk, e.Sound Q :=
    fun e he => h e (List.mem_of_mem_filter he)
  have hjunk : ∀ e ∈ r.entries.filter fun e => !e.isJunk, e.isJunk = false :=
    fun e he => by simpa using List.of_mem_filter he
  have hprint : (Resource.print false r).toList =
      Piece.layout false (Resource.pieces (r.entries.filter fun e => !e.isJunk)) := by
    simp [Resource.print]
  rw [hprint]
  generalize r.entries.filter (fun e => !e.isJunk) = entries at hsound hjunk ⊢
  rcases entries with _ | ⟨first, rest⟩
  · rfl
  have hfirst : Writes false first.pieces first.written true :=
    (hsound first List.mem_cons_self).writes (hjunk first List.mem_cons_self)
  have hrest := writes_others (fun e he => hsound e (List.mem_cons_of_mem _ he))
    fun e he => hjunk e (List.mem_cons_of_mem _ he)
  exact (hfirst.append hrest).layout

/-! ## First characters -/

/-- A definition is written with the letter in front that its name begins with. -/
theorem definitionText_begins {id : String} (hid : IsIdentifier id) (value : Option Pattern)
    (attributes : List Attribute) :
    ∃ c rest, definitionText id value attributes = c :: rest ∧ c.isAlpha := by
  obtain ⟨c, rest, hname, hc, -⟩ := hid
  exact ⟨c, _, by rw [definitionText, hname, List.cons_append], hc⟩

/-- A comment is written with its mark in front. -/
theorem Comment.Sound.begins {c : Comment} (h : c.Sound) : ∃ rest, c.written = '#' :: rest := by
  obtain ⟨level, _ | ⟨line, lines⟩⟩ := c
  · exact absurd rfl h.ne_nil
  obtain ⟨mark, hmark⟩ : ∃ mark, level.sigil.toList = '#' :: mark := by
    cases level <;> exact ⟨_, rfl⟩
  exact ⟨_, by rw [Comment.written, List.flatMap_cons, hmark, List.cons_append, List.cons_append]⟩

/-- An entry begins with a letter, or with the mark of a term or comment. -/
theorem Entry.Sound.begins {e : Entry} (h : e.Sound Q) (hjunk : e.isJunk = false) :
    ∃ c rest, e.written = c :: rest ∧ (c.isAlpha ∨ c = '-' ∨ c = '#') := by
  cases e with
  | message m =>
    rw [Entry.written]
    cases hcomment : m.comment with
    | none =>
      obtain ⟨c, rest, htext, hc⟩ :=
        definitionText_begins (Message.Sound.id h) m.value m.attributes
      exact ⟨c, rest, htext, Or.inl hc⟩
    | some c =>
      obtain ⟨rest, htext⟩ := (Message.Sound.comment h c hcomment).2.begins
      exact ⟨'#', _, by rw [Option.elim_some, htext, List.cons_append], by simp⟩
  | term t =>
    rw [Entry.written]
    cases hcomment : t.comment with
    | none => exact ⟨'-', _, rfl, by simp⟩
    | some c =>
      obtain ⟨rest, htext⟩ := (Term.Sound.comment h c hcomment).2.begins
      exact ⟨'#', _, by rw [Option.elim_some, htext, List.cons_append], by simp⟩
  | comment c =>
    obtain ⟨rest, htext⟩ := Comment.Sound.begins h
    exact ⟨'#', _, by rw [Entry.written, htext, List.cons_append], by simp⟩
  | junk j => cases hjunk

/-- Behind the empty line before it, and any others, an entry begins. -/
theorem Entry.Sound.dropBlankLines_gapText {e : Entry} (h : e.Sound Q) (hjunk : e.isJunk = false)
    (rest : List Char) :
    dropBlankLines (e.gapText ++ (e.written ++ rest)) = e.written ++ rest := by
  obtain ⟨c, tail, htext, hc⟩ := h.begins hjunk
  have hblank := isBlank_eq_false_of_start hc
  have hentry : dropBlankLines (e.written ++ rest) = e.written ++ rest := by
    rw [htext]
    exact dropBlankLines_cons hblank _
  cases e with
  | comment c => exact (Reader.dropBlankLines_newline _).trans hentry
  | _ => exact hentry

/-- An entry that is not junk begins where it is written, behind the gap above it. -/
theorem Entry.Sound.entryBegins {e : Entry} (h : e.Sound Q) (hjunk : e.isJunk = false)
    (rest : List Char) : Reader.EntryBegins (e.gapText ++ (e.written ++ rest)) := by
  obtain ⟨c, tail, htext, hc⟩ := h.begins hjunk
  rw [Reader.EntryBegins, h.dropBlankLines_gapText hjunk, htext]
  rintro _ ⟨⟩
  exact hc

private theorem entryBegins_others {entries : List Entry} (h : ∀ e ∈ entries, e.Sound Q)
    (hjunk : ∀ e ∈ entries, e.isJunk = false) :
    Reader.EntryBegins (entries.flatMap fun e => e.gapText ++ e.written) := by
  rcases entries with _ | ⟨e, rest⟩
  · rintro _ ⟨⟩
  rw [List.flatMap_cons, List.append_assoc]
  exact (h e List.mem_cons_self).entryBegins (hjunk e List.mem_cons_self) _

/-! ## Blocks read back -/

/-- Without its mark in front, a text is no line of a comment. -/
theorem Reader.afterSigil?_eq_none {text : List Char} (h : text.head? ≠ some '#')
    (level : CommentLevel) : afterSigil? level text = none := by
  rw [← Option.not_isSome_iff_eq_none, Option.isSome_iff_exists]
  rintro ⟨rest, hrest⟩
  rw [(afterSigil?_eq_some hrest).1] at h
  cases level <;> exact h rfl

namespace Block

variable {text : List Char}

/-- An entry that is read with the blank lines below it is one block. -/
private theorem all_of_unit {offset : Nat} {e : Entry} (hne : text ≠ [])
    (h : Reader.entry offset text = .ok (e, dropBlankLines more)) :
    ∃ meets next, all offset text = ⟨e, meets⟩ :: all next (dropBlankLines more) := by
  rw [all_of_ne_nil offset hne, read, h]
  simp only [dropBlankLines_idem]
  exact ⟨_, _, rfl⟩

/-- A comment is one block, which meets what stands directly below it. -/
private theorem all_of_comment {c : Comment} (hc : c.Sound) (offset : Nat)
    (hmore : more.head? ≠ some '#') :
    ∃ next, all offset (c.written ++ more) =
      ⟨.comment c.plain, (dropBlankLines more).length = more.length &&
        !(dropBlankLines more).isEmpty⟩ :: all next (dropBlankLines more) := by
  obtain ⟨rest, htext⟩ := hc.begins
  have hne : c.written ++ more ≠ [] := by simp [htext]
  have hhead : (c.written ++ more).head? = some '#' := by simp [htext]
  have hentry : Reader.entry offset (c.written ++ more) = .ok (.comment c.plain, more) := by
    rw [Reader.entry_apply, if_pos hhead,
      Reader.bind_ok (Reader.comment_reads hc (Reader.afterSigil?_eq_none hmore _))]
    rfl
  rw [all_of_ne_nil offset hne, read, hentry]
  exact ⟨_, rfl⟩

/-- A unit is read back with the comment above it. -/
private theorem joinComments_below (unit : Option Comment → Span → Entry)
    (hjoined : ∀ lines span meets,
      joined? ⟨.comment ⟨.entry, lines⟩, true⟩ ⟨unit none span, meets⟩ =
      some (unit (some ⟨.entry, lines⟩) span))
    (hunit : ∀ span c, unit none span ≠ .comment c)
    (hbegins : ∃ c rest, text = c :: rest ∧ isBlank c = false ∧ c ≠ '#')
    (hread : ∀ offset, ∃ span,
      Reader.entry offset text = .ok (unit none span, dropBlankLines more))
    {comment : Option Comment} (hcomment : ∀ c ∈ comment, c.level = .entry ∧ c.Sound)
    (offset : Nat) :
    ∃ span next, joinComments (all offset (comment.elim [] Comment.written ++ text)) =
      unit (comment.map Comment.plain) span :: joinComments (all next (dropBlankLines more)) := by
  obtain ⟨c, rest, rfl, hblank, hmark⟩ := hbegins
  cases comment with
  | none =>
    obtain ⟨span, hentry⟩ := hread offset
    obtain ⟨meets, next, hall⟩ := all_of_unit (List.cons_ne_nil c rest) hentry
    refine ⟨span, next, ?_⟩
    rw [Option.elim_none, List.nil_append, hall, ← List.singleton_append, joinComments_append,
      joinComments_singleton]
    · rfl
    · rintro _ ⟨⟩ d hd
      exact absurd hd (hunit span d)
  | some comment =>
    obtain ⟨hlevel, hsound⟩ := hcomment comment rfl
    have hhead : (c :: rest).head? ≠ some '#' := by simpa using hmark
    obtain ⟨next, hall⟩ := all_of_comment hsound offset hhead
    obtain ⟨span, hentry⟩ := hread next
    obtain ⟨meets, next', hall'⟩ := all_of_unit (List.cons_ne_nil c rest) hentry
    refine ⟨span, next', ?_⟩
    have hplain : comment.plain = ⟨.entry, comment.plain.lines⟩ := by
      obtain ⟨level, lines⟩ := comment
      obtain rfl : level = .entry := hlevel
      rfl
    -- The unit stands directly below the comment, so that the two are joined.
    rw [Option.elim_some, Option.map_some, hall, dropBlankLines_cons hblank, hall',
      joinComments_cons_cons, hplain]
    simp only [decide_true, List.isEmpty_cons, Bool.not_false, Bool.and_self, hjoined]

/-- A message is read back with the comment above it. -/
private theorem joinComments_message {m : Message} (h : m.Sound Q) (hmore : Reader.UnitEnds more)
    (offset : Nat) :
    ∃ e next, e.plain = (Entry.message m).dedent.plain ∧
      joinComments (all offset ((Entry.message m).written ++ more)) =
        e :: joinComments (all next (dropBlankLines more)) := by
  obtain ⟨c, rest, htext, hc⟩ := definitionText_begins h.id m.value m.attributes
  have hne (d : Char) (hd : d.isAlpha = false) : c ≠ d := by
    rintro rfl
    rw [hc] at hd
    cases hd
  have hbegins : ∃ c rest, definitionText m.id m.value m.attributes ++ more = c :: rest ∧
      isBlank c = false ∧ c ≠ '#' :=
    ⟨c, rest ++ more, by rw [htext, List.cons_append], isBlank_eq_false_of_isAlpha hc, hne _ rfl⟩
  have hread (offset : Nat) : ∃ span, Reader.entry offset
      (definitionText m.id m.value m.attributes ++ more) = .ok (.message
        ⟨m.id, m.value.bind Pattern.dedent?, m.attributes.map Attribute.dedent, none, span⟩,
        dropBlankLines more) := by
    obtain ⟨span, hmessage⟩ := Reader.message_reads h hmore offset
    have hhead (d : Char) (hd : d.isAlpha = false) :
        (definitionText m.id m.value m.attributes ++ more).head? ≠ some d := by
      simpa [htext] using hne d hd
    refine ⟨span, ?_⟩
    rw [Reader.entry_apply, if_neg (hhead _ rfl), if_neg (hhead _ rfl), Reader.bind_ok hmessage]
    rfl
  obtain ⟨span, next, hjoin⟩ := joinComments_below
    (fun comment span => .message
      ⟨m.id, m.value.bind Pattern.dedent?, m.attributes.map Attribute.dedent, comment, span⟩)
    (fun _ _ _ => rfl) (by rintro _ _ ⟨⟩) hbegins hread h.comment offset
  refine ⟨_, next, ?_, by rw [Entry.written, List.append_assoc, hjoin]⟩
  simp [Entry.plain, Entry.dedent, Function.comp_def]

/-- A term is read back with the comment above it. -/
private theorem joinComments_term {t : Term} (h : t.Sound Q) (hmore : Reader.UnitEnds more)
    (offset : Nat) :
    ∃ e next, e.plain = (Entry.term t).dedent.plain ∧
      joinComments (all offset ((Entry.term t).written ++ more)) =
        e :: joinComments (all next (dropBlankLines more)) := by
  have hbegins : ∃ c rest, '-' :: (definitionText t.id (some t.value) t.attributes ++ more) =
      c :: rest ∧ isBlank c = false ∧ c ≠ '#' := ⟨'-', _, rfl, rfl, by decide⟩
  have hread (offset : Nat) : ∃ span, Reader.entry offset
      ('-' :: (definitionText t.id (some t.value) t.attributes ++ more)) = .ok (.term
        ⟨t.id, t.value.dedent, t.attributes.map Attribute.dedent, none, span⟩,
        dropBlankLines more) := by
    obtain ⟨span, hterm⟩ := Reader.term_reads h hmore offset
    refine ⟨span, ?_⟩
    rw [Reader.entry_apply, if_neg (by simp), if_pos List.head?_cons, Reader.bind_ok hterm]
    rfl
  obtain ⟨span, next, hjoin⟩ := joinComments_below
    (fun comment span => .term
      ⟨t.id, t.value.dedent, t.attributes.map Attribute.dedent, comment, span⟩)
    (fun _ _ _ => rfl) (by rintro _ _ ⟨⟩) hbegins hread h.comment offset
  refine ⟨_, next, ?_, by rw [Entry.written, List.append_assoc, List.cons_append, hjoin]⟩
  simp [Entry.plain, Entry.dedent, Function.comp_def]

/-- A comment that stands alone is read back alone, whatever stands below the line behind it. -/
private theorem joinComments_comment {c : Comment} (h : c.Sound) (offset : Nat) :
    ∃ next, joinComments (all offset ((Entry.comment c).written ++ more)) =
      .comment c.plain :: joinComments (all next (dropBlankLines more)) := by
  have hhead : ('\n' :: more).head? ≠ some '#' := by simp
  obtain ⟨next, hall⟩ := all_of_comment h offset hhead
  have hapart : ((dropBlankLines ('\n' :: more)).length = ('\n' :: more).length &&
      !(dropBlankLines ('\n' :: more)).isEmpty) = false := by
    have hle := (dropBlankLines_suffix more).length_le
    rw [Reader.dropBlankLines_newline]
    simp only [List.length_cons, Bool.and_eq_false_iff, decide_eq_false_iff_not]
    exact Or.inl (by omega)
  refine ⟨next, ?_⟩
  rw [Entry.written, List.append_assoc, List.singleton_append, hall, hapart,
    ← List.singleton_append, joinComments_append, joinComments_singleton,
    Reader.dropBlankLines_newline]
  · rfl
  · rintro _ ⟨⟩ d hd
    rfl

/-- An entry is read back; what follows a unit must not go on with it. -/
theorem joinComments_written {e : Entry} (h : e.Sound Q) (hjunk : e.isJunk = false)
    (hmore : e.isComment = false → Reader.UnitEnds more) (offset : Nat) :
    ∃ e' next, e'.plain = e.dedent.plain ∧ joinComments (all offset (e.written ++ more)) =
      e' :: joinComments (all next (dropBlankLines more)) := by
  cases e with
  | message m => exact joinComments_message h (hmore rfl) offset
  | term t => exact joinComments_term h (hmore rfl) offset
  | comment c =>
    obtain ⟨next, hjoin⟩ := joinComments_comment h offset
    exact ⟨.comment c.plain, next, by simp [Entry.plain, Entry.dedent], hjoin⟩
  | junk j => cases hjunk

/-- Entries are read back one after the other, wherever the first of them begins. -/
theorem joinComments_all {entries : List Entry} (h : ∀ e ∈ entries, e.Sound Q)
    (hjunk : ∀ e ∈ entries, e.isJunk = false) (offset : Nat) :
    (joinComments (all offset
        (dropBlankLines (entries.flatMap fun e => e.gapText ++ e.written)))).map Entry.plain =
      entries.map fun e => e.dedent.plain := by
  induction entries generalizing offset with
  | nil => rfl
  | cons e rest ih =>
    have he := h e List.mem_cons_self
    have hentry := hjunk e List.mem_cons_self
    have hrest : ∀ e ∈ rest, e.Sound Q := fun e he => h e (List.mem_cons_of_mem _ he)
    have hothers : ∀ e ∈ rest, e.isJunk = false := fun e he => hjunk e (List.mem_cons_of_mem _ he)
    obtain ⟨e', next, hplain, hread⟩ :=
      joinComments_written he hentry (fun _ => (entryBegins_others hrest hothers).unitEnds) offset
    rw [List.flatMap_cons, List.append_assoc, he.dropBlankLines_gapText hentry, hread,
      List.map_cons, List.map_cons, hplain, ih hrest hothers next]

end Block

/-- What is printed of a resource is read back: its entries but junk, with their patterns dedented
and without what is not written. -/
theorem Resource.parse_print {r : Resource} (h : ∀ e ∈ r.entries, e.Sound Q) :
    (Resource.parse (Resource.print false r)).entries.map Entry.plain =
      (r.entries.filter fun e => !e.isJunk).map fun e => e.dedent.plain := by
  have hsound : ∀ e ∈ r.entries.filter fun e => !e.isJunk, e.Sound Q :=
    fun e he => h e (List.mem_of_mem_filter he)
  have hjunk : ∀ e ∈ r.entries.filter fun e => !e.isJunk, e.isJunk = false :=
    fun e he => by simpa using List.of_mem_filter he
  rw [entries_parse, Resource.print_eq h]
  generalize r.entries.filter (fun e => !e.isJunk) = entries at hsound hjunk ⊢
  have htext : dropBlankLines (Resource.written entries) =
      dropBlankLines (entries.flatMap fun e => e.gapText ++ e.written) := by
    rcases entries with _ | ⟨first, rest⟩
    · rfl
    have hfirst := (hsound first List.mem_cons_self).dropBlankLines_gapText
      (hjunk first List.mem_cons_self) (rest.flatMap fun e => e.gapText ++ e.written)
    rw [Resource.written, List.flatMap_cons, List.append_assoc, hfirst]
    exact hfirst ▸ dropBlankLines_idem _
  rw [htext]
  exact Block.joinComments_all hsound hjunk _

end Phrasebook
