import Phrasebook.Proofs.RoundTrip.ReadBack.Select

/-!
# Entries read back

The text of a unit is read back with its attributes, and the text of a comment line by line. What is
not written is not read back either: the place of an entry in its source, and the white space of a
comment line that holds nothing else.
-/

namespace Phrasebook

open Piece (Writes)

/-- A line of a comment, which is empty if it is nothing but white space. -/
def plainLine (line : String) : String := if line.toList.all Text.isWhitespace then "" else line

/-- A comment whose lines of white space are empty. -/
def Comment.plain (c : Comment) : Comment := { c with lines := c.lines.map plainLine }

/-- An entry without what is not written. -/
def Entry.plain : Entry → Entry
  | .message m => .message { m with comment := m.comment.map Comment.plain, span := ⟨0, 0⟩ }
  | .term t => .term { t with comment := t.comment.map Comment.plain, span := ⟨0, 0⟩ }
  | .comment c => .comment c.plain
  | .junk j => .junk { j with diagnostic.span := ⟨0, 0⟩, span := ⟨0, 0⟩ }

/-- A line of a comment is made plain once and for all. -/
theorem plainLine_plainLine (line : String) : plainLine (plainLine line) = plainLine line := by
  by_cases hblank : line.toList.all Text.isWhitespace
  · rw [plainLine, plainLine, if_pos hblank]
    rfl
  · have hkept : plainLine line = line := if_neg hblank
    rw [hkept, hkept]

/-- A comment is made plain once and for all. -/
@[simp] theorem Comment.plain_plain (c : Comment) : c.plain.plain = c.plain := by
  rw [Comment.plain, Comment.plain, List.map_map]
  exact congrArg (Comment.mk c.level) (List.map_congr_left fun line _ => plainLine_plainLine line)

/-- A line of a comment behind its mark. -/
def commentLineText (line : String) : List Char :=
  if line.toList.all Text.isWhitespace then [] else ' ' :: line.toList

/-- The text of a comment. -/
def Comment.written (c : Comment) : List Char :=
  c.lines.flatMap fun line => c.level.sigil.toList ++ (commentLineText line ++ ['\n'])

/-- The text of an attribute, behind the unit that it belongs to. -/
def Attribute.written (a : Attribute) : List Char :=
  '\n' :: (indentation 1 ++ '.' :: (a.id.toList ++ ' ' :: '=' :: a.value.written 1))

/-- The text of a unit from its name on, with the end of its last line. -/
def definitionText (id : String) (value : Option Pattern) (attributes : List Attribute) :
    List Char :=
  id.toList ++ ' ' :: '=' ::
    (value.elim [] (Pattern.written 0) ++ (attributes.flatMap Attribute.written ++ ['\n']))

/-- The text of an entry. -/
def Entry.written : Entry → List Char
  | .message m => m.comment.elim [] Comment.written ++ definitionText m.id m.value m.attributes
  | .term t =>
    t.comment.elim [] Comment.written ++ '-' :: definitionText t.id (some t.value) t.attributes
  | .comment c => c.written ++ ['\n']
  | .junk _ => []

/-! ## The text of an entry -/

variable {Q : Pattern → Prop} {lineStart : Bool}

/-- At the first column text stands alike at the start of a line and inside one. -/
private theorem writes_margin {text : String} (hne : text ≠ "") (h : '\n' ∉ text.toList) :
    Writes lineStart [.at 0 text] text.toList false := by
  cases lineStart with
  | true => exact Piece.writes_at_lineStart hne h
  | false => exact Piece.writes_at h

private theorem newline_not_mem_of_unbroken {text : List Char}
    (h : ∀ c ∈ text, Text.isBreak c = false) : '\n' ∉ text := by
  intro hmem
  exact absurd (h _ hmem) (by decide)

/-- A comment is written line by line, each with its mark. -/
theorem Comment.Sound.writes {c : Comment} (h : c.Sound) :
    Writes lineStart c.pieces c.written true := by
  obtain ⟨level, lines⟩ := c
  obtain ⟨hne, hunbroken⟩ := h
  have hline : ∀ line ∈ lines, ∀ lineStart, Writes lineStart
      [.at 0 (if line.toList.all Text.isWhitespace then level.sigil
        else level.sigil ++ " " ++ line),
        .newline]
      (level.sigil.toList ++ (commentLineText line ++ ['\n'])) true := by
    intro line hmem lineStart
    have hbreak := newline_not_mem_of_unbroken (hunbroken line hmem)
    have hfirst : Writes lineStart
        [.at 0 (if line.toList.all Text.isWhitespace then level.sigil
          else level.sigil ++ " " ++ line)]
        (level.sigil.toList ++ commentLineText line) false := by
      rw [commentLineText]
      split
      · rw [List.append_nil]
        refine writes_margin ?_ ?_ <;> cases level <;> decide
      · have htext : level.sigil.toList ++ ' ' :: line.toList =
            (level.sigil ++ " " ++ line).toList := by simp
        rw [htext]
        refine writes_margin ?_ ?_ <;> cases level <;> simp [CommentLevel.sigil, hbreak]
    rw [← List.append_assoc]
    exact hfirst.append Piece.writes_newline
  -- Only the first line may follow something else; the others stand below a line end.
  have hlines : ∀ rest, (∀ line ∈ rest, line ∈ lines) →
      Writes true (Comment.pieces ⟨level, rest⟩) (Comment.written ⟨level, rest⟩) true := by
    intro rest hrest
    induction rest with
    | nil => exact Piece.writes_nil
    | cons line rest ih =>
      exact (hline line (hrest line List.mem_cons_self) true).append
        (ih fun l hl => hrest l (List.mem_cons_of_mem _ hl))
  rcases lines with _ | ⟨line, rest⟩
  · exact absurd rfl hne
  · exact (hline line List.mem_cons_self lineStart).append
      (hlines rest fun l hl => List.mem_cons_of_mem _ hl)

/-- An attribute is written as its name, an equals sign and its pattern. -/
theorem Attribute.Sound.writes {a : Attribute} (h : a.Sound Q) :
    Writes lineStart a.pieces a.written (Piece.endsLine lineStart a.pieces) := by
  have hname : '\n' ∉ ("." ++ a.id ++ " =").toList := by simp [h.id.inline]
  have hvalue : Writes false (a.value.pieces 1) (a.value.written 1) _ := ⟨rfl, rfl⟩
  have hline : Writes lineStart [Piece.newline] ['\n'] true := Piece.writes_newline
  have hpoint : Writes true [.at 1 ("." ++ a.id ++ " =")]
      (indentation 1 ++ ("." ++ a.id ++ " =").toList) false :=
    Piece.writes_at_lineStart (by simp) hname
  have hall := (hline.append hpoint).append hvalue
  refine ⟨?_, rfl⟩
  simpa [Attribute.pieces, Attribute.written] using hall.layout

private theorem writes_attributes {attributes : List Attribute}
    (h : ∀ a ∈ attributes, a.Sound Q) (lineStart : Bool) :
    Writes lineStart (attributes.flatMap Attribute.pieces)
      (attributes.flatMap Attribute.written)
      (Piece.endsLine lineStart (attributes.flatMap Attribute.pieces)) := by
  refine ⟨?_, rfl⟩
  induction attributes generalizing lineStart with
  | nil => rfl
  | cons a rest ih =>
    rw [List.flatMap_cons, List.flatMap_cons,
      (h a List.mem_cons_self).writes.layout_append,
      ih fun b hb => h b (List.mem_cons_of_mem _ hb)]

/-- A unit is written from its name on, behind the sign that it may have. -/
private theorem writes_definition {sign id : String} (value : Option Pattern)
    {attributes : List Attribute} (hsign : '\n' ∉ sign.toList) (hid : IsIdentifier id)
    (hattributes : ∀ a ∈ attributes, a.Sound Q) :
    Writes lineStart
      (.at 0 (sign ++ id ++ " =") :: (value.elim [] (Pattern.pieces 0) ++
        (attributes.flatMap Attribute.pieces ++ [.newline])))
      (sign.toList ++ definitionText id value attributes) true := by
  have hname : Writes lineStart [.at 0 (sign ++ id ++ " =")] (sign ++ id ++ " =").toList false :=
    writes_margin (by simp) (by simp [hsign, hid.inline])
  have hpattern : Writes false (value.elim [] (Pattern.pieces 0))
      (value.elim [] (Pattern.written 0))
        (Piece.endsLine false (value.elim [] (Pattern.pieces 0))) :=
    ⟨by cases value <;> rfl, rfl⟩
  have hall := hname.append (hpattern.append
    ((writes_attributes hattributes _).append Piece.writes_newline))
  simpa [definitionText] using hall

/-- A unit stands below its comment. -/
private theorem writes_below {comment : Option Comment} {pieces : List Piece} {text : List Char}
    (hcomment : ∀ c ∈ comment, c.level = .entry ∧ c.Sound)
    (h : ∀ lineStart, Writes lineStart pieces text true) :
    Writes lineStart (Comment.piecesOf comment ++ pieces) (comment.elim [] Comment.written ++ text)
      true := by
  cases comment with
  | none => exact h lineStart
  | some c => exact (hcomment c rfl).2.writes.append (h true)

/-- An entry that can be read is written with the end of its last line. -/
theorem Entry.Sound.writes {e : Entry} (h : e.Sound Q) (hjunk : e.isJunk = false) :
    Writes lineStart e.pieces e.written true := by
  cases e with
  | message m =>
    have hsign : '\n' ∉ "".toList := by simp
    have hunit (lineStart : Bool) : Writes lineStart _ _ true :=
      writes_definition m.value hsign (Message.Sound.id h) (Message.Sound.attributes h)
    simpa [Entry.pieces, Entry.written] using writes_below (Message.Sound.comment h) hunit
  | term t =>
    have hsign : '\n' ∉ "-".toList := by simp
    have hunit (lineStart : Bool) : Writes lineStart _ _ true :=
      writes_definition (some t.value) hsign (Term.Sound.id h) (Term.Sound.attributes h)
    simpa [Entry.pieces, Entry.written] using writes_below (Term.Sound.comment h) hunit
  | comment c => exact (Comment.Sound.writes h).append Piece.writes_newline
  | junk j => cases hjunk

/-! ## Units read back -/

namespace Reader

open Text

variable {text more : List Char}

/-- Behind blank lines an entry begins, unless nothing is left. -/
def EntryBegins (text : List Char) : Prop :=
  ∀ c ∈ (dropBlankLines text).head?, c.isAlpha ∨ c = '-' ∨ c = '#'

/-- An entry begins with no space, no brace and no point. -/
theorem EntryBegins.head_ne (h : EntryBegins text) {c : Char}
    (hc : c ∈ (dropBlankLines text).head?) : c ≠ ' ' ∧ c ≠ '{' ∧ c ≠ '.' := by
  refine ⟨?_, ?_, ?_⟩ <;> rintro rfl <;> rcases h _ hc with hc | hc | hc <;> contradiction

/-- An entry begins at the margin. -/
theorem EntryBegins.dropWhile_space (h : EntryBegins text) :
    (dropBlankLines text).dropWhile (· == ' ') = dropBlankLines text := by
  rcases htext : dropBlankLines text with _ | ⟨c, rest⟩
  · rfl
  · have hc : c ≠ ' ' := (h.head_ne (by rw [htext]; rfl)).1
    exact List.dropWhile_cons_of_neg (by simpa using hc)

/-- Where an entry begins a pattern ends. -/
theorem EntryBegins.endsPattern (h : EntryBegins text) : EndsPattern text := by
  intro c rest hrest
  rw [h.dropWhile_space] at hrest
  have hc : c ∈ (dropBlankLines text).head? := by
    rw [hrest]
    rfl
  exact ⟨(h.head_ne hc).2.1, fun hspace => absurd rfl (h.head_ne hspace).1⟩

/-- Behind blank lines neither a pattern nor the attributes of a unit go on. -/
structure UnitEnds (text : List Char) : Prop where
  pattern : EndsPattern text
  point : ∀ rest, (dropBlankLines text).dropWhile (· == ' ') ≠ '.' :: rest

/-- Where an entry begins the unit above it ends. -/
theorem EntryBegins.unitEnds (h : EntryBegins text) : UnitEnds text := by
  refine ⟨h.endsPattern, fun rest hrest => ?_⟩
  rw [h.dropWhile_space] at hrest
  exact (h.head_ne (by rw [hrest]; rfl)).2.2 rfl

/-- A line end in front is one more blank line to be passed over. -/
@[simp] theorem dropBlankLines_newline (text : List Char) :
    dropBlankLines ('\n' :: text) = dropBlankLines text := by
  rw [dropBlankLines_apply]
  rfl

/-- The text below a value: the attributes, and what follows the unit. -/
private theorem below_value (h : UnitEnds more) (attributes : List Attribute) :
    ∃ below, attributes.flatMap Attribute.written ++ '\n' :: more = '\n' :: below ∧
      EndsPattern below := by
  cases attributes with
  | nil => exact ⟨more, rfl, h.pattern⟩
  | cons a rest =>
    refine ⟨_, by rw [List.flatMap_cons, Attribute.written, List.cons_append, List.cons_append], ?_⟩
    refine endsPattern_of_dropWhile (c := '.') ?_ (by decide)
    rw [List.append_assoc, List.append_assoc, List.dropWhile_append_of_pos (blank_indentation 1)]
    rfl

/-- A name and a value are read back, with the blank lines below them. -/
private theorem definition_reads {id : String} {value : Option Pattern} (hid : IsIdentifier id)
    (hvalue : ∀ p ∈ value, (Shape.levels Q maxNesting).Lines p) (outer : Nat)
    (hends : EndsPattern more) :
    definition (id.toList ++ ' ' :: '=' ::
      (value.elim [] (Pattern.written outer) ++ '\n' :: more)) =
      .ok ((id, value.bind Pattern.dedent?), dropBlankLines more) := by
  have hspace (line : List Char) : ∀ c ∈ (' ' :: line).head?, isIdentifierChar c = false := by
    rintro _ ⟨⟩
    decide
  have hequals (line : List Char) : skipSpaces (' ' :: '=' :: line) = .ok (1, '=' :: line) := rfl
  have hopen (line : List Char) : expect '=' ('=' :: line) = .ok ((), line) := rfl
  have hlevels := readsBack_levels Q maxNesting
  have hpattern : entryPattern (value.elim [] (Pattern.written outer) ++ '\n' :: more) =
      .ok (value.bind Pattern.dedent?, dropBlankLines more) := by
    cases value with
    | none => exact pattern_reads_blank hlevels (by rintro _ ⟨⟩) hends
    | some p => exact pattern_reads hlevels (hvalue p rfl) outer hends
  rw [definition, bind_ok (identifier_reads hid (hspace _)), bind_ok (hequals _), bind_ok (hopen _),
    bind_ok hpattern]
  rfl

private theorem attribute_begins (a : Attribute) (below : List Char) :
    (dropBlankLines (a.written ++ below)).dropWhile (· == ' ') =
      '.' :: (a.id.toList ++ ' ' :: '=' :: (a.value.written 1 ++ below)) := by
  have hwritten : a.written ++ below = '\n' :: (indentation 1 ++
      '.' :: (a.id.toList ++ ' ' :: '=' :: (a.value.written 1 ++ below))) := by
    simp [Attribute.written]
  have hspaces : (indentation 1 ++ '.' :: (a.id.toList ++ ' ' :: '=' ::
      (a.value.written 1 ++ below))).dropWhile (· == ' ') =
      '.' :: (a.id.toList ++ ' ' :: '=' :: (a.value.written 1 ++ below)) := rfl
  rw [hwritten, dropBlankLines_newline, dropBlankLines_eq_self hspaces (by decide), hspaces]

/-- Attributes are read back one after the other. -/
private theorem attributes_loop {attributes : List Attribute} (h : ∀ a ∈ attributes, a.Sound Q)
    (hmore : UnitEnds more) (read : List Attribute) :
    loop attributeStep read
        (dropBlankLines (attributes.flatMap Attribute.written ++ '\n' :: more)) =
      .ok (read.reverse ++ attributes.map Attribute.dedent, dropBlankLines more) := by
  induction attributes generalizing read with
  | nil =>
    rw [List.flatMap_nil, List.nil_append, dropBlankLines_newline, List.map_nil, List.append_nil]
    exact loop_done advances_attributeStep (attributeStep_of_ne read hmore.point)
  | cons a rest ih =>
    have hrest := ih fun b hb => h b (List.mem_cons_of_mem _ hb)
    obtain ⟨below, hbelow, hends⟩ := below_value hmore rest
    obtain ⟨hid, hvalue⟩ := h a List.mem_cons_self
    have hvalue' : ∀ p ∈ some a.value, (Shape.levels Q maxNesting).Lines p := by
      rintro _ ⟨⟩
      exact hvalue.toLines
    have hread : definition (a.id.toList ++ ' ' :: '=' :: (a.value.written 1 ++ '\n' :: below)) =
        .ok ((a.id, some a.value.dedent), dropBlankLines below) := by
      rw [← hvalue.dedent?_eq]
      exact definition_reads hid hvalue' 1 hends
    rw [List.flatMap_cons, List.append_assoc, hbelow]
    have hbody : attributeBody (a.id.toList ++ ' ' :: '=' :: (a.value.written 1 ++ '\n' :: below)) =
        .ok (a.dedent, dropBlankLines below) := by
      rw [attributeBody, bind_ok hread]
      rfl
    have hstep : attributeStep read (dropBlankLines (a.written ++ '\n' :: below)) =
        .ok (.again (a.dedent :: read), dropBlankLines below) := by
      rw [attributeStep_point read (attribute_begins a _), bind_ok hbody]
      rfl
    rw [hbelow, dropBlankLines_newline] at hrest
    rw [loop_again advances_attributeStep hstep, hrest, List.reverse_cons, List.map_cons,
      List.append_assoc, List.singleton_append]

/-- The parts of a unit are read back, up to where it ends. -/
private theorem unit_reads {id : String} {value : Option Pattern} {attributes : List Attribute}
    (hid : IsIdentifier id) (hvalue : ∀ p ∈ value, (Shape.levels Q maxNesting).Lines p)
    (hattributes : ∀ a ∈ attributes, a.Sound Q) (hmore : UnitEnds more) :
    ∃ mid, definition (definitionText id value attributes ++ more) =
        .ok ((id, value.bind Pattern.dedent?), mid) ∧
      Reader.attributes mid = .ok (attributes.map Attribute.dedent, dropBlankLines more) := by
  obtain ⟨below, hbelow, hends⟩ := below_value hmore attributes
  have htext : definitionText id value attributes ++ more = id.toList ++ ' ' :: '=' ::
      (value.elim [] (Pattern.written 0) ++ '\n' :: below) := by
    rw [← hbelow]
    simp [definitionText]
  have hloop := attributes_loop hattributes hmore []
  rw [hbelow, dropBlankLines_newline] at hloop
  exact ⟨_, htext ▸ definition_reads hid hvalue 0 hends, hloop⟩

/-- A message is read back from below its comment. -/
theorem message_reads {m : Message} (hm : m.Sound Q) (hmore : UnitEnds more)
    (offset : Nat) :
    ∃ span, message offset (definitionText m.id m.value m.attributes ++ more) =
      .ok (⟨m.id, m.value.bind Pattern.dedent?, m.attributes.map Attribute.dedent, none, span⟩,
        dropBlankLines more) := by
  obtain ⟨mid, hdefinition, hattributes⟩ := unit_reads hm.id hm.value hm.attributes hmore
  have hpresent : ((m.value.bind Pattern.dedent?).isNone &&
      (m.attributes.map Attribute.dedent).isEmpty) = false := by
    cases hvalue : m.value.bind Pattern.dedent? with
    | some p => rfl
    | none =>
      have hnone : m.value.bind Pattern.unindent? = none := by
        rw [Option.bind_eq_none_iff] at hvalue ⊢
        exact fun p hp => Pattern.dedent?_eq_none.mp (hvalue p hp)
      simpa using hm.present hnone
  have hbody : messageBody (definitionText m.id m.value m.attributes ++ more) =
      .ok ((m.id, m.value.bind Pattern.dedent?, m.attributes.map Attribute.dedent),
        dropBlankLines more) := by
    rw [messageBody, bind_ok hdefinition]
    simp only
    rw [bind_ok hattributes]
    simp only [hpresent, Bool.false_eq_true, if_false]
    rfl
  rw [message_eq, bind_apply, withText, hbody]
  exact ⟨_, rfl⟩

/-- A term is read back from below its comment. -/
theorem term_reads {t : Term} (ht : t.Sound Q) (hmore : UnitEnds more)
    (offset : Nat) :
    ∃ span, term offset ('-' :: (definitionText t.id (some t.value) t.attributes ++ more)) =
      .ok (⟨t.id, t.value.dedent, t.attributes.map Attribute.dedent, none, span⟩,
        dropBlankLines more) := by
  have hvalue : ∀ p ∈ some t.value, (Shape.levels Q maxNesting).Lines p := by
    rintro _ ⟨⟩
    exact ht.value.toLines
  obtain ⟨mid, hdefinition, hattributes⟩ := unit_reads ht.id hvalue ht.attributes hmore
  have hminus (line : List Char) : expect '-' ('-' :: line) = .ok ((), line) := rfl
  have hbody : termBody ('-' :: (definitionText t.id (some t.value) t.attributes ++ more)) =
      .ok ((t.id, t.value.dedent, t.attributes.map Attribute.dedent), dropBlankLines more) := by
    rw [termBody, bind_ok (hminus _), bind_ok hdefinition]
    simp only [Option.bind_some, ht.value.dedent?_eq]
    rw [bind_ok hattributes]
    rfl
  rw [term_eq, bind_apply, withText, hbody]
  exact ⟨_, rfl⟩

/-! ## Comments read back -/

private theorem commentLine_reads {line : String}
    (hunbroken : ∀ c ∈ line.toList, isBreak c = false) (rest : List Char) :
    commentLine (commentLineText line ++ '\n' :: rest) =
      .ok (plainLine line, rest) := by
  have hstop : ∀ c ∈ ('\n' :: rest).head?, isLineChar c = false := by
    rintro _ ⟨⟩
    decide
  have hchars : ∀ c ∈ line.toList, isLineChar c := fun c hc => by simp [isLineChar, hunbroken c hc]
  rw [commentLineText, commentLine_apply, plainLine]
  by_cases hblank : line.toList.all isWhitespace
  · rw [if_pos hblank, if_pos hblank]
    rfl
  · rw [if_neg hblank, if_neg hblank, List.cons_append,
      afterLineEnd?_cons_of_not_isBreak (by decide)]
    simp only [if_true]
    rw [takeWhile_append_stop hchars hstop, dropWhile_append_stop hchars hstop,
      String.ofList_toList]
    rfl

/-- The mark of a comment line is followed by its space or its end. -/
private theorem afterSigil?_written (level : CommentLevel) (line : String) (rest : List Char) :
    afterSigil? level (level.sigil.toList ++ (commentLineText line ++ '\n' :: rest)) =
      some (commentLineText line ++ '\n' :: rest) := by
  have hprefix : level.sigil.toList.isPrefixOf?
      (level.sigil.toList ++ (commentLineText line ++ '\n' :: rest)) =
      some (commentLineText line ++ '\n' :: rest) :=
    List.isPrefixOf?_eq_some_iff_append_eq.mpr rfl
  rw [afterSigil?, hprefix, commentLineText]
  split <;> rfl

private theorem commentLevel_written (level : CommentLevel) (line : String) (rest : List Char) :
    commentLevel (level.sigil.toList ++ (commentLineText line ++ '\n' :: rest)) =
      .ok (level, commentLineText line ++ '\n' :: rest) := by
  rw [commentLineText]
  split <;> cases level <;> rfl

private theorem comment_written (level : CommentLevel) (line : String) (lines : List String) :
    Comment.written ⟨level, line :: lines⟩ ++ more = level.sigil.toList ++
      (commentLineText line ++ '\n' :: (Comment.written ⟨level, lines⟩ ++ more)) := by
  simp [Comment.written]

private theorem commentLines_loop {level : CommentLevel} {lines : List String}
    (hunbroken : ∀ line ∈ lines, ∀ c ∈ line.toList, isBreak c = false)
    (hmore : afterSigil? level more = none) (read : List String) :
    loop (commentStep level) read (Comment.written ⟨level, lines⟩ ++ more) =
      .ok (read.reverse ++ (Comment.plain ⟨level, lines⟩).lines, more) := by
  have hadvances := advances_commentStep level
  induction lines generalizing read with
  | nil =>
    have hdone : commentStep level read more = .ok (.done read.reverse, more) := by
      rw [commentStep_apply, hmore]
    refine (loop_done hadvances hdone).trans ?_
    rw [Comment.plain, List.map_nil, List.append_nil]
  | cons line lines ih =>
    have hline := commentLine_reads (hunbroken line List.mem_cons_self)
      (Comment.written ⟨level, lines⟩ ++ more)
    have hstep : commentStep level read (Comment.written ⟨level, line :: lines⟩ ++ more) =
        .ok (.again (plainLine line :: read),
          Comment.written ⟨level, lines⟩ ++ more) := by
      rw [comment_written, commentStep_apply, afterSigil?_written]
      simp only
      rw [bind_ok hline]
      rfl
    rw [loop_again hadvances hstep, ih (fun l hl => hunbroken l (List.mem_cons_of_mem _ hl)),
      List.reverse_cons, List.append_assoc]
    rfl

/-- A comment is read back before a text that does not go on with it. -/
theorem comment_reads {c : Comment} (hc : c.Sound) (hmore : afterSigil? c.level more = none) :
    comment (c.written ++ more) = .ok (c.plain, more) := by
  obtain ⟨level, _ | ⟨line, lines⟩⟩ := c
  · exact absurd rfl hc.ne_nil
  have hline := commentLine_reads (hc.unbroken line List.mem_cons_self)
    (Comment.written ⟨level, lines⟩ ++ more)
  have hloop := commentLines_loop (fun l hl => hc.unbroken l (List.mem_cons_of_mem _ hl)) hmore
    [plainLine line]
  rw [comment_written, comment, bind_ok (commentLevel_written _ _ _), bind_ok hline, bind_ok hloop]
  rfl

end Reader

end Phrasebook
