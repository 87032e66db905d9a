import Phrasebook.Proofs.Blocks

/-!
# A source is the texts of its entries

Reading loses, invents and reorders nothing. A source is made of the texts of its entries, in their
order, and of blanks between them. Every span is where its text stands, counted in bytes of whole
characters. This is shown of the blocks of a source first, and then of its entries, where a comment
and the unit below it share one text.
-/

namespace Phrasebook

open Text

/-! ## The texts of entries -/

/-- A comment line in source form: its mark alone if it is empty, or its mark, a space and the
line. -/
inductive CommentLine (level : CommentLevel) : String → List Char → Prop
  | bare : CommentLine level "" level.sigil.toList
  | spaced {line : List Char} (h : ∀ c ∈ line, isBreak c = false) :
      CommentLine level (String.ofList line) (level.sigil.toList ++ ' ' :: line)

/-- The lines of a comment in source form, separated by single line ends. -/
inductive CommentText (level : CommentLevel) : List String → List Char → Prop
  | last {line : String} {text : List Char} (h : CommentLine level line text) :
      CommentText level [line] text
  | cons {line : String} {lines : List String} {text e rest : List Char}
      (h : CommentLine level line text) (he : LineEnd e) (hrest : CommentText level lines rest) :
      CommentText level (line :: lines) (text ++ (e ++ rest))

/-- What the comment of a unit adds before the unit: its lines and one line end. -/
inductive CommentLead : Option Comment → List Char → Prop
  | none : CommentLead none []
  | some {c : Comment} {text e : List Char} (h : CommentText c.level c.lines text)
      (he : LineEnd e) : CommentLead (some c) (text ++ e)

/-- A span reaches over `own`, which is not empty and stands behind `front`. -/
structure Span.Marks (span : Span) (front own : List Char) : Prop where
  start : span.start = byteLength front
  stop : span.stop = byteLength (front ++ own)
  nonempty : span.start < span.stop

/-- The text of a message or term behind `front`: what its comment adds, and the text that its span
marks, which ends in no blank. -/
def UnitText (front : List Char) (comment : Option Comment) (span : Span)
    (text : List Char) : Prop :=
  ∃ lead own, text = lead ++ own ∧ CommentLead comment lead ∧ span.Marks (front ++ lead) own ∧
    ∀ c ∈ own.getLast?, isBlank c = false

/-- The text of an entry that stands behind `front`. -/
def Entry.Occupies (front text : List Char) : Entry → Prop
  | message m => UnitText front m.comment m.span text
  | term t => UnitText front t.comment t.span text
  | comment c => CommentText c.level c.lines text
  | junk j => text = j.content.toList ∧ j.span.Marks front text

/-- A text behind `front` is made of the texts of entries, with blanks around them. -/
inductive Tiles : (front : List Char) → List Entry → List Char → Prop
  | nil {front gap : List Char} (h : Blank gap) : Tiles front [] gap
  | cons {front gap text rest : List Char} {entry : Entry} {entries : List Entry} (h : Blank gap)
      (htext : entry.Occupies (front ++ gap) text)
      (hrest : Tiles (front ++ gap ++ text) entries rest) :
      Tiles front (entry :: entries) (gap ++ (text ++ rest))

/-- A comment can be continued by one more line. -/
theorem CommentText.snoc {level : CommentLevel} {lines : List String} {line : String}
    {text e last : List Char} (h : CommentText level lines text) (he : LineEnd e)
    (hlast : CommentLine level line last) :
    CommentText level (lines ++ [line]) (text ++ (e ++ last)) := by
  induction h with
  | last h => exact .cons h he (.last hlast)
  | cons h he' _ ih => simpa only [List.append_assoc, List.cons_append] using .cons h he' ih

/-- The span of a text that is not empty marks it. -/
theorem Span.marks_of_ne_nil {front own : List Char} (h : own ≠ []) :
    Span.Marks ⟨byteLength front, byteLength front + byteLength own⟩ front own := by
  obtain ⟨c, rest, rfl⟩ := List.exists_cons_of_ne_nil h
  refine ⟨rfl, (byteLength_append _ _).symm, ?_⟩
  have hpos := c.utf8Size_pos
  simp only [byteLength]
  omega

namespace Reader

variable {text rest : List Char}

/-! ## Comments -/

/-- A text is `own` and, unless it ends there, one line end and the rest. -/
def LineBefore (own rest text : List Char) : Prop :=
  text = own ∧ rest = [] ∨ ∃ e, LineEnd e ∧ text = own ++ (e ++ rest)

/-- A sigil that was read is that of its level. -/
theorem commentLevel_ok {level : CommentLevel} (h : commentLevel text = .ok (level, rest)) :
    text = level.sigil.toList ++ rest := by
  unfold commentLevel at h
  split at h <;> cases h <;> rfl

/-- A text before a break or the end is a line. -/
theorem lineBefore_getD_afterLineEnd? (own : List Char) (h : ∀ c ∈ rest.head?, isBreak c = true) :
    LineBefore own ((afterLineEnd? rest).getD rest) (own ++ rest) := by
  cases he : afterLineEnd? rest with
  | some after =>
    obtain ⟨e, hlineEnd, rfl⟩ := afterLineEnd?_eq_some he
    exact Or.inr ⟨e, hlineEnd, rfl⟩
  | none =>
    rcases rest with _ | ⟨c, rest⟩
    · exact Or.inl ⟨by simp, rfl⟩
    · have hbreak := isBreak_of_afterLineEnd?_eq_none he c rfl
      rw [h c rfl] at hbreak
      cases hbreak

/-- Behind its mark, a comment line is read up to and with its line end. -/
theorem commentLine_ok {line : String} (level : CommentLevel)
    (h : commentLine text = .ok (line, rest)) :
    ∃ own, CommentLine level line (level.sigil.toList ++ own) ∧ LineBefore own rest text := by
  rw [commentLine_apply] at h
  cases he : afterLineEnd? text with
  | some after =>
    rw [he] at h
    cases h
    obtain ⟨e, hlineEnd, rfl⟩ := afterLineEnd?_eq_some he
    exact ⟨[], by simpa using .bare, Or.inr ⟨e, hlineEnd, rfl⟩⟩
  | none =>
    rw [he] at h
    rcases text with _ | ⟨c, text⟩
    · cases h
      exact ⟨[], by simpa using .bare, Or.inl ⟨rfl, rfl⟩⟩
    · by_cases hc : c = ' '
      · subst hc
        cases h
        have hline : ∀ d ∈ text.takeWhile isLineChar, isBreak d = false := by
          intro d hd
          simpa [isLineChar] using List.mem_takeWhile_imp hd
        have hend : ∀ d ∈ (text.dropWhile isLineChar).head?, isBreak d = true := by
          intro d hd
          obtain ⟨rest, hdrop⟩ := List.head?_eq_some_iff.mp hd
          simpa [isLineChar] using stop_of_dropWhile hdrop
        refine ⟨' ' :: text.takeWhile isLineChar, .spaced hline, ?_⟩
        have hsplit := lineBefore_getD_afterLineEnd? (' ' :: text.takeWhile isLineChar) hend
        simpa using hsplit
      · simp [hc] at h

/-- A line can be begun earlier. -/
theorem LineBefore.append_left {own : List Char} (front : List Char)
    (h : LineBefore own rest text) : LineBefore (front ++ own) rest (front ++ text) := by
  rcases h with ⟨rfl, rfl⟩ | ⟨e, he, rfl⟩
  · exact Or.inl ⟨rfl, rfl⟩
  · exact Or.inr ⟨e, he, by rw [List.append_assoc]⟩

/-- The lines read so far, last first, are the text of a comment with one line end behind it. -/
private def ReadLines (level : CommentLevel) (whole : List Char) (read : List String)
    (rest : List Char) : Prop :=
  ∃ own, CommentText level read.reverse own ∧ LineBefore own rest whole

private theorem ensures_commentStep (level : CommentLevel) (whole : List Char) (read : List String)
    (h : ReadLines level whole read text) :
    Ensures (commentStep level read) text
      (Outcome (ReadLines level whole) fun lines => ReadLines level whole lines.reverse)
      fun _ => True := by
  rw [Ensures, commentStep_apply]
  cases hp : afterSigil? level text with
  | none => simpa only [Outcome, List.reverse_reverse] using h
  | some mid =>
    obtain ⟨htext, -⟩ := afterSigil?_eq_some hp
    dsimp only
    rw [bind_apply]
    rcases hline : commentLine mid with failure | ⟨line, rest⟩
    · trivial
    obtain ⟨own, hown, hwhole⟩ := h
    obtain ⟨last, hlast, hmid⟩ := commentLine_ok level hline
    rcases hwhole with ⟨-, hnil⟩ | ⟨e, he, hwhole⟩
    · have hsigil : level.sigil.toList ≠ [] := by cases level <;> decide
      rw [htext] at hnil
      exact absurd (List.append_eq_nil_iff.mp hnil).1 hsigil
    refine ⟨own ++ (e ++ (level.sigil.toList ++ last)), ?_, ?_⟩
    · rw [List.reverse_cons]
      exact hown.snoc he hlast
    · rw [hwhole, htext]
      have hsplit := hmid.append_left (own ++ (e ++ level.sigil.toList))
      simpa only [List.append_assoc] using hsplit

/-- A comment is read up to and with the end of its last line. -/
theorem comment_ok {c : Comment} (h : comment text = .ok (c, rest)) :
    ∃ own, CommentText c.level c.lines own ∧ LineBefore own rest text := by
  obtain ⟨level, mid, hlevel, h⟩ := bind_eq_ok h
  obtain ⟨first, after, hfirst, h⟩ := bind_eq_ok h
  obtain ⟨lines, last, hrun, h⟩ := bind_eq_ok h
  cases h
  obtain ⟨own, hown, hmid⟩ := commentLine_ok level hfirst
  have hstart : ReadLines level text [first] after := by
    refine ⟨level.sigil.toList ++ own, .last hown, ?_⟩
    rw [commentLevel_ok hlevel]
    exact hmid.append_left _
  have hloop : Ensures (loop (commentStep level) [first]) after
      (fun lines => ReadLines level text lines.reverse) fun _ => True :=
    Ensures.loop (fun read _ => ensures_commentStep level text read) (fun _ _ _ => trivial) hstart
  simpa only [ReadLines, List.reverse_reverse] using hloop.ok hrun

/-! ## Messages and terms -/

/-- A reader that also tells its text tells what it read. -/
theorem withText_ok {α : Type} {r : Reader α} {a : α} {own : List Char} (hr : Contained r)
    (h : withText r text = .ok ((a, own), rest)) : r text = .ok (a, rest) ∧ text = own ++ rest := by
  unfold withText at h
  rcases hrun : r text with failure | ⟨b, after⟩
  · rw [hrun] at h
    cases h
  · rw [hrun] at h
    cases h
    exact ⟨rfl, (before_append_self (hr.suffix_of_ok hrun)).symm⟩

/-- A unit is read from a character that is no blank, and its span ends before the blanks behind
it. -/
structure UnitRead (offset : Nat) (comment : Option Comment) (span : Span)
    (text rest : List Char) : Prop where
  bare : comment = none
  own : ∃ c own, text = c :: own ++ rest ∧ isBlank c = false ∧ span = spanOf offset (c :: own)

private theorem unitRead_of_run {offset : Nat} {own : List Char} {c : Char} {tail : List Char}
    (htext : text = own ++ rest) (hlt : rest.length < text.length) (hhead : text = c :: tail)
    (hc : isBlank c = false) : UnitRead offset none (spanOf offset own) text rest := by
  rcases own with _ | ⟨d, own⟩
  · rw [htext] at hlt
    exact absurd hlt (Nat.lt_irrefl _)
  · rw [htext, List.cons_append] at hhead
    obtain ⟨rfl, -⟩ := List.cons.inj hhead
    exact ⟨rfl, d, own, htext, hc, rfl⟩

/-- An identifier is a letter and then letters, digits, hyphens and underscores. -/
theorem identifier_ok {id : String} (h : identifier text = .ok (id, rest)) :
    ∃ c name, text = c :: (name ++ rest) ∧ c.isAlpha ∧ ∀ d ∈ name, isIdentifierChar d := by
  rcases text with _ | ⟨c, tail⟩
  · cases h
  by_cases hc : c.isAlpha
  · simp only [identifier, if_pos hc] at h
    cases h
    refine ⟨c, tail.takeWhile isIdentifierChar, ?_, hc, fun d hd => List.mem_takeWhile_imp hd⟩
    rw [List.takeWhile_append_dropWhile]
  · simp [identifier, hc] at h

/-- A character that was expected was there. -/
theorem expect_ok {c : Char} {u : Unit} (h : expect c text = .ok (u, rest)) :
    text = c :: rest := by
  rw [expect_apply] at h
  rcases text with _ | ⟨d, tail⟩
  · cases h
  · dsimp only at h
    split_ifs at h with hd
    cases h
    rw [hd]

/-- A message that was read is one unit with its span. -/
theorem message_ok {offset : Nat} {m : Message} (h : message offset text = .ok (m, rest)) :
    UnitRead offset m.comment m.span text rest := by
  obtain ⟨⟨⟨id, value, attrs⟩, own⟩, after, hr, h⟩ := bind_eq_ok h
  cases h
  obtain ⟨hrun, htext⟩ := withText_ok contained_messageBody hr
  have hlt : rest.length < text.length := (below_messageBody text).ok hrun
  obtain ⟨_, _, hdefinition, -⟩ := bind_eq_ok hrun
  obtain ⟨_, _, hid, -⟩ := bind_eq_ok hdefinition
  obtain ⟨c, name, hhead, hc, -⟩ := identifier_ok hid
  exact unitRead_of_run htext hlt hhead (isBlank_eq_false_of_isAlpha hc)

/-- A term that was read is one unit with its span. -/
theorem term_ok {offset : Nat} {t : Term} (h : term offset text = .ok (t, rest)) :
    UnitRead offset t.comment t.span text rest := by
  obtain ⟨⟨⟨id, value, attrs⟩, own⟩, after, hr, h⟩ := bind_eq_ok h
  cases h
  obtain ⟨hrun, htext⟩ := withText_ok contained_termBody hr
  have hlt : rest.length < text.length := (below_termBody text).ok hrun
  obtain ⟨_, _, hminus, -⟩ := bind_eq_ok hrun
  exact unitRead_of_run htext hlt (expect_ok hminus) rfl

/-- What was read of a unit is its text, and blanks behind it. -/
theorem UnitRead.unitText {front : List Char} {comment : Option Comment} {span : Span}
    (h : UnitRead (byteLength front) comment span text rest) :
    ∃ own gap, text = own ++ (gap ++ rest) ∧ Blank gap ∧ UnitText front comment span own := by
  obtain ⟨rfl, c, read, rfl, hc, rfl⟩ := h
  obtain ⟨gap, hsplit, hgap, hlast⟩ := dropEndWhile_spec isBlank (c :: read)
  have hne : dropEndWhile isBlank (c :: read) ≠ [] := by
    intro hnil
    rw [hnil, List.nil_append] at hsplit
    have hblank := hgap c (hsplit ▸ List.mem_cons_self)
    rw [hc] at hblank
    contradiction
  refine ⟨dropEndWhile isBlank (c :: read), gap, ?_, hgap, [], dropEndWhile isBlank (c :: read),
    rfl, .none, ?_, hlast⟩
  · rw [← List.append_assoc, ← hsplit]
  · rw [List.append_nil]
    exact Span.marks_of_ne_nil hne

end Reader

/-! ## Blocks -/

/-- The comment that an entry has joined. -/
def Entry.joined : Entry → Option Comment
  | message m => m.comment
  | term t => t.comment
  | _ => none

namespace Block

variable {front text : List Char}

/-- A block behind `front`: the text of its entry, which no comment has joined yet, and the gap
below it. A comment meets the next entry only if a single line end stands between them. -/
structure Occupies (block : Block) (front own gap : List Char) : Prop where
  entry : block.entry.Occupies front own
  bare : block.entry.joined = none
  blank : Blank gap
  meets : block.meetsNext = true → ∀ c, block.entry = .comment c → LineEnd gap

private theorem read_of_entry {offset : Nat} {entry : Entry} {after : List Char}
    (h : Reader.entry offset text = .ok (entry, after)) :
    read offset text = (⟨entry, (dropBlankLines after).length = after.length &&
      !(dropBlankLines after).isEmpty⟩, dropBlankLines after) := by
  rw [read, h]

/-- A comment is followed by blank lines, or by the entry on the line below. -/
private theorem occupies_comment {c : Comment} {own after : List Char}
    (hown : CommentText c.level c.lines own) (h : Reader.LineBefore own after text) :
    ∃ gap, text = own ++ (gap ++ dropBlankLines after) ∧
      Occupies ⟨.comment c, (dropBlankLines after).length = after.length &&
        !(dropBlankLines after).isEmpty⟩ front own gap := by
  rcases h with ⟨rfl, rfl⟩ | ⟨e, he, rfl⟩
  · refine ⟨[], by simp [dropBlankLines, dropBlankLinesFrom], hown, rfl, blank_nil, ?_⟩
    simp [dropBlankLines, dropBlankLinesFrom]
  · obtain ⟨blank, hafter, hblank, -⟩ := dropBlankLines_spec after
    refine ⟨e ++ blank, ?_, hown, rfl, he.blank.append hblank, fun hmeets _ _ => ?_⟩
    · rw [List.append_assoc, ← hafter]
    · have hlen : (dropBlankLines after).length = after.length := by
        simp only [Bool.and_eq_true, decide_eq_true_eq] at hmeets
        exact hmeets.1
      have hnil : blank = [] := by
        have hsum := congrArg List.length hafter
        rw [List.length_append] at hsum
        exact List.length_eq_zero_iff.mp (by omega)
      simpa [hnil] using he

/-- A block takes the text of its entry, and the blanks below it. -/
theorem read_occupies (front : List Char) (hne : text ≠ []) :
    ∃ own gap, text = own ++ (gap ++ (read (byteLength front) text).2) ∧
      (read (byteLength front) text).1.Occupies front own gap := by
  -- Messages and terms are read alike, up to what becomes of their parts.
  have hunit (comment : Option Comment) (span : Span) (entry : Entry) (after : List Char)
      (hrun : Reader.UnitRead (byteLength front) comment span text after) :
      ∃ own gap, text = own ++ (gap ++ dropBlankLines after) ∧ Blank gap ∧
        UnitText front comment span own := by
    obtain ⟨own, gap, htext, hgap, hown⟩ := hrun.unitText
    obtain ⟨blank, hafter, hblank, -⟩ := dropBlankLines_spec after
    refine ⟨own, gap ++ blank, ?_, hgap.append hblank, hown⟩
    rw [htext, List.append_assoc, ← hafter]
  -- Junk takes what recovery has passed over, and an entry what its reader has.
  cases hr : Reader.entry (byteLength front) text with
  | error failure =>
    have hsuffix := (Reader.contained_entry _).suffix_of_error hr
    obtain ⟨own, hown, htext, hcontent, hspan⟩ := junk_spec (byteLength front) hne hsuffix
    obtain ⟨blank, hafter, hblank, -⟩ :=
      dropBlankLines_spec (junk (byteLength front) text failure).2
    refine ⟨own, blank, ?_, ?_⟩
    · simp only [read, hr]
      rw [← hafter]
      exact htext
    · simp only [read, hr]
      refine ⟨⟨by rw [hcontent, String.toList_ofList], ?_⟩, rfl, hblank, by rintro ⟨⟩⟩
      rw [hspan]
      exact Span.marks_of_ne_nil hown
  | ok result =>
    obtain ⟨entry, after⟩ := result
    rw [read_of_entry hr]
    rw [Reader.entry_apply] at hr
    split_ifs at hr
    · obtain ⟨c, mid, hrun, h⟩ := Reader.bind_eq_ok hr
      cases h
      obtain ⟨own, hown, hbefore⟩ := Reader.comment_ok hrun
      exact ⟨own, occupies_comment hown hbefore⟩
    · obtain ⟨t, mid, hrun, h⟩ := Reader.bind_eq_ok hr
      cases h
      have hread := Reader.term_ok hrun
      obtain ⟨own, gap, htext, hgap, hown⟩ := hunit _ _ (.term t) _ hread
      exact ⟨own, gap, htext, hown, hread.bare, hgap, by rintro _ _ ⟨⟩⟩
    · obtain ⟨m, mid, hrun, h⟩ := Reader.bind_eq_ok hr
      cases h
      have hread := Reader.message_ok hrun
      obtain ⟨own, gap, htext, hgap, hown⟩ := hunit _ _ (.message m) _ hread
      exact ⟨own, gap, htext, hown, hread.bare, hgap, by rintro _ _ ⟨⟩⟩

/-- A text behind `front` is made of blocks. -/
inductive Tiling : (front : List Char) → List Block → List Char → Prop
  | nil {front : List Char} : Tiling front [] []
  | cons {front own gap rest : List Char} {block : Block} {blocks : List Block}
      (h : block.Occupies front own gap) (hrest : Tiling (front ++ (own ++ gap)) blocks rest) :
      Tiling front (block :: blocks) (own ++ (gap ++ rest))

/-- The blocks of a text tile it, by induction on its length. -/
theorem tiling_all (front text : List Char) : Tiling front (all (byteLength front) text) text := by
  induction hn : text.length using Nat.strong_induction_on generalizing front text with
  | _ n ih =>
    by_cases hne : text = []
    · subst hne
      exact .nil
    have hlt := read_length_lt (byteLength front) hne
    obtain ⟨own, gap, htext, hblock⟩ := read_occupies front hne
    have hbefore : before text (read (byteLength front) text).2 = own ++ gap :=
      before_eq (by rwa [List.append_assoc])
    -- The next block stands behind what the first one takes, which is its text and the gap below.
    have hrest := ih _ (hn ▸ hlt) (front ++ (own ++ gap)) _ rfl
    rw [byteLength_append] at hrest
    rw [all_of_ne_nil _ hne, hbefore]
    conv => arg 3; rw [htext]
    exact .cons hblock hrest

/-- A comment and a unit that meet have one text. -/
private theorem Tiling.join {c : Comment} {span : Span} {unit : Block} {blocks : List Block}
    (h : Tiling front (⟨.comment c, true⟩ :: unit :: blocks) text)
    (hunit : ∀ {front own gap}, unit.Occupies front own gap → UnitText front none span own) :
    ∃ own gap rest, text = own ++ (gap ++ rest) ∧ UnitText front (some c) span own ∧ Blank gap ∧
      Tiling (front ++ (own ++ gap)) blocks rest := by
  obtain _ | @⟨_, lines, e, _, _, _, hcomment, hrest⟩ := h
  obtain _ | @⟨_, own, gap, rest, _, _, hblock, hrest⟩ := hrest
  obtain ⟨lead, marked, rfl, hlead, hmarks, hlast⟩ := hunit hblock
  cases hlead
  refine ⟨lines ++ e ++ marked, gap, rest, by simp, ⟨lines ++ e, marked, rfl, ?_, ?_, hlast⟩,
    hblock.blank, by simpa using hrest⟩
  · exact .some hcomment.entry (hcomment.meets rfl c rfl)
  · simpa using hmarks

/-- Joining comments keeps the texts of the entries in place. -/
theorem tiles_joinComments {blocks : List Block} {gap : List Char} (hgap : Blank gap)
    (h : Tiling (front ++ gap) blocks text) : Tiles front (joinComments blocks) (gap ++ text) := by
  fun_induction joinComments blocks generalizing front gap text with
  | case1 lines m meets rest ih =>
    have hunit {front own gap : List Char} (hm : Occupies ⟨.message m, meets⟩ front own gap) :
        UnitText front none m.span own := by
      have hbare : m.comment = none := hm.bare
      exact hbare ▸ hm.entry
    obtain ⟨own, below, after, rfl, hjoined, hbelow, hrest⟩ := h.join hunit
    exact .cons hgap hjoined (ih hbelow (by simpa using hrest))
  | case2 lines t meets rest ih =>
    have hunit {front own gap : List Char} (ht : Occupies ⟨.term t, meets⟩ front own gap) :
        UnitText front none t.span own := by
      have hbare : t.comment = none := ht.bare
      exact hbare ▸ ht.entry
    obtain ⟨own, below, after, rfl, hjoined, hbelow, hrest⟩ := h.join hunit
    exact .cons hgap hjoined (ih hbelow (by simpa using hrest))
  | case3 block rest _ _ ih =>
    obtain _ | @⟨_, own, below, after, _, _, hblock, hrest⟩ := h
    exact .cons hgap hblock.entry (ih hblock.blank (by simpa using hrest))
  | case4 =>
    cases h
    simpa using .nil hgap

end Block

/-- Every source is the texts of its entries, with blanks around them. -/
theorem parse_tiles (source : String) : Tiles [] (Resource.parse source).entries source.toList := by
  obtain ⟨blank, hsource, hblank, -⟩ := dropBlankLines_spec source.toList
  rw [Resource.entries_parse, before_eq hsource]
  conv => arg 3; rw [hsource]
  exact Block.tiles_joinComments hblank (Block.tiling_all ([] ++ blank) _)

end Phrasebook
