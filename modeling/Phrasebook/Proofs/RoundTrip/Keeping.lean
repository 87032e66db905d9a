import Mathlib.Data.List.Chain
import Phrasebook.Proofs.RoundTrip.Preservation
import Phrasebook.Proofs.RoundTrip.ReadBack.Junk

/-!
# Junk that is kept

Where a resource is printed with its junk, the junk stands as it was read. What could not be read
fails before what is printed of the entry below it as it failed before the entry itself, since
recovery ends where an entry opens. So the entries are read back, unless a comment of its own stands
directly below junk: the empty line that is printed before the comment becomes part of the junk.
-/

namespace Phrasebook

open Text
open Piece (Writes)

variable {Q : Pattern → Prop} {lineStart : Bool}

/-! ## What is printed -/

/-- The text of an entry, and that of junk as it was read. -/
def Entry.kept : Entry → List Char
  | .junk j => j.content.toList
  | e => e.written

/-- The text of entries below another one. -/
def Entry.keptBelow (entries : List Entry) : List Char :=
  entries.flatMap fun e => e.gapText ++ e.kept

/-- Below an entry that is not junk, the next one is printed behind its gap. -/
theorem Entry.keptBelow_cons {e : Entry} (h : e.isJunk = false) (entries : List Entry) :
    Entry.keptBelow (e :: entries) = e.gapText ++ (e.written ++ Entry.keptBelow entries) := by
  cases e with
  | junk j => cases h
  | _ => exact List.append_assoc ..

/-- Text at the first column is written as it stands. -/
private theorem exists_writes_at (text : String) :
    ∃ ends, Writes lineStart [.at 0 text] text.toList ends := by
  refine ⟨_, ⟨?_, rfl⟩⟩
  by_cases hempty : text.toList.isEmpty
  · rw [Piece.layout, Piece.at, if_pos hempty, List.isEmpty_iff.mp hempty]
    rfl
  · rw [Piece.layout, Piece.at, if_neg hempty]
    cases lineStart <;> simp [columnOf, Piece.layout]

private theorem Entry.Sound.exists_writes {e : Entry} (h : e.Sound Q) :
    ∃ ends, Writes lineStart e.pieces e.kept ends := by
  cases e with
  | junk j => exact exists_writes_at j.content
  | _ => exact ⟨true, h.writes rfl⟩

private theorem exists_writes_gap (e : Entry) : ∃ ends, Writes lineStart e.gap e.gapText ends := by
  cases e with
  | comment c => exact ⟨true, Piece.writes_newline⟩
  | _ => exact ⟨lineStart, Piece.writes_nil⟩

private theorem exists_writes_below {entries : List Entry} (h : ∀ e ∈ entries, e.Sound Q) :
    ∃ ends, Writes lineStart (entries.flatMap fun e => e.gap ++ e.pieces)
      (Entry.keptBelow entries) ends := by
  induction entries generalizing lineStart with
  | nil => exact ⟨lineStart, Piece.writes_nil⟩
  | cons e rest ih =>
    obtain ⟨afterGap, hgap⟩ := exists_writes_gap e
    obtain ⟨afterEntry, hentry⟩ := (h e List.mem_cons_self).exists_writes
    obtain ⟨ends, hrest⟩ := ih fun e he => h e (List.mem_cons_of_mem _ he)
    exact ⟨ends, (hgap.append hentry).append hrest⟩

/-- A resource is printed with its junk as the text of all its entries. -/
theorem Resource.print_true_eq {first : Entry} {rest : List Entry}
    (h : ∀ e ∈ first :: rest, e.Sound Q) :
    (Resource.print true ⟨first :: rest⟩).toList = first.kept ++ Entry.keptBelow rest := by
  obtain ⟨mid, hfirst⟩ : ∃ mid, Writes false first.pieces first.kept mid :=
    (h first List.mem_cons_self).exists_writes
  obtain ⟨ends, hrest⟩ := exists_writes_below fun e he => h e (List.mem_cons_of_mem _ he)
  have hprint : (Resource.print true ⟨first :: rest⟩).toList =
      Piece.layout false (Resource.pieces (first :: rest)) := by
    simp [Resource.print]
  rw [hprint]
  exact (hfirst.append hrest).layout

/-- Up to the blank lines at its start, a resource is printed as if it stood below an entry. -/
theorem Resource.dropBlankLines_print_true {r : Resource} (h : ∀ e ∈ r.entries, e.Sound Q) :
    dropBlankLines (r.print true).toList = dropBlankLines (Entry.keptBelow r.entries) := by
  obtain ⟨_ | ⟨first, rest⟩⟩ := r
  · rfl
  rw [Resource.print_true_eq h]
  cases first with
  | comment c => exact (Reader.dropBlankLines_newline _).symm
  | _ => rfl

/-- An entry without what is not printed of it. -/
def Entry.shown (e : Entry) : Entry :=
  match e.plain with
  | .junk j => .junk { j with diagnostic.problem := .generic }
  | e => e

/-- Of junk only its content is shown. -/
theorem Entry.shown_junk (j : Junk) :
    (Entry.junk j).shown = .junk ⟨j.content, ⟨.generic, ⟨0, 0⟩⟩, ⟨0, 0⟩⟩ := rfl

/-- An entry is printed as what is shown of it. -/
@[simp] theorem Entry.pieces_shown (e : Entry) : e.shown.pieces = e.pieces := by
  rw [← e.pieces_plain]
  cases e <;> rfl

/-- The gap above an entry is that above what is shown of it. -/
@[simp] theorem Entry.gap_shown (e : Entry) : e.shown.gap = e.gap := by
  cases e <;> rfl

/-- An entry is junk where what is shown of it is. -/
@[simp] theorem Entry.isJunk_shown (e : Entry) : e.shown.isJunk = e.isJunk := by
  cases e <;> rfl

/-- An entry is a comment where what is shown of it is. -/
@[simp] theorem Entry.isComment_shown (e : Entry) : e.shown.isComment = e.isComment := by
  cases e <;> rfl

/-- Dedenting takes what is shown of an entry to what is shown of it dedented. -/
theorem Entry.dedent_shown (e : Entry) : e.shown.dedent = e.dedent.shown := by
  cases e <;> rfl

/-- What is not printed of entries makes no difference to what is printed. -/
theorem Resource.print_true_congr {r r' : Resource}
    (h : r.entries.map Entry.shown = r'.entries.map Entry.shown) :
    r.print true = r'.print true := by
  have hpieces (entries : List Entry) :
      Resource.pieces (entries.map Entry.shown) = Resource.pieces entries := by
    rcases entries with _ | ⟨first, rest⟩
    · rfl
    · simp [Resource.pieces, List.flatMap_map]
  have hsame := congrArg Resource.pieces h
  rw [hpieces, hpieces] at hsame
  simp only [Resource.print, hsame, if_true]

/-! ## What is read back -/

/-- No comment that stands alone is directly below junk. -/
def Entry.CommentsApart (entries : List Entry) : Prop :=
  entries.IsChain fun above below => ¬(above.isJunk ∧ below.isComment)

instance (entries : List Entry) : Decidable (Entry.CommentsApart entries) :=
  inferInstanceAs (Decidable (List.IsChain _ entries))

/-- Whether comments stand apart from junk rests only on which entries are comments and which are
junk. -/
theorem Entry.commentsApart_map (f : Entry → Entry) (hjunk : ∀ e, (f e).isJunk = e.isJunk)
    (hcomment : ∀ e, (f e).isComment = e.isComment) {entries : List Entry} :
    CommentsApart (entries.map f) ↔ CommentsApart entries := by
  simp only [CommentsApart, List.isChain_map, hjunk, hcomment]

/-- Entries with one plain form show the same. -/
theorem Entry.shown_eq {e e' : Entry} (h : e.plain = e'.plain) : e.shown = e'.shown := by
  rw [Entry.shown, h]
  rfl

private theorem startsDefinition_definitionText {id : String} (hid : IsIdentifier id)
    (value : Option Pattern) (attributes : List Attribute) (more : List Char) :
    StartsDefinition (definitionText id value attributes ++ more) := by
  obtain ⟨c, name, htext, hc, hname⟩ := hid
  refine ⟨c, name, [' '], value.elim [] (Pattern.written 0) ++
    (attributes.flatMap Attribute.written ++ '\n' :: more), ?_, hc, hname, by simp⟩
  simp [definitionText, htext]

/-- A unit that is printed opens an entry, with the comment above it. -/
theorem Entry.Sound.opensEntry {e : Entry} (h : e.Sound Q) (hwritten : e.isJunk = false)
    (hdefined : e.isComment = false) (more : List Char) :
    OpensEntry (e.gapText ++ (e.written ++ more)) := by
  have hbelow {comment : Option Comment} (hcomment : ∀ c ∈ comment, c.level = .entry ∧ c.Sound)
      {text : List Char} (hunit : StartsUnit (text ++ more)) :
      OpensEntry (comment.elim [] Comment.written ++ text ++ more) := by
    cases comment with
    | none => exact hunit.opensEntry
    | some c =>
      obtain ⟨line, hline⟩ := (hcomment c rfl).2.begins
      exact .inr ⟨_, by rw [Option.elim_some, hline, List.cons_append, List.cons_append]⟩
  cases e with
  | message m =>
    exact hbelow (Message.Sound.comment h)
      (.inl (startsDefinition_definitionText (Message.Sound.id h) _ _ more))
  | term t =>
    exact hbelow (Term.Sound.comment h)
      (.inr ⟨_, rfl, startsDefinition_definitionText (Term.Sound.id h) _ _ more⟩)
  | comment c => cases hdefined
  | junk j => cases hwritten

namespace Block

variable {text rest : List Char} {entries : List Entry} {offset : Nat}

/-- What is printed of the entries of a text is read back as they are, and can stand where the text
stands: below a unit, and below junk unless a comment comes first. -/
structure Kept (text : List Char) (entries : List Entry) : Prop where
  reads : ∀ offset, (joinComments (all offset (dropBlankLines (Entry.keptBelow entries)))).map
    Entry.shown = entries.map fun e => e.dedent.shown
  ends : Reader.UnitEnds text → Reader.UnitEnds (Entry.keptBelow entries)
  same : (∀ e ∈ entries.head?, e.isComment = false) → SameToEntry text (Entry.keptBelow entries)

/-- Nothing is printed of no entries, and nothing is read back of it. -/
theorem kept_nil : Kept [] [] := ⟨fun _ => rfl, id, fun _ => .inl rfl⟩

variable {e : Entry}

private theorem Kept.reads_cons (h : Kept rest entries) (he : e.Sound Q)
    (hwritten : e.isJunk = false) (hends : e.isComment = false → Reader.UnitEnds rest)
    (offset : Nat) :
    (joinComments (all offset (dropBlankLines (Entry.keptBelow (e :: entries))))).map Entry.shown =
      (e :: entries).map fun e => e.dedent.shown := by
  obtain ⟨e', next, hplain, hread⟩ :=
    joinComments_written he hwritten (fun hunit => h.ends (hends hunit)) offset
  rw [Entry.keptBelow_cons hwritten, he.dropBlankLines_gapText hwritten, hread, List.map_cons,
    List.map_cons, h.reads next, Entry.shown_eq hplain]

private theorem Kept.ends_cons (he : e.Sound Q) (hwritten : e.isJunk = false) :
    Reader.UnitEnds (Entry.keptBelow (e :: entries)) := by
  rw [Entry.keptBelow_cons hwritten]
  exact (he.entryBegins hwritten _).unitEnds

private theorem Kept.comment {c : Comment} (h : Kept rest entries)
    (hc : (Entry.comment c).Sound Q) : Kept text (.comment c :: entries) where
  reads := h.reads_cons hc rfl (by rintro ⟨⟩)
  ends _ := ends_cons hc rfl
  same hnone := by cases hnone _ rfl

private theorem Kept.unit (h : Kept rest entries) (he : e.Sound Q) (hwritten : e.isJunk = false)
    (hdefined : e.isComment = false) (hopens : OpensEntry text) (hends : Reader.UnitEnds rest) :
    Kept text (e :: entries) where
  reads := h.reads_cons he hwritten fun _ => hends
  ends _ := ends_cons he hwritten
  same _ := by
    rw [Entry.keptBelow_cons hwritten]
    exact .of_opensEntry hopens (he.opensEntry hwritten hdefined _)

/-- Junk is read back with what is printed below it, unless that is a comment. -/
private theorem Kept.junk {own : List Char} {j : Junk} {failure : Failure} (h : Kept rest entries)
    (hcontent : j.content.toList = own) (hne : own ≠ []) (hline : rest ≠ [] → LeadsToLine own)
    (hstarts : rest = [] ∨ startsEntry rest)
    (hfails : Reader.entry offset (own ++ rest) = .error failure)
    (hread : read offset (own ++ rest) = (⟨.junk j, false⟩, rest))
    (hshown : dropBlankLines (own ++ rest) = own ++ rest)
    (hapart : ∀ e ∈ entries.head?, e.isComment = false) :
    Kept (own ++ rest) (.junk j :: entries) := by
  have hbelow : Entry.keptBelow (.junk j :: entries) = own ++ Entry.keptBelow entries := by
    rw [Entry.keptBelow, List.flatMap_cons, Entry.kept, hcontent]
    rfl
  have hfirst := FirstLineShown.of_append hne hline hshown
  have hsame := h.same hapart
  refine ⟨fun offset' => ?_, fun hends => ?_, fun _ => ?_⟩
  -- What is printed below goes on as the text did, up to where an entry opens in both.
  · obtain ⟨j', hsameContent, hread'⟩ :=
      read_junk_same hsame hne hline hfails hread offset'
    have hnonempty : own ++ Entry.keptBelow entries ≠ [] := by simp [hne]
    have hrest := h.reads (offset' + byteLength (before (own ++ Entry.keptBelow entries)
      (Entry.keptBelow entries)))
    rw [hsame.dropBlankLines_eq hstarts] at hrest
    rw [hbelow, hfirst.dropBlankLines_append, all_of_ne_nil offset' hnonempty, hread',
      joinComments_cons (by rintro _ ⟨⟩), List.map_cons, hrest, List.map_cons, Entry.dedent,
      Entry.shown_junk, Entry.shown_junk, hsameContent]
  · exact hbelow ▸ hfirst.unitEnds hends _
  · exact hbelow ▸ hsame.append hline

/-- What is printed of a text is kept with its first entry if it is kept below that. -/
private theorem Takes.kept (h : Takes offset text e rest) (hrest : Kept rest entries)
    (he : e.Sound Q) (hshown : dropBlankLines text = text)
    (hapart : ∀ below ∈ entries.head?, ¬(e.isJunk ∧ below.isComment)) :
    Kept text (e :: entries) := by
  cases h with
  | comment => exact hrest.comment he
  | unit hwritten hdefined hopens hends => exact hrest.unit he hwritten hdefined hopens hends
  | junk hcontent hne hline hstarts hfails hread =>
    refine hrest.junk hcontent hne hline hstarts hfails hread hshown fun below hbelow => ?_
    simpa [Entry.isJunk] using hapart below hbelow

/-- What is printed of the entries of a text is kept, whatever the text holds, if the comments that
stand alone keep apart from junk. -/
theorem kept_all (offset : Nat) (hshown : dropBlankLines text = text)
    (hsound : ∀ e ∈ joinComments (all offset text), e.Sound Q)
    (hapart : Entry.CommentsApart (joinComments (all offset text))) :
    Kept text (joinComments (all offset text)) := by
  induction hn : text.length using Nat.strong_induction_on generalizing offset text with
  | _ size ih =>
    by_cases hne : text = []
    · subst hne
      exact kept_nil
    -- The first entry leaves a shorter text, which holds the entries below it.
    obtain ⟨e, next, rest, hentries, hlt, hrest, htakes⟩ := exists_takes offset hne
    rw [hentries] at hsound hapart ⊢
    rw [Entry.CommentsApart, List.isChain_cons] at hapart
    have hbelow := ih _ (hn ▸ hlt) next hrest (fun e he => hsound e (List.mem_cons_of_mem _ he))
      hapart.2 rfl
    exact htakes.kept hbelow (hsound e List.mem_cons_self) hshown hapart.1

end Block

namespace Resource

/-- A source as it is printed with its junk. -/
def normalizeKeeping (source : String) : String := (parse source).print true

/-- What is printed of a source with its junk is read back as its entries, with their patterns
dedented, unless a comment that stands alone is directly below junk. -/
theorem parse_normalizeKeeping {source : String}
    (h : Entry.CommentsApart (parse source).entries) :
    (parse (normalizeKeeping source)).entries.map Entry.shown =
      (parse source).entries.map fun e => e.dedent.shown := by
  have hsound := sound_parse source
  have hkept := Block.kept_all _ (dropBlankLines_idem source.toList) hsound h
  rw [← entries_parse] at hkept
  rw [entries_parse, normalizeKeeping, dropBlankLines_print_true hsound]
  exact hkept.reads _

private theorem parse_normalizeKeeping_of_braceFree {source : String}
    (h : Entry.CommentsApart (parse source).entries) (hbrace : BraceFree source.toList) :
    (parse (normalizeKeeping source)).entries.map Entry.shown =
      (parse source).entries.map Entry.shown := by
  have haligned : ∀ p, Pattern.From source.toList p → p.Settled :=
    fun p hp => ⟨hp.sound, hp.aligned hbrace⟩
  rw [parse_normalizeKeeping h]
  exact List.map_congr_left fun e he => by rw [(sound_parse source e he).dedent_eq haligned]

private theorem commentsApart_normalizeKeeping {source : String}
    (h : Entry.CommentsApart (parse source).entries) :
    Entry.CommentsApart (parse (normalizeKeeping source)).entries := by
  have hread := parse_normalizeKeeping h
  rw [← Entry.commentsApart_map Entry.shown Entry.isJunk_shown Entry.isComment_shown, hread]
  refine (Entry.commentsApart_map _ (fun e => ?_) fun e => ?_).mpr h <;> cases e <;> rfl

/-- A source of which no comment that stands alone is directly below junk, and of which no line
begins with a brace, is printed with its junk as a source that is printed as it stands. If lines do
begin with a brace, what is printed need not be, but what is printed of that is. -/
theorem normalizeKeeping_normalizeKeeping {source : String}
    (h : Entry.CommentsApart (parse source).entries) :
    (BraceFree source.toList →
      normalizeKeeping (normalizeKeeping source) = normalizeKeeping source) ∧
        normalizeKeeping (normalizeKeeping (normalizeKeeping source)) =
          normalizeKeeping (normalizeKeeping source) := by
  refine ⟨fun hbrace => print_true_congr (parse_normalizeKeeping_of_braceFree h hbrace), ?_⟩
  -- An indentation in common is taken away by the second reading, and none is left for a third.
  have hdedented : ∀ e ∈ (parse (normalizeKeeping source)).entries,
      e.dedent.shown = e.shown := by
    intro e he
    have hshown := List.mem_map_of_mem (f := Entry.shown) he
    rw [parse_normalizeKeeping h] at hshown
    obtain ⟨first, hfirst, heq⟩ := List.mem_map.mp hshown
    have hsound := (sound_parse source first hfirst).dedent fun _ hp => hp.sound
    rw [← Entry.dedent_shown, ← heq, Entry.dedent_shown, hsound.dedent_eq fun _ hp => hp]
  refine print_true_congr ?_
  rw [parse_normalizeKeeping (commentsApart_normalizeKeeping h)]
  exact List.map_congr_left hdedented

/-- Junk between messages, with a comment below the last of them, is printed as it stands. -/
theorem normalizeKeeping_junk_between_messages :
    Entry.CommentsApart (parse "bad\n\na =\n b\n\n  c\n1 = 2\nd = e\n# f\n").entries ∧
      BraceFree "bad\n\na =\n b\n\n  c\n1 = 2\nd = e\n# f\n".toList ∧
        normalizeKeeping (normalizeKeeping "bad\n\na =\n b\n\n  c\n1 = 2\nd = e\n# f\n") =
          normalizeKeeping "bad\n\na =\n b\n\n  c\n1 = 2\nd = e\n# f\n" :=
  ⟨by decide +kernel, by decide +kernel,
    (normalizeKeeping_normalizeKeeping (by decide +kernel)).1 (by decide +kernel)⟩

/-- The empty line that is printed above a comment becomes part of the junk above it, and another
one is printed. -/
theorem normalizeKeeping_comment_below_junk :
    normalizeKeeping (normalizeKeeping "bad\n# c\n") ≠ normalizeKeeping "bad\n# c\n" := by
  decide +kernel

end Resource

end Phrasebook
