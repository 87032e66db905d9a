import Phrasebook.Proofs.RoundTrip.ReadBack.Resource
import Phrasebook.Proofs.RoundTrip.Reading.Entry

/-!
# What is printed is what was read

A tree in which no pattern has an indentation in common is its own dedented tree. Reading makes such
trees of every source in which no line begins with a brace, so that what is printed of them is read
back as they are, and is printed again as it stands. Where a line does begin with a brace, the lines
around it keep an indentation in common, which the second reading takes away.
-/

namespace Phrasebook

/-! ## Trees that dedenting leaves as they are -/

/-- A pattern as reading makes it, whose lines have no spaces in common. -/
structure Pattern.Settled (p : Pattern) : Prop where
  sound : p.Sound
  aligned : p.Aligned

/-- What stands one level deeper is left as it is by dedenting, and so are the lines of patterns. -/
structure Shape.Settled (shape : Shape) : Prop where
  placeable : ∀ e, shape.placeable e → e.dedent = e
  arguments : ∀ a, shape.arguments a → a.dedent = a
  pattern : ∀ p, shape.pattern p → p.Settled

namespace Shape

variable {shape : Shape} {Q : Pattern → Prop}

/-- In a settled shape an inline expression is left as it is by dedenting. -/
theorem Settled.inline (h : shape.Settled) {e : Expression} (he : shape.Inline e) :
    e.dedent = e := by
  cases e with
  | string l => rfl
  | number l => rfl
  | variableRef name => rfl
  | messageRef id attr => rfl
  | termRef id attr arguments =>
    cases arguments with
    | none => rfl
    | some arguments =>
      rw [Expression.dedent, h.arguments arguments (he.2.2 arguments rfl)]
  | call name arguments => rw [Expression.dedent, h.arguments arguments he.2.2]
  | select selector variants => exact he.elim
  | placeable inner => rw [Expression.dedent, h.placeable inner he]

/-- In a settled shape arguments are left as they are by dedenting. -/
theorem Settled.listed (h : shape.Settled) {a : CallArguments} (ha : shape.Listed a) :
    a.dedent = a := by
  obtain ⟨positional, named⟩ := a
  rw [CallArguments.dedent, Expression.dedentAll_eq_map,
    List.map_congr_left fun e he => h.inline (ha.positional e he), List.map_id']

/-- In a settled shape dedenting gives back the lines of a pattern as they are. -/
theorem Settled.lines (h : shape.Settled) {p : Pattern} (hp : shape.Lines p) :
    p.dedent? = some p := by
  obtain ⟨hsound, haligned⟩ := h.pattern p hp.pattern
  have helements : p.map PatternElement.dedent = p := by
    refine (List.map_congr_left fun element helement => ?_).trans (List.map_id' p)
    cases element with
    | text value => rfl
    | placeable e =>
      rw [PatternElement.dedent, h.placeable e (hsound.holds_of_mem hp.holds helement)]
  rw [Pattern.dedent?, helements, hsound.unindent?_eq_self haligned]

/-- In a settled shape a pattern is left as it is by dedenting. -/
theorem Settled.value (h : shape.Settled) {p : Pattern} (hp : shape.Value p) : p.dedent = p := by
  rw [Pattern.dedent, h.lines hp.toLines, Option.getD_some]

/-- In a settled shape the variants of a selection are left as they are by dedenting. -/
theorem Settled.arms (h : shape.Settled) {variants : List Variant} (hv : shape.Arms variants) :
    Variant.dedentAll variants = variants := by
  rw [Variant.dedentAll_eq_map]
  refine (List.map_congr_left fun v hmem => ?_).trans (List.map_id' variants)
  obtain ⟨key, value, isDefault⟩ := v
  rw [Variant.dedent_eq, h.value (hv.values _ hmem)]

/-- In a settled shape an expression with selections is left as it is by dedenting. -/
theorem Settled.full (h : shape.Settled) {e : Expression} (he : shape.Full e) : e.dedent = e := by
  rcases he.select_or_inline with ⟨selector, variants, rfl, hselector, -, harms⟩ | ⟨hinline, -⟩
  · rw [Expression.dedent, h.inline hselector, h.arms harms]
  · exact h.inline hinline

/-- If the patterns at the bottom are settled, expressions nested to any level are. -/
theorem settled_levels (hQ : ∀ p, Q p → p.Settled) (level : Nat) : (levels Q level).Settled := by
  induction level with
  | zero => exact ⟨fun _ he => he.elim, fun _ ha => ha.elim, hQ⟩
  | succ level ih => exact ⟨fun _ he => ih.full he, fun _ ha => ih.listed ha, hQ⟩

end Shape

/-! ## Dedenting twice -/

namespace Segment

variable {startsLine : Bool} {segments : List Segment}

private theorem Lined.map_dedent (h : Lined startsLine segments) :
    Lined startsLine (segments.map Segment.dedent) := by
  induction segments generalizing startsLine with
  | nil => trivial
  | cons segment rest ih =>
    obtain ⟨hfits, hnext, hrest⟩ := h
    refine ⟨by cases segment <;> exact hfits, ?_, ?_⟩
    · intro next hmem
      rw [List.head?_map] at hmem
      obtain ⟨s, hs, rfl⟩ := Option.map_eq_some_iff.mp hmem
      simpa using hnext s hs
    · rw [endsLine_dedent]
      exact ih hrest

private theorem Closed.map_dedent (h : Closed segments) : Closed (segments.map Segment.dedent) := by
  obtain ⟨init, segment, rfl, hsolid, htrim⟩ := h
  refine ⟨init.map Segment.dedent, segment.dedent, by simp, ?_, ?_⟩
  · cases segment <;> exact hsolid
  · cases segment with
    | text indent content newline => exact htrim
    | placeable atMargin expression => rfl

end Segment

namespace Pattern

variable {p : Pattern}

/-- A sound pattern is sound with the patterns inside it dedented. -/
theorem Sound.map_dedent (h : p.Sound) : Sound (p.map PatternElement.dedent) := by
  have hwritten := writtenSegments_map_dedent p
  refine ⟨?_, ?_, ?_, hwritten ▸ h.closed.map_dedent⟩
  · rw [hwritten, ownLines_map_dedent]
    exact h.lined.map_dedent
  · have hwhole : (p.writtenSegments.map Segment.dedent).map Segment.whole =
        (p.writtenSegments.map Segment.whole).map PatternElement.dedent := by
      rw [List.map_map, List.map_map]
      exact List.map_congr_left fun s _ => Segment.whole_dedent s
    rw [hwritten, hwhole, join_map_dedent, h.joined]
  · intro segment hsegment
    rw [hwritten, List.head?_map] at hsegment
    obtain ⟨s, hs, rfl⟩ := Option.map_eq_some_iff.mp hsegment
    have := h.begins s hs
    cases s <;> exact this

/-- A pattern is made of the segments in which it is written once their common indentation is taken
away; it is sound, and its lines have no spaces in common. -/
theorem Sound.unindent? (h : p.Sound) :
    ∃ q, p.unindent? = some q ∧ q.Settled ∧
      ∀ P, (∀ s ∈ p.writtenSegments, s.Holds P) → ∀ s ∈ q.writtenSegments, s.Holds P := by
  have hread := h.unindent?_eq
  rw [Pattern.unindent?, h.readSegments_eq] at hread
  obtain ⟨hsound, hholds, haligned⟩ := sound_ofSegments? h.lined h.begins hread
  refine ⟨_, ?_, ⟨hsound, haligned (offMargin_writtenSegments p)⟩, hholds⟩
  rw [Pattern.unindent?, h.readSegments_eq, hread]

end Pattern

/-- Dedenting takes what stands one level deeper in one shape to what does so in another, in which
the lines of patterns have no spaces in common. -/
structure Shape.DedentsTo (shape shape' : Shape) : Prop where
  placeable : ∀ e, shape.placeable e → shape'.placeable e.dedent
  arguments : ∀ a, shape.arguments a → shape'.arguments a.dedent
  sound : ∀ p, shape.pattern p → p.Sound
  pattern : ∀ p, p.Settled → shape'.pattern p

namespace Shape

variable {shape shape' : Shape} {Q : Pattern → Prop}

/-- Dedenting takes an inline expression of one shape to one of the other. -/
theorem DedentsTo.inline (h : shape.DedentsTo shape') {e : Expression} (he : shape.Inline e) :
    shape'.Inline e.dedent := by
  cases e with
  | termRef id attr arguments =>
    cases arguments with
    | none => exact ⟨he.1, he.2.1, by rintro _ ⟨⟩⟩
    | some arguments =>
      refine ⟨he.1, he.2.1, ?_⟩
      rintro _ ⟨⟩
      exact h.arguments arguments (he.2.2 arguments rfl)
  | call name arguments => exact ⟨he.1, he.2.1, h.arguments arguments he.2.2⟩
  | placeable inner => exact h.placeable inner he
  | _ => exact he

/-- Dedenting takes arguments of one shape to arguments of the other. -/
theorem DedentsTo.listed (h : shape.DedentsTo shape') {a : CallArguments} (ha : shape.Listed a) :
    shape'.Listed a.dedent := by
  obtain ⟨positional, named⟩ := a
  refine ⟨?_, ha.named, ha.distinct⟩
  intro e he
  rw [CallArguments.dedent, Expression.dedentAll_eq_map] at he
  obtain ⟨e, hmem, rfl⟩ := List.mem_map.mp he
  exact h.inline (ha.positional e hmem)

/-- The lines of a pattern of one shape are not lost in dedenting, and become a pattern of the
other. -/
theorem DedentsTo.lines (h : shape.DedentsTo shape') {p : Pattern} (hp : shape.Lines p) :
    ∃ q, p.dedent? = some q ∧ shape'.Value q := by
  obtain ⟨q, hq, hsettled, hholds⟩ := (h.sound p hp.pattern).map_dedent.unindent?
  refine ⟨q, hq, ⟨hsettled.sound.lined.laid, hholds _ fun s hs => ?_, h.pattern q hsettled⟩, ?_⟩
  rotate_left
  · rw [hsettled.sound.unindent?_eq, Option.isSome_some]
  rw [Pattern.writtenSegments_map_dedent] at hs
  obtain ⟨t, ht, rfl⟩ := List.mem_map.mp hs
  have hheld := hp.holds t ht
  cases t with
  | text indent content newline => trivial
  | placeable atMargin e => exact h.placeable e hheld

/-- Dedenting takes a pattern of one shape to one of the other. -/
theorem DedentsTo.value (h : shape.DedentsTo shape') {p : Pattern} (hp : shape.Value p) :
    shape'.Value p.dedent := by
  obtain ⟨q, hq, hvalue⟩ := h.lines hp.toLines
  rwa [Pattern.dedent, hq, Option.getD_some]

/-- Dedenting takes the variants of a selection in one shape to variants in the other. -/
theorem DedentsTo.arms (h : shape.DedentsTo shape') {variants : List Variant}
    (hv : shape.Arms variants) : shape'.Arms (Variant.dedentAll variants) := by
  rw [Variant.dedentAll_eq_map]
  refine ⟨by simpa using hv.ne_nil, ?_, ?_, ?_⟩
  · intro v hmem
    obtain ⟨arm, harm, rfl⟩ := List.mem_map.mp hmem
    rw [Variant.dedent_eq]
    exact hv.keys arm harm
  · intro v hmem
    obtain ⟨arm, harm, rfl⟩ := List.mem_map.mp hmem
    rw [Variant.dedent_eq]
    exact h.value (hv.values arm harm)
  · rw [List.countP_map, ← hv.default]
    refine List.countP_congr fun v _ => ?_
    rw [Function.comp_apply, Variant.dedent_eq]

/-- Dedenting takes an expression with selections in one shape to one in the other. -/
theorem DedentsTo.full (h : shape.DedentsTo shape') {e : Expression} (he : shape.Full e) :
    shape'.Full e.dedent := by
  cases e with
  | select selector variants =>
    obtain ⟨hselector, hproblem, harms⟩ := he
    exact ⟨h.inline hselector, by rwa [Reader.selectorProblem?_dedent], h.arms harms⟩
  | termRef id attr arguments =>
    cases attr with
    | none =>
      have hinline := h.inline (e := .termRef id none arguments) he
      cases arguments <;> exact hinline
    | some attr => exact he.elim
  | string l => exact h.inline (e := .string l) he
  | number l => exact h.inline (e := .number l) he
  | variableRef name => exact h.inline (e := .variableRef name) he
  | messageRef id attr => exact h.inline (e := .messageRef id attr) he
  | call name arguments => exact h.inline (e := .call name arguments) he
  | placeable inner => exact h.inline (e := .placeable inner) he

/-- Dedenting settles sound patterns at every level of nesting. -/
theorem dedentsTo_levels (hQ : ∀ p, Q p → p.Sound) (level : Nat) :
    (levels Q level).DedentsTo (levels Pattern.Settled level) := by
  induction level with
  | zero => exact ⟨fun _ he => he.elim, fun _ ha => ha.elim, hQ, fun _ hp => hp⟩
  | succ level ih => exact ⟨fun _ he => ih.full he, fun _ ha => ih.listed ha, hQ, fun _ hp => hp⟩

end Shape

section Entries

variable {Q : Pattern → Prop}

private theorem dedent_of_inFull (hQ : ∀ p, Q p → p.Settled) {p : Pattern}
    (h : p.InFull Q) : p.dedent = p :=
  (Shape.settled_levels hQ maxNesting).value h

private theorem dedent_attributes (hQ : ∀ p, Q p → p.Settled) {attributes : List Attribute}
    (h : ∀ a ∈ attributes, a.Sound Q) : attributes.map Attribute.dedent = attributes := by
  refine (List.map_congr_left fun a ha => ?_).trans (List.map_id' attributes)
  rw [Attribute.dedent, dedent_of_inFull hQ (h a ha).value]

/-- Where no pattern has an indentation in common, an entry is left as it is. -/
theorem Entry.Sound.dedent_eq (hQ : ∀ p, Q p → p.Settled) {e : Entry} (h : e.Sound Q) :
    e.dedent = e := by
  cases e with
  | message m =>
    have hm : m.Sound Q := h
    have hvalue : m.value.bind Pattern.dedent? = m.value := by
      cases hv : m.value with
      | none => rfl
      | some p => exact (Shape.settled_levels hQ maxNesting).lines (hm.value p hv)
    rw [Entry.dedent, hvalue, dedent_attributes hQ hm.attributes]
  | term t =>
    have ht : t.Sound Q := h
    rw [Entry.dedent, dedent_of_inFull hQ ht.value, dedent_attributes hQ ht.attributes]
  | comment c => rfl
  | junk j => rfl

end Entries

/-- What is read back of a sound entry is sound, and none of its patterns has an indentation in
common. -/
theorem Entry.Sound.dedent {Q : Pattern → Prop} (hQ : ∀ p, Q p → p.Sound) {e : Entry}
    (h : e.Sound Q) : e.dedent.Sound Pattern.Settled := by
  have hlevels := Shape.dedentsTo_levels hQ maxNesting
  have hvalue : ∀ {p : Pattern}, p.InFull Q → p.dedent.InFull Pattern.Settled :=
    fun hp => hlevels.value hp
  have hattributes : ∀ {attributes : List Attribute}, (∀ a ∈ attributes, a.Sound Q) →
      ∀ a ∈ attributes.map Attribute.dedent, a.Sound Pattern.Settled := by
    intro attributes ha a hmem
    obtain ⟨b, hb, rfl⟩ := List.mem_map.mp hmem
    exact ⟨(ha b hb).id, hvalue (ha b hb).value⟩
  cases e with
  | message m =>
    have hm : m.Sound Q := h
    refine ⟨hm.id, ?_, hattributes hm.attributes, ?_, hm.comment⟩
    · intro p hp
      obtain ⟨p, hmem, hp⟩ := Option.bind_eq_some_iff.mp hp
      obtain ⟨q, hq, hvalue⟩ := hlevels.lines (hm.value p hmem)
      obtain rfl := Option.some.inj (hq.symm.trans hp)
      exact hvalue.toLines
    · intro hnone
      cases hv : m.value with
      | none => simpa using hm.present (by rw [hv, Option.bind_none])
      | some p =>
        obtain ⟨q, hq, hvalue⟩ := hlevels.lines (hm.value p hv)
        have hpresent := hvalue.present
        rw [hv, Option.bind_some, hq, Option.bind_some] at hnone
        rw [hnone] at hpresent
        cases hpresent
  | term t =>
    have ht : t.Sound Q := h
    exact ⟨ht.id, hvalue ht.value, hattributes ht.attributes, ht.comment⟩
  | comment c => exact h
  | junk j => trivial

/-! ## Printing forgets what is plain -/

/-- A comment is written as its plain form is. -/
theorem Comment.pieces_plain (c : Comment) : c.plain.pieces = c.pieces := by
  obtain ⟨level, lines⟩ := c
  simp only [Comment.pieces, Comment.plain, List.flatMap_map]
  refine List.flatMap_congr fun line _ => ?_
  by_cases hblank : line.toList.all Text.isWhitespace
  · have hempty : plainLine line = "" := if_pos hblank
    simp [hempty, hblank]
  · have hkept : plainLine line = line := if_neg hblank
    rw [hkept]

/-- The comment of a definition, if there is one, is written as its plain form is. -/
theorem Comment.piecesOf_plain (comment : Option Comment) :
    Comment.piecesOf (comment.map Comment.plain) = Comment.piecesOf comment := by
  cases comment with
  | none => rfl
  | some c => exact c.pieces_plain

/-- An entry is written as its plain form is. -/
@[simp] theorem Entry.pieces_plain (e : Entry) : e.plain.pieces = e.pieces := by
  cases e with
  | message m => simp only [Entry.plain, Entry.pieces, Comment.piecesOf_plain]
  | term t => simp only [Entry.plain, Entry.pieces, Comment.piecesOf_plain]
  | comment c => simp only [Entry.plain, Entry.pieces, Comment.pieces_plain]
  | junk j => rfl

/-- The gap above an entry is that above its plain form. -/
@[simp] theorem Entry.gap_plain (e : Entry) : e.plain.gap = e.gap := by
  cases e <;> rfl

/-- It makes no difference whether an entry is dedented first or made plain first. -/
theorem Entry.dedent_plain (e : Entry) : e.plain.dedent = e.dedent.plain := by
  cases e <;> rfl

/-- An entry is junk where its plain form is. -/
@[simp] theorem Entry.isJunk_plain (e : Entry) : e.plain.isJunk = e.isJunk := by
  cases e <;> rfl

/-- What is not written of entries makes no difference to their pieces. -/
theorem Resource.pieces_map_plain (entries : List Entry) :
    Resource.pieces (entries.map Entry.plain) = Resource.pieces entries := by
  rcases entries with _ | ⟨first, rest⟩
  · rfl
  · simp [Resource.pieces, List.flatMap_map]

/-- Resources whose entries but junk agree in what is written are printed alike. -/
theorem Resource.print_congr {r r' : Resource}
    (h : (r.entries.filter fun e => !e.isJunk).map Entry.plain =
      (r'.entries.filter fun e => !e.isJunk).map Entry.plain) : r.print false = r'.print false := by
  have hpieces := congrArg Resource.pieces h
  rw [Resource.pieces_map_plain, Resource.pieces_map_plain] at hpieces
  simp only [Resource.print, hpieces, Bool.false_eq_true, if_false]

/-! ## The round trip -/

/-- What is printed of sound entries is read back without junk. -/
theorem Resource.isJunk_parse_print {Q : Pattern → Prop} {r : Resource}
    (h : ∀ e ∈ r.entries, e.Sound Q) :
    ∀ e ∈ (Resource.parse (r.print false)).entries, e.isJunk = false := by
  intro e he
  have hplain := List.mem_map_of_mem (f := Entry.plain) he
  rw [Resource.parse_print h] at hplain
  obtain ⟨other, hother, heq⟩ := List.mem_map.mp hplain
  have hdedent : other.dedent.isJunk = other.isJunk := by cases other <;> rfl
  rw [← Entry.isJunk_plain, ← heq, Entry.isJunk_plain, hdedent]
  simpa using List.of_mem_filter hother

/-- A sound resource is printed without junk so that no junk is read back. -/
theorem Resource.junk_parse_print {Q : Pattern → Prop} {r : Resource}
    (h : ∀ e ∈ r.entries, e.Sound Q) : (Resource.parse (r.print false)).junk = [] := by
  rw [Resource.junk, List.filterMap_eq_nil_iff]
  intro e he
  have hjunk := Resource.isJunk_parse_print h e he
  cases e with
  | junk j => cases hjunk
  | _ => rfl

/-- The normal form of a source: what is printed of its entries but junk. -/
def Resource.normalize (source : String) : String := (Resource.parse source).print false

open Resource (normalize)

/-- What is printed of a source is read back as its entries but junk, with their patterns
dedented. -/
private theorem parse_printed (source : String) :
    (Resource.parse (normalize source)).entries.map Entry.plain =
      ((Resource.parse source).entries.filter fun e => !e.isJunk).map fun e => e.dedent.plain :=
  Resource.parse_print (Resource.sound_parse source)

/-- What is printed of a source is read back without junk. -/
private theorem isJunk_parse_printed (source : String) :
    ∀ e ∈ (Resource.parse (normalize source)).entries, e.isJunk = false :=
  Resource.isJunk_parse_print (Resource.sound_parse source)

private theorem filter_printed (source : String) :
    ((Resource.parse (normalize source)).entries.filter fun e => !e.isJunk) =
      (Resource.parse (normalize source)).entries :=
  List.filter_eq_self.mpr fun e he => by rw [isJunk_parse_printed source e he]; rfl

private theorem parse_printed_of_braceFree {source : String} (h : BraceFree source.toList) :
    (Resource.parse (normalize source)).entries.map Entry.plain =
      ((Resource.parse source).entries.filter fun e => !e.isJunk).map Entry.plain := by
  have haligned : ∀ p, Pattern.From source.toList p → p.Settled :=
    fun p hp => ⟨hp.sound, hp.aligned h⟩
  rw [parse_printed]
  refine List.map_congr_left fun e he => ?_
  rw [(Resource.sound_parse source e (List.mem_of_mem_filter he)).dedent_eq haligned]

/-- A source in which no line begins with a brace is printed as a source with the same entries and
no junk, up to the places of the entries and the white space of comment lines that hold nothing
else. -/
theorem parse_print_parse (source : String) (h : BraceFree source.toList) :
    (Resource.parse ((Resource.parse source).print false)).junk = [] ∧
      (Resource.parse ((Resource.parse source).print false)).entries.map Entry.plain =
        ((Resource.parse source).entries.filter fun e => !e.isJunk).map Entry.plain :=
  ⟨Resource.junk_parse_print (Resource.sound_parse source), parse_printed_of_braceFree h⟩

/-- A select expression with a variant of several lines is read back from where it is printed. -/
theorem parse_print_parse_select :
    BraceFree "a = \x7b $n ->\n *[x] y\n     z \x7d\nb \n# c\n".toList ∧
      (Resource.parse ((Resource.parse
        "a = \x7b $n ->\n *[x] y\n     z \x7d\nb \n# c\n").print false)).junk = [] ∧
      (Resource.parse ((Resource.parse
        "a = \x7b $n ->\n *[x] y\n     z \x7d\nb \n# c\n").print false)).entries.map Entry.plain =
        ((Resource.parse "a = \x7b $n ->\n *[x] y\n     z \x7d\nb \n# c\n").entries.filter
          fun e => !e.isJunk).map Entry.plain :=
  ⟨by decide +kernel, parse_print_parse _ (by decide +kernel)⟩

/-- The normal form of a source in which no line begins with a brace is its own normal form. The
normal form of another source need not be, but its normal form is. -/
theorem normalize_normalize (source : String) :
    (BraceFree source.toList → normalize (normalize source) = normalize source) ∧
      normalize (normalize (normalize source)) = normalize (normalize source) := by
  constructor
  · intro h
    refine Resource.print_congr ?_
    rw [filter_printed, parse_printed_of_braceFree h]
  · have hdedented : ∀ e ∈ (Resource.parse (normalize source)).entries,
        e.dedent.plain = e.plain := by
      intro e he
      have hplain := List.mem_map_of_mem (f := Entry.plain) he
      rw [parse_printed] at hplain
      obtain ⟨first, hfirst, heq⟩ := List.mem_map.mp hplain
      have hsound := Resource.sound_parse source first (List.mem_of_mem_filter hfirst)
      rw [← Entry.dedent_plain, ← heq, Entry.dedent_plain,
        (hsound.dedent fun _ hp => hp.sound).dedent_eq
        fun _ hp => hp]
    refine Resource.print_congr ?_
    rw [filter_printed, parse_printed]
    exact List.map_congr_left fun e he => hdedented e (List.mem_of_mem_filter he)

/-- A select expression with a variant of several lines has a normal form that is its own. -/
theorem normalize_normalize_select :
    BraceFree "a = \x7b $n ->\n *[x] y\n     z \x7d\nb \n# c\n".toList ∧
      normalize (normalize "a = \x7b $n ->\n *[x] y\n     z \x7d\nb \n# c\n") =
        normalize "a = \x7b $n ->\n *[x] y\n     z \x7d\nb \n# c\n" :=
  ⟨by decide +kernel, (normalize_normalize _).1 (by decide +kernel)⟩

/-- Lines below a brace that begins a line keep the indentation that they have in common, but where
they are printed the brace is indented too, and the next reading takes their indentation away. -/
theorem normalize_brace_at_margin :
    normalize (normalize "m =\n\x7b $x \x7d\n y\n") ≠ normalize "m =\n\x7b $x \x7d\n y\n" := by
  decide +kernel

end Phrasebook
