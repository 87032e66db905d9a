import Phrasebook.Proofs.Outline
import Phrasebook.Proofs.Rewriting.Pruning
import Phrasebook.Proofs.RoundTrip.ReadBack.Segments
import Phrasebook.Proofs.StaticRules.Pattern

/-!
# What can be read of a tree that was cut down

Where members of a tree have been left out, the text that is left can be nothing but blanks, and a
character that stood inside a line can begin one. A tree without such text has the shape that
reading asks for, if the tree from which it was cut down was read.
-/

namespace Phrasebook

/-! ## Blank and exposed text -/

/-- A line of text begins with a character that ends a pattern. -/
def Segment.isExposed : Segment → Bool
  | text (some _) (c :: _) _ => Reader.endsPattern c
  | _ => false

/-- An element is text that holds nothing but blanks. -/
def PatternElement.isBlank : PatternElement → Bool
  | .text value => value.toList.all Text.isBlank
  | .placeable _ => false

namespace Pattern

/-- A pattern has no placeable and no text but blanks. -/
def isBlank (p : Pattern) : Bool := p.all PatternElement.isBlank

/-- A line of the pattern, where it is written, begins with a character that ends a pattern. -/
def isExposed (p : Pattern) : Bool := p.writtenSegments.any Segment.isExposed

end Pattern

/-- What is written of a node is read as such a node, if what is written of its parts is. -/
def Node.isReadable : Node → Bool
  | .message m => !m.attributes.isEmpty || m.value.any fun p => !p.isBlank
  | .term t => !t.value.isBlank
  | .attr a => !a.value.isBlank
  | .variant v => !Pattern.isBlank v.value
  | .pattern p => !p.isExposed
  | _ => true

/-- All nodes of an outline are readable. -/
def Outline.Readable (o : Outline) : Prop := ∀ node ∈ o.nodes, node.isReadable

instance (o : Outline) : Decidable o.Readable :=
  inferInstanceAs (Decidable (∀ node ∈ o.nodes, node.isReadable))

/-- A tree is readable if its root is and all inside of it. -/
theorem Outline.readable_mk {node : Node} {inside : List Outline} :
    (mk node inside).Readable ↔ node.isReadable ∧ ∀ o ∈ inside, o.Readable :=
  forall_nodes_mk

/-- What is inside the one node that a node holds is readable if that node is. -/
theorem Outline.Readable.inner {outer node : Node} {inside : List Outline}
    (h : (mk outer [mk node inside]).Readable) : ∀ o ∈ inside, o.Readable :=
  forall_nodes_inner h

/-! ## Lines that can be written -/

namespace Segment

/-- A line of text may stand where it is written unless it is exposed there. -/
theorem lies_ofLine (startsLine : Bool) (content : List Char) (newline : Bool)
    (hchars : ∀ c ∈ content, Reader.isTextChar c) (hne : newline = false → content ≠ [])
    (hshown : (ofLine startsLine (content ++ if newline then ['\n'] else [])).isExposed = false) :
    (ofLine startsLine (content ++ if newline then ['\n'] else [])).Lies startsLine := by
  rw [ofLine_content (newline_not_mem_of_isTextChar hchars)] at hshown ⊢
  cases startsLine with
  | false => exact ⟨rfl, hchars, by rintro ⟨⟩, fun hopen hnil => absurd hnil (hne hopen)⟩
  | true =>
    refine ⟨rfl, fun c hc => hchars c ((List.dropWhile_suffix _).subset hc), ?_, ?_⟩
    · intro _ c hc
      obtain ⟨rest, hdrop⟩ := List.head?_eq_some_iff.mp hc
      rw [hdrop] at hshown
      exact ⟨Text.ne_space_of_dropWhile hdrop, hshown⟩
    · intro hopen hdrop hzero
      have hspaces : content.takeWhile (· == ' ') = [] := List.length_eq_zero_iff.mp hzero
      exact hne hopen (by rw [← List.takeWhile_append_dropWhile (p := (· == ' ')) (l := content),
        hspaces, hdrop, List.nil_append])

/-- A blank segment is blank as an element. -/
theorem isBlank_whole {segment : Segment} (h : segment.isBlank) : (whole segment).isBlank := by
  rcases segment with ⟨indent, content, newline⟩ | ⟨atMargin, e⟩
  · have hcontent : content.all Text.isBlank := by
      rw [List.all_eq_true]
      intro c hc
      obtain rfl : c = ' ' := by simpa using List.all_eq_true.mp h c hc
      rfl
    rw [whole_text, PatternElement.isBlank, String.toList_ofList, line, List.all_append,
      List.all_append, hcontent]
    cases newline <;> simp [Text.isBlank, Text.isBreak]
  · cases h

end Segment

namespace Pattern

open Segment

variable {p : Pattern}

/-- The segments of a pattern begin with a placeable if the pattern does. -/
private theorem isText_head?_segments (h : ∀ element ∈ p.head?, ∃ e, element = .placeable e)
    (startsLine : Bool) : ∀ s ∈ (p.segments startsLine).head?, s.isText = false := by
  rcases p with _ | ⟨element, rest⟩
  · rintro _ ⟨⟩
  · obtain ⟨e, rfl⟩ := h element rfl
    rintro _ ⟨⟩
    rfl

/-- Text that is put before what does not begin with text is laid out line by line. -/
private theorem laid_cons_text (hrest : ∀ startsLine,
      (∀ s ∈ p.segments startsLine, s.isExposed = false) → Laid startsLine (p.segments startsLine))
    (hhead : ∀ element ∈ p.head?, ∃ e, element = .placeable e) {text : List Char}
    (hchars : ∀ c ∈ text, c ≠ '\n' → Reader.isTextChar c) (startsLine : Bool)
    (hshown : ∀ s ∈ segments startsLine (cons (.text (String.ofList text)) p),
      s.isExposed = false) :
    Laid startsLine (segments startsLine (cons (.text (String.ofList text)) p)) := by
  -- The induction is on the text, of which the first line is cut off each time.
  induction hn : text.length using Nat.strong_induction_on generalizing text startsLine with
  | _ n ih =>
    by_cases hnewline : '\n' ∈ text
    · obtain ⟨line, below, rfl, hline⟩ := List.eq_append_cons_of_mem hnewline
      have hsplit : String.ofList (line ++ '\n' :: below) =
          String.ofList (line ++ ['\n']) ++ String.ofList below := by
        rw [← String.ofList_append, List.append_assoc]
        rfl
      rw [hsplit, ← cons_cons_text, segments_cons_line line hline] at hshown ⊢
      obtain ⟨hfirst, hbelow⟩ := List.forall_mem_cons.mp hshown
      have hlies := lies_ofLine startsLine line true
        (fun c hc => hchars c (by simp [hc]) (by rintro rfl; exact hline hc)) (by rintro ⟨⟩) hfirst
      have hends := endsLine_ofLine startsLine hline true
      refine ⟨hlies, fun _ _ _ _ => hends, ?_⟩
      rw [if_pos rfl] at hends
      rw [hends]
      exact ih _ (by simp only [← hn, List.length_append, List.length_cons]; omega)
        (fun c hc => hchars c (by simp [hc])) true hbelow rfl
    · by_cases hnil : text = []
      · subst hnil
        rw [String.ofList_nil, cons_empty] at hshown ⊢
        exact hrest startsLine hshown
      rw [segments_cons_open hnil hnewline hhead] at hshown ⊢
      obtain ⟨hfirst, hbehind⟩ := List.forall_mem_cons.mp hshown
      have hends := endsLine_ofLine startsLine hnewline false
      have hlies := lies_ofLine startsLine text false
      rw [if_neg (by decide), List.append_nil] at hends hlies
      refine ⟨hlies (fun c hc => hchars c hc (by rintro rfl; exact hnewline hc)) (fun _ => hnil)
        hfirst, ?_, ?_⟩
      · intro next hnext _ htext
        rw [isText_head?_segments hhead false next hnext] at htext
        cases htext
      · rw [hends]
        exact hrest false hbehind

private theorem Joined.laid (h : p.Joined)
    (hchars : ∀ value, .text value ∈ p → ∀ c ∈ value.toList, c ≠ '\n' → Reader.isTextChar c)
    (startsLine : Bool) (hshown : ∀ s ∈ p.segments startsLine, s.isExposed = false) :
    Laid startsLine (p.segments startsLine) := by
  induction p generalizing startsLine with
  | nil => trivial
  | cons element rest ih =>
    have hothers := fun value hvalue => hchars value (List.mem_cons_of_mem element hvalue)
    cases element with
    | placeable e =>
      refine ⟨by rintro ⟨⟩, by rintro _ _ ⟨⟩, ih h hothers false fun s hs => ?_⟩
      exact hshown s (List.mem_cons_of_mem _ hs)
    | text value =>
      obtain ⟨hvalue, hhead, hjoined⟩ := h
      have hplaceable : ∀ element ∈ rest.head?, ∃ e, element = .placeable e := by
        rintro (next | e) hnext
        · exact absurd hnext (hhead next)
        · exact ⟨e, rfl⟩
      rw [← cons_text hvalue hplaceable, ← String.ofList_toList (s := value)] at hshown ⊢
      exact laid_cons_text (ih hjoined hothers) hplaceable (hchars value List.mem_cons_self)
        startsLine hshown

/-- A pattern of which no line is exposed is legible. -/
theorem legible_of_not_isExposed
    (hchars : ∀ value, .text value ∈ p → ∀ c ∈ value.toList, c ≠ '\n' → Reader.isTextChar c)
    (hshown : p.isExposed = false) : p.Legible := by
  refine (joined_join p).laid (fun value hvalue c hc => ?_) p.ownLines ?_
  · obtain ⟨whole, hwhole, hmem⟩ := mem_join_text hvalue hc
    exact hchars whole hwhole c hmem
  · rw [isExposed, List.any_eq_false] at hshown
    exact fun s hs => by simpa using hshown s hs

private theorem isBlank_cons (element : PatternElement) (p : Pattern) :
    isBlank (cons element p) = (element.isBlank && p.isBlank) := by
  rcases element with value | e
  · rcases p with _ | ⟨next | e, rest⟩
    · by_cases hempty : value.isEmpty
      · simp_all [cons, isBlank, PatternElement.isBlank]
      · simp [cons, hempty, isBlank]
    · simp [cons, isBlank, PatternElement.isBlank, Bool.and_assoc]
    · by_cases hempty : value.isEmpty
      · simp_all [cons, isBlank, PatternElement.isBlank]
      · simp [cons, hempty, isBlank]
  · rfl

private theorem isBlank_join (elements : List PatternElement) :
    isBlank (join elements) = elements.all PatternElement.isBlank := by
  induction elements with
  | nil => rfl
  | cons element rest ih => rw [join_cons, isBlank_cons, ih, List.all_cons]

/-- A pattern is read where it is written unless it is blank. -/
theorem isSome_unindent?_of_not_isBlank (h : p.isBlank = false) : p.unindent?.isSome := by
  rw [isSome_unindent?]
  by_contra hblank
  rw [isBlank, ← isBlank_join, ← join_writtenSegments, isBlank_join, List.all_map,
    List.all_eq_false] at h
  obtain ⟨s, hs, hsolid⟩ := h
  refine hsolid (isBlank_whole ?_)
  simp only [not_exists, not_and, Bool.not_eq_false] at hblank
  exact hblank s hs

end Pattern

/-! ## What is left -/

/-- What is left of an expression may select exactly if the expression may. -/
theorem Expression.PrunesTo.selectorProblem?_eq {e e' : Expression} (h : e.PrunesTo e') :
    Reader.selectorProblem? e' = Reader.selectorProblem? e := by
  cases h with
  | termCall id attr named hpositional => cases attr <;> rfl
  | _ => rfl

namespace Pattern

variable {p p' : Pattern}

/-- The placeables that are written are those of the pattern. -/
theorem holds_writtenSegments {P : Expression → Prop} (h : ∀ e, .placeable e ∈ p → P e) :
    ∀ s ∈ p.writtenSegments, s.Holds P := by
  intro s hs
  rcases mem_segments hs with htext | ⟨e, he, rfl⟩
  · cases s with
    | text indent content newline => trivial
    | placeable atMargin e => cases htext
  · exact h e (mem_join_placeable he)

/-- What is left of a sound pattern is made of its characters. -/
theorem PrunesTo.isTextChar (h : p.PrunesTo p') (hsound : p.Sound) {value : String}
    (hvalue : .text value ∈ p') : ∀ c ∈ value.toList, c ≠ '\n' → Reader.isTextChar c := by
  intro c hc hnewline
  obtain ⟨hopen, hclose, hreturn⟩ := hsound.regular.chars value (h.mem_text hvalue) c hc
  have hbreak : Text.isBreak c = false := by simp [Text.isBreak, hnewline, hreturn]
  exact Reader.isTextChar_iff.mpr ⟨hbreak, hopen, hclose⟩

end Pattern

/-! ## Levels -/

open Outline

/-- What is left of what stands one level deeper in one shape does so in another, if it is readable.
The other shape asks nothing of its patterns. -/
structure Shape.PrunesTo (shape shape' : Shape) : Prop where
  placeable {e e' : Expression} :
    shape.placeable e → e.PrunesTo e' → (ofExpression e').Readable → shape'.placeable e'
  arguments {positional positional' : List Expression} {named : List NamedArgument} :
    shape.arguments ⟨positional, named⟩ → Expression.AllPruneTo positional positional' →
      (ofArguments ⟨positional', named⟩).Readable → shape'.arguments ⟨positional', named⟩
  sound (p : Pattern) : shape.pattern p → p.Sound
  pattern (p : Pattern) : shape'.pattern p

namespace Shape

variable {shape shape' : Shape} {Q : Pattern → Prop}

/-- What is left of an inline expression is one. -/
theorem PrunesTo.inline (h : shape.PrunesTo shape') {e e' : Expression} (he : shape.Inline e)
    (hprunes : e.PrunesTo e') (hread : (ofExpression e').Readable) : shape'.Inline e' := by
  cases hprunes with
  | string l => exact he
  | number l => exact he
  | variableRef name => exact he
  | messageRef id attr => exact he
  | termRef id attr => exact ⟨he.1, he.2.1, by rintro _ ⟨⟩⟩
  | termCall id attr named hpositional =>
    refine ⟨he.1, he.2.1, ?_⟩
    rintro _ ⟨⟩
    exact h.arguments (he.2.2 _ rfl) hpositional (hread.inner _ (by simp))
  | call name named hpositional =>
    exact ⟨he.1, he.2.1, h.arguments he.2.2 hpositional (hread.inner _ (by simp))⟩
  | select hselector hvariants => exact he.elim
  | placeable hinner => exact h.placeable he hinner (hread.inner _ (by simp))

/-- What is left of arguments can be listed. -/
theorem PrunesTo.listed (h : shape.PrunesTo shape') {positional positional' : List Expression}
    {named : List NamedArgument} (ha : shape.Listed ⟨positional, named⟩)
    (hprunes : Expression.AllPruneTo positional positional')
    (hread : (ofArguments ⟨positional', named⟩).Readable) : shape'.Listed ⟨positional', named⟩ := by
  refine ⟨fun e' he' => ?_, ha.named, ha.distinct⟩
  obtain ⟨e, he, hprunes⟩ := hprunes.exists_of_mem he'
  refine h.inline (ha.positional e he) hprunes ((readable_mk.mp hread).2 _ ?_)
  rw [ofExpressions_eq_map]
  exact List.mem_append_left _ (List.mem_map_of_mem he')

/-- What is left of lines can be written in lines. -/
theorem PrunesTo.lines (h : shape.PrunesTo shape') {p p' : Pattern} (hp : shape.Lines p)
    (hprunes : p.PrunesTo p') (hread : (ofPattern p').Readable) : shape'.Lines p' := by
  have hsound := h.sound p hp.pattern
  obtain ⟨hshown, hinside⟩ := readable_mk.mp hread
  refine
    { legible := Pattern.legible_of_not_isExposed (fun _ => hprunes.isTextChar hsound) ?_
      holds := Pattern.holds_writtenSegments fun e' he' => ?_
      pattern := h.pattern p' }
  · simpa [Node.isReadable] using hshown
  · obtain ⟨e, he, hprunes⟩ := hprunes.mem_placeable he'
    have helement : (ofElement (.placeable e')).Readable := hinside _ (by
      rw [ofElements_eq_map]
      exact List.mem_map_of_mem he')
    exact h.placeable (hsound.holds_of_mem hp.holds he) hprunes (helement.inner _ (by simp))

/-- What is left of lines is a value unless it is blank. -/
theorem PrunesTo.value (h : shape.PrunesTo shape') {p p' : Pattern} (hp : shape.Lines p)
    (hprunes : p.PrunesTo p') (hread : (ofPattern p').Readable) (hsolid : p'.isBlank = false) :
    shape'.Value p' :=
  ⟨h.lines hp hprunes hread, Pattern.isSome_unindent?_of_not_isBlank hsolid⟩

/-- What is left of variants can be read as variants. -/
theorem PrunesTo.arms (h : shape.PrunesTo shape') {variants variants' : List Variant}
    (hv : shape.Arms variants) (hprunes : Variant.AllPruneTo variants variants')
    (hread : ∀ v' ∈ variants', (ofVariant v').Readable) : shape'.Arms variants' := by
  have hdefault : variants'.countP (·.isDefault) = 1 := by rw [hprunes.countP_isDefault, hv.default]
  refine ⟨?_, fun v' hv' => ?_, fun v' hv' => ?_, hdefault⟩
  · rintro rfl
    cases hdefault
  · obtain ⟨v, hmem, hkey, -⟩ := hprunes.exists_of_mem hv'
    rw [hkey]
    exact hv.keys v hmem
  · obtain ⟨v, hmem, -, hprunes⟩ := hprunes.exists_of_mem hv'
    have hvariant := hread v' hv'
    obtain ⟨key, value, isDefault⟩ := v'
    obtain ⟨hsolid, hinside⟩ := readable_mk.mp hvariant
    exact h.value (hv.values v hmem).toLines hprunes (hinside _ (by simp [ofPattern]))
      (by simpa [Node.isReadable] using hsolid)

/-- What is left of an expression in braces can stand in braces. -/
theorem PrunesTo.full (h : shape.PrunesTo shape') {e e' : Expression} (he : shape.Full e)
    (hprunes : e.PrunesTo e') (hread : (ofExpression e').Readable) : shape'.Full e' := by
  rcases he.select_or_inline with ⟨selector, variants, rfl, hselector, hproblem, harms⟩ |
    ⟨hinline, hbare⟩
  · cases hprunes with
    | select hselector' hvariants =>
      refine ⟨h.inline hselector hselector' (hread.inner _ (by simp)), ?_,
        h.arms harms hvariants fun v' hv' => hread.inner _ ?_⟩
      · rw [hselector'.selectorProblem?_eq, hproblem]
      · rw [ofVariants_eq_map]
        exact List.mem_cons_of_mem _ (List.mem_map_of_mem hv')
  · have hinline' := h.inline hinline hprunes hread
    cases hprunes with
    | termRef id attr =>
      cases attr with
      | none => exact hinline'
      | some attr => exact absurd rfl (hbare id attr _)
    | termCall id attr named hpositional =>
      cases attr with
      | none => exact hinline'
      | some attr => exact absurd rfl (hbare id attr _)
    | select hselector hvariants => exact hinline.elim
    | _ => exact hinline'

/-- What is left of every number of levels can be read with as many, by induction on it. -/
theorem prunesTo_levels (hQ : ∀ p, Q p → p.Sound) (level : Nat) :
    (levels Q level).PrunesTo (levels (fun _ => True) level) := by
  induction level with
  | zero => exact ⟨fun he => he.elim, fun ha => ha.elim, hQ, fun _ => trivial⟩
  | succ level ih => exact ⟨ih.full, ih.listed, hQ, fun _ => trivial⟩

end Shape

/-! ## Entries -/

section Entries

variable {Q : Pattern → Prop} (hQ : ∀ p, Q p → p.Sound)
include hQ

private theorem inFull_prune {p p' : Pattern} (hp : p.InFull Q) (hprunes : p.PrunesTo p')
    (hread : (ofPattern p').Readable) (hsolid : p'.isBlank = false) :
    p'.InFull fun _ => True :=
  (Shape.prunesTo_levels hQ maxNesting).value hp.toLines hprunes hread hsolid

private theorem sound_attributes {attributes attributes' : List Attribute}
    (h : ∀ a ∈ attributes, a.Sound Q) (hprunes : Attribute.AllPruneTo attributes attributes')
    (hread : ∀ a' ∈ attributes', (ofAttribute a').Readable) :
    ∀ a' ∈ attributes', a'.Sound fun _ => True := by
  intro a' ha'
  obtain ⟨a, ha, hprunes⟩ := exists_of_sublistForall₂ hprunes ha'
  obtain ⟨hsolid, hinside⟩ := readable_mk.mp (hread a' ha')
  have hsound := h a ha
  refine ⟨hprunes.id ▸ hsound.id,
    inFull_prune hQ hsound.value hprunes.value (hinside _ (by simp)) ?_⟩
  simpa [Node.isReadable] using hsolid

omit hQ in
/-- A readable message of which no value is read has an attribute. -/
private theorem Message.attributes_ne_nil (m : Message) (hread : (Node.message m).isReadable)
    (hnone : m.value.bind Pattern.unindent? = none) : m.attributes ≠ [] := by
  intro hnil
  obtain ⟨p, hp, hsolid⟩ : ∃ p, m.value = some p ∧ p.isBlank = false := by
    simpa [Node.isReadable, hnil, Option.any_eq_true] using hread
  have hpresent := Pattern.isSome_unindent?_of_not_isBlank hsolid
  rw [hp, Option.bind_some] at hnone
  rw [hnone] at hpresent
  cases hpresent

/-- What is left of a sound entry is sound if it is readable. -/
theorem Entry.Sound.prune {e e' : Entry} (h : e.Sound Q) (hprunes : e.PrunesTo e')
    (hread : (ofEntry e').Readable) : e'.Sound fun _ => True := by
  obtain ⟨-, hinside⟩ := readable_mk.mp hread
  have hunit := hinside _ List.mem_cons_self
  cases hprunes with
  | @message m m' hm =>
    have hsound : m.Sound Q := h
    obtain ⟨hpresent, hparts⟩ := readable_mk.mp hunit
    exact
      { id := hm.id ▸ hsound.id
        value := fun p' hp' => by
          obtain ⟨-, p, hp, hprunes⟩ := hm.value p' hp'
          exact (Shape.prunesTo_levels hQ maxNesting).lines (hsound.value p hp) hprunes
            (hparts _ (ofPattern_mem_ofParts hp'))
        attributes := sound_attributes hQ hsound.attributes hm.attributes
          fun a' ha' => hparts _ (ofAttribute_mem_ofParts ha')
        present := m'.attributes_ne_nil hpresent
        comment := fun c hc => hsound.comment c (hm.comment c hc) }
  | @term t t' ht =>
    have hsound : t.Sound Q := h
    obtain ⟨hsolid, hparts⟩ := readable_mk.mp hunit
    exact
      { id := ht.id ▸ hsound.id
        value := inFull_prune hQ hsound.value ht.value (hparts _ (ofPattern_mem_ofParts rfl))
          (by simpa [Node.isReadable] using hsolid)
        attributes := sound_attributes hQ hsound.attributes ht.attributes
          fun a' ha' => hparts _ (ofAttribute_mem_ofParts ha')
        comment := fun c hc => hsound.comment c (ht.comment c hc) }
  | comment c => exact h
  | junk j => trivial

end Entries

end Phrasebook
