import Phrasebook.Proofs.Isolation.Blocks

/-!
# Sources are read apart from one another

A source that ends its last line, followed by one that begins with a unit, is read as the two are
one by one. Whatever the first one leaves open neither swallows nor changes an entry of the second,
and the second changes no entry of the first. What remains is that joining comments respects the
seam, and that all spans of the second source move by the length of the first.
-/

namespace Phrasebook

open Text

/-! ## Joining comments -/

namespace Block

private theorem joined?_agrees {a a' b b' : Block} (ha : a.Agrees a') (hb : b.Agrees b') :
    joined? a' b' = joined? a b := by
  obtain ⟨e, meets⟩ := a
  obtain ⟨e', meets'⟩ := a'
  obtain ⟨f, next⟩ := b
  obtain ⟨f', next'⟩ := b'
  obtain ⟨hentry, hmeets⟩ := ha
  cases hentry with
  | junk => rfl
  | refl =>
    rcases e with _ | _ | ⟨level, lines⟩ | _
    · rfl
    · rfl
    · obtain rfl : meets' = meets := hmeets _ rfl
      cases hb.entry <;> cases level <;> cases meets' <;> rfl
    · rfl

/-- Blocks that agree make entries that agree. -/
theorem joinComments_agrees : ∀ {blocks blocks' : List Block},
    List.Forall₂ Agrees blocks blocks' →
      List.Forall₂ Entry.Agrees (joinComments blocks) (joinComments blocks')
  | _, _, .nil => .nil
  | [a], [a'], .cons ha .nil => by
    rw [joinComments_singleton, joinComments_singleton]
    exact .cons ha.entry .nil
  | a :: b :: rest, a' :: b' :: rest', .cons ha (.cons hb hrest) => by
    rw [joinComments_cons_cons, joinComments_cons_cons, joined?_agrees ha hb]
    cases joined? a b with
    | some e => exact .cons (.refl e) (joinComments_agrees hrest)
    | none => exact .cons ha.entry (joinComments_agrees (.cons hb hrest))

end Block

/-! ## Moving spans -/

/-- A span further down by a number of bytes. -/
def Span.shift (n : Nat) (span : Span) : Span := ⟨n + span.start, n + span.stop⟩

/-- An entry of a text that stands further down by a number of bytes. -/
def Entry.shift (n : Nat) : Entry → Entry
  | message m => message { m with span := m.span.shift n }
  | term t => term { t with span := t.span.shift n }
  | comment c => comment c
  | junk j => junk ⟨j.content, ⟨j.diagnostic.problem, j.diagnostic.span.shift n⟩, j.span.shift n⟩

/-- An entry that is read later differs in its span only. -/
theorem Reader.entry_shift (n offset : Nat) (text : List Char) :
    entry (n + offset) text =
      match entry offset text with
      | .ok (e, rest) => .ok (e.shift n, rest)
      | .error failure => .error failure := by
  have hspan (own : List Char) : spanOf (n + offset) own = (spanOf offset own).shift n := by
    simp [spanOf, Span.shift, Nat.add_assoc]
  rw [entry_apply, entry_apply]
  split_ifs
  · rw [bind_apply]
    rcases comment text with failure | ⟨c, rest⟩ <;> rfl
  · rw [bind_apply, bind_apply, term_eq, term_eq, bind_apply, bind_apply]
    rcases withText termBody text with failure | ⟨⟨⟨id, value, attrs⟩, own⟩, rest⟩
    · rfl
    · simp only [pure_apply, hspan]
      rfl
  · rw [bind_apply, bind_apply, message_eq, message_eq, bind_apply, bind_apply]
    rcases withText messageBody text with failure | ⟨⟨⟨id, value, attrs⟩, own⟩, rest⟩
    · rfl
    · simp only [pure_apply, hspan]
      rfl

namespace Block

/-- A block of a text that stands further down by a number of bytes. -/
def shift (n : Nat) (b : Block) : Block := ⟨b.entry.shift n, b.meetsNext⟩

/-- A block that is read later differs in its spans only. -/
theorem read_shift (n offset : Nat) (text : List Char) :
    read (n + offset) text = ((read offset text).1.shift n, (read offset text).2) := by
  unfold read
  rw [Reader.entry_shift]
  rcases Reader.entry offset text with failure | ⟨e, after⟩
  · simp only [junk, shift, Entry.shift, Span.shift, Nat.add_assoc, Nat.add_lt_add_iff_left]
    split <;> rfl
  · rfl

/-- Blocks that are read later differ in their spans only. -/
theorem all_shift (n offset : Nat) (text : List Char) :
    all (n + offset) text = (all offset text).map (shift n) := by
  induction hn : text.length using Nat.strong_induction_on generalizing offset text with
  | _ size ih =>
    by_cases hne : text = []
    · subst hne
      rfl
    rw [all_of_ne_nil _ hne, all_of_ne_nil _ hne, read_shift, Nat.add_assoc,
      ih _ (hn ▸ read_length_lt offset hne) _ _ rfl]
    rfl

/-- Comments are joined to what follows wherever they stand. -/
theorem joined?_shift (n : Nat) (a b : Block) :
    joined? (a.shift n) (b.shift n) = (joined? a b).map (Entry.shift n) := by
  obtain ⟨entry, meets⟩ := a
  obtain ⟨entry', meets'⟩ := b
  rcases entry with _ | _ | ⟨level, lines⟩ | _
  · rfl
  · rfl
  · cases level <;> cases meets <;> cases entry' <;> rfl
  · rfl

/-- Entries that stand later differ in their spans only. -/
theorem joinComments_shift (n : Nat) : ∀ blocks : List Block,
    joinComments (blocks.map (shift n)) = (joinComments blocks).map (Entry.shift n)
  | [] => rfl
  | [a] => by
    rw [List.map_singleton, joinComments_singleton, joinComments_singleton]
    rfl
  | a :: b :: rest => by
    have hrest := joinComments_shift n (b :: rest)
    rw [List.map_cons] at hrest
    rw [List.map_cons, List.map_cons, joinComments_cons_cons, joinComments_cons_cons, joined?_shift]
    cases joined? a b with
    | some e => simp only [Option.map_some, joinComments_shift n rest, List.map_cons]
    | none =>
      simp only [Option.map_none, hrest, List.map_cons]
      rfl

end Block

/-! ## Two sources -/

/-- The span of a message or term. -/
def Entry.unitSpan? : Entry → Option Span
  | message m => some m.span
  | term t => some t.span
  | _ => none

/-- A definition that was read starts with a name and an equals sign. -/
theorem Reader.startsDefinition_of_ok {text rest : List Char} {result : String × Option Pattern}
    (h : definition text = .ok (result, rest)) : StartsDefinition text := by
  obtain ⟨id, mid, hid, h⟩ := bind_eq_ok h
  obtain ⟨count, mid', hspaces, h⟩ := bind_eq_ok h
  obtain ⟨_, tail, hequals, -⟩ := bind_eq_ok h
  obtain ⟨c, name, rfl, hc, hname⟩ := identifier_ok hid
  rw [skipSpaces_apply] at hspaces
  cases hspaces
  refine ⟨c, name, mid.takeWhile (· == ' '), tail, ?_, hc, hname, fun d hd => ?_⟩
  · rw [← expect_ok hequals, List.takeWhile_append_dropWhile]
  · simpa using List.mem_takeWhile_imp hd

/-- A message or term that was read starts as one, where its span begins. -/
theorem Reader.startsUnit_of_ok {offset : Nat} {text rest : List Char} {e : Entry} {span : Span}
    (h : entry offset text = .ok (e, rest)) (hspan : e.unitSpan? = some span) :
    StartsUnit text ∧ span.start = offset := by
  rw [entry_apply] at h
  split_ifs at h
  · obtain ⟨c, mid, hrun, h⟩ := bind_eq_ok h
    cases h
    cases hspan
  · obtain ⟨t, mid, hrun, h⟩ := bind_eq_ok h
    cases h
    cases hspan
    rw [term_eq] at hrun
    obtain ⟨⟨parts, own⟩, mid, hparts, hrun⟩ := bind_eq_ok hrun
    cases hrun
    obtain ⟨_, tail, hminus, hbody⟩ := bind_eq_ok (withText_ok contained_termBody hparts).1
    obtain ⟨_, _, hdefinition, -⟩ := bind_eq_ok hbody
    exact ⟨Or.inr ⟨tail, expect_ok hminus, startsDefinition_of_ok hdefinition⟩, rfl⟩
  · obtain ⟨m, mid, hrun, h⟩ := bind_eq_ok h
    cases h
    cases hspan
    rw [message_eq] at hrun
    obtain ⟨⟨parts, own⟩, mid, hparts, hrun⟩ := bind_eq_ok hrun
    cases hrun
    obtain ⟨_, _, hdefinition, -⟩ := bind_eq_ok (withText_ok contained_messageBody hparts).1
    exact ⟨Or.inl (startsDefinition_of_ok hdefinition), rfl⟩

private theorem Block.head_joinComments {blocks : List Block} {e : Entry}
    (he : e ∈ (joinComments blocks).head?) (hjoined : e.joined = none) :
    ∃ b ∈ blocks.head?, b.entry = e := by
  rcases blocks with _ | ⟨a, _ | ⟨b, rest⟩⟩
  · cases he
  · rw [joinComments_singleton] at he
    exact ⟨a, rfl, Option.some.inj he⟩
  · rw [joinComments_cons_cons] at he
    cases hab : joined? a b with
    | none =>
      rw [hab] at he
      exact ⟨a, rfl, Option.some.inj he⟩
    | some e' =>
      rw [hab] at he
      obtain rfl : e' = e := Option.some.inj he
      unfold joined? at hab
      split at hab <;> cases hab <;> cases hjoined

/-- A source whose first entry is a unit at its very start, joined by no comment, begins with that
unit. -/
theorem startsUnit_of_parse {source : String} {e : Entry} {span : Span}
    (he : e ∈ (Resource.parse source).entries.head?) (hspan : e.unitSpan? = some span)
    (hstart : span.start = 0) (hjoined : e.joined = none) :
    StartsUnit source.toList ∧ dropBlankLines source.toList = source.toList := by
  have hsuffix := dropBlankLines_suffix source.toList
  have hwhole := before_append_self hsuffix
  rw [Resource.entries_parse] at he
  obtain ⟨b, hb, rfl⟩ := Block.head_joinComments he hjoined
  generalize hoffset :
    byteLength (before source.toList (dropBlankLines source.toList)) = offset at hb
  have hne : dropBlankLines source.toList ≠ [] := by
    intro hnil
    rw [hnil] at hb
    cases hb
  rw [Block.all_of_ne_nil offset hne] at hb
  cases hb
  cases hr : Reader.entry offset (dropBlankLines source.toList) with
  | error failure =>
    simp only [Block.read, hr] at hspan
    cases hspan
  | ok result =>
    obtain ⟨entry, after⟩ := result
    simp only [Block.read, hr] at hspan
    obtain ⟨hunit, hzero⟩ := Reader.startsUnit_of_ok hr hspan
    have hnil : before source.toList (dropBlankLines source.toList) = [] := by
      rw [← hzero, hstart] at hoffset
      rcases hbefore : before source.toList (dropBlankLines source.toList) with _ | ⟨c, front⟩
      · rfl
      · rw [hbefore, byteLength] at hoffset
        have hpos := c.utf8Size_pos
        omega
    rw [hnil, List.nil_append] at hwhole
    exact ⟨hwhole ▸ hunit, hwhole⟩

private theorem Block.Agrees.last {blocks blocks' : List Block}
    (h : List.Forall₂ Agrees blocks blocks') :
    ∀ b' ∈ blocks'.getLast?, ∃ b ∈ blocks.getLast?, b.Agrees b' := by
  induction h with
  | nil => rintro _ ⟨⟩
  | @cons a a' rest rest' ha hrest ih =>
    cases hrest with
    | nil =>
      rintro b' ⟨⟩
      exact ⟨a, rfl, ha⟩
    | cons hb hrest => simpa only [List.getLast?_cons_cons] using ih

/-- The blocks before a seam end in no comment that meets what is behind it. -/
private theorem Block.last_meets_nothing {offset : Nat} {text : List Char} {blocks : List Block}
    (h : List.Forall₂ Agrees (all offset text) blocks) :
    ∀ b ∈ blocks.getLast?, ∀ c, b.entry = .comment c → b.meetsNext = false := by
  intro b' hb' c hc
  obtain ⟨b, hb, hentry, hmeets⟩ := Agrees.last h b' hb'
  have hcomment : b.entry = .comment c := by
    rw [hc] at hentry
    cases hb : b.entry with
    | comment _ => rw [hb] at hentry; cases hentry; rfl
    | _ => rw [hb] at hentry; cases hentry
  rw [hmeets c hcomment]
  exact meetsNext_getLast_all offset text b hb

/-- A source that is empty or ends in a line feed, and whose last line is no comment, followed by a
source that begins with a message or term, is read as the two are one by one: first the entries of
the first source, up to the diagnostics of junk, and then those of the second, with their spans
moved by the length of the first. -/
theorem parse_append (first second : String)
    (hend : first = "" ∨ first.toList.getLast? = some '\n')
    (hline : (lastLine first.toList).head? ≠ some '#')
    (hunit : ∃ e ∈ (Resource.parse second).entries.head?,
      e.joined = none ∧ ∃ span ∈ e.unitSpan?, span.start = 0) :
    ∃ entries, List.Forall₂ Entry.Agrees (Resource.parse first).entries entries ∧
      (Resource.parse (first ++ second)).entries = entries ++
        (Resource.parse second).entries.map (Entry.shift (byteLength first.toList)) := by
  obtain ⟨e, he, hjoined, span, hspan, hstart⟩ := hunit
  obtain ⟨hv, hsecond⟩ := startsUnit_of_parse he hspan hstart hjoined
  have hu : Terminated first.toList := by
    rcases hend with rfl | hend
    · exact terminated_nil
    · intro c hc
      rw [hend] at hc
      exact (Option.some.inj hc).symm
  have hdrop := dropBlankLines_append hu hv.isBlank_eq_false
  have hsuffix := dropBlankLines_suffix first.toList
  have hbefore : before (first.toList ++ second.toList)
      (dropBlankLines first.toList ++ second.toList) =
        before first.toList (dropBlankLines first.toList) :=
    Reader.before_append_right hsuffix _
  obtain ⟨blocks, hall, hagrees⟩ := Block.all_append hv hline
    (byteLength (before first.toList (dropBlankLines first.toList))) (hu.of_suffix hsuffix) hsuffix
    (atLine_self first.toList).dropBlankLines
  -- The blank lines above the first entry and the entries together have the length by which the
  -- second source is moved.
  have hlength : byteLength (before first.toList (dropBlankLines first.toList)) +
      byteLength (dropBlankLines first.toList) = byteLength first.toList := by
    rw [← byteLength_append, before_append_self hsuffix]
  have hnothing : byteLength (before second.toList second.toList) = 0 := by
    rw [before_eq (List.nil_append _).symm]
    rfl
  refine ⟨Block.joinComments blocks, Block.joinComments_agrees hagrees, ?_⟩
  rw [Resource.entries_parse (first ++ second), Resource.entries_parse second, String.toList_append,
    hdrop, hbefore, hall, hlength, hsecond, hnothing,
    Block.joinComments_append _ _ (Block.last_meets_nothing hagrees), ← Block.joinComments_shift,
    ← Block.all_shift]
  rfl

/-- A call that is left open does not reach into the message below. -/
theorem parse_append_open_call :
    ∃ entries,
      List.Forall₂ Entry.Agrees (Resource.parse "a = \x7b F($x,\n").entries entries ∧
        (Resource.parse ("a = \x7b F($x,\n" ++ "b = c\n")).entries = entries ++
          (Resource.parse "b = c\n").entries.map
            (Entry.shift (byteLength "a = \x7b F($x,\n".toList)) :=
  parse_append "a = \x7b F($x,\n" "b = c\n" (Or.inr (by decide)) (by decide)
    (by decide)

end Phrasebook
