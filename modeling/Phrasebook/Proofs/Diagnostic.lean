import Phrasebook.Proofs.Blocks

/-!
# Where diagnostics point

The diagnostic of junk begins inside the junk or at its end, since recovery goes on from the problem
or from the line on which it was met. It ends there too, unless the problem is the first character
of the next entry: then it covers that character, and no more.
-/

namespace Phrasebook

open Text

/-- An entry may start at the offset: what follows it begins with a letter, `-` or `#`. -/
def EntryMayStart (source : String) (offset : Nat) : Prop :=
  ∃ front rest, source.toList = front ++ rest ∧ byteLength front = offset ∧ Block.startsEntry rest

namespace Block

variable {text : List Char}

/-- The characters with which an entry may start take one byte. -/
theorem byteLength_take_one (h : startsEntry text) : byteLength (text.take 1) = 1 := by
  obtain ⟨c, rest, rfl, hc⟩ := startsEntry_iff.mp h
  have hsize : c.utf8Size = 1 := by
    rcases hc with halpha | rfl | rfl
    · rw [Char.utf8Size_eq_one_iff, UInt32.le_iff_toNat_le]
      change c.toNat ≤ 127
      rcases (Bool.or_eq_true _ _).mp halpha with hupper | hlower
      · have hmost : c.toNat ≤ 90 := (of_decide_eq_true hupper).2
        omega
      · have hmost : c.toNat ≤ 122 := of_decide_eq_true ((Bool.and_eq_true _ _).mp hlower).2
        omega
    · rfl
    · rfl
  simp [byteLength, hsize]

/-- Of two cuts of a text, the one that is not below the other by bytes is not above it. -/
private theorem exists_before_eq_append {rest rest' : List Char} (h : rest <:+ text)
    (h' : rest' <:+ text) (hle : byteLength (before text rest) ≤ byteLength (before text rest')) :
    ∃ x, rest = x ++ rest' ∧ before text rest' = before text rest ++ x := by
  have hcut {s t : List Char} (hs : s <:+ text) (x : List Char) (hx : x ++ t = s) :
      before text t = before text s ++ x :=
    before_eq (by rw [List.append_assoc, hx, before_append_self hs])
  rcases List.suffix_or_suffix_of_suffix h' h with ⟨x, hx⟩ | ⟨x, hx⟩
  · exact ⟨x, hx.symm, hcut h x hx⟩
  · have hbefore := hcut h' x hx
    rcases x with _ | ⟨c, x⟩
    · exact ⟨[], hx, by simpa using hbefore.symm⟩
    · have hpos := c.utf8Size_pos
      rw [hbefore, byteLength_append, byteLength] at hle
      omega

/-- The span of a diagnostic, given the text before the problem and the content of the junk. -/
private theorem junk_diagnostic_span (offset : Nat) (text : List Char) (failure : Failure) :
    (junk offset text failure).1.diagnostic.span =
      if byteLength (before text (junk offset text failure).2) <
          byteLength (before text failure.rest) then
        ⟨(junk offset text failure).1.span.stop, (junk offset text failure).1.span.stop⟩
      else ⟨offset + byteLength (before text failure.rest),
        offset + byteLength (before text failure.rest) + byteLength (failure.rest.take 1)⟩ := by
  simp only [junk, Nat.add_lt_add_iff_left]

/-- The diagnostic of junk lies between the start and the end of the junk, or it is the one
character at the end with which the next entry begins. -/
theorem junk_located (offset : Nat) {failure : Failure} (h : failure.rest <:+ text) :
    let j := (junk offset text failure).1
    offset ≤ j.diagnostic.span.start ∧ j.diagnostic.span.start ≤ j.diagnostic.span.stop ∧
      j.diagnostic.span.start ≤ j.span.stop ∧
        (j.diagnostic.span.stop ≤ j.span.stop ∨
          j.diagnostic.span = ⟨j.span.stop, j.span.stop + 1⟩ ∧
            startsEntry (junk offset text failure).2) := by
  have hspan := junk_diagnostic_span offset text failure
  have hstop : (junk offset text failure).1.span.stop =
      offset + byteLength (before text (junk offset text failure).2) := rfl
  have hnext : (junk offset text failure).2 = [] ∨ startsEntry (junk offset text failure).2 :=
    nextEntry_eq_nil_or_startsEntry _
  have hsuffix := junk_suffix offset h
  generalize (junk offset text failure).1 = j at hspan hstop ⊢
  generalize (junk offset text failure).2 = rest at hspan hstop hnext hsuffix ⊢
  dsimp only
  rcases Nat.lt_or_ge (byteLength (before text rest)) (byteLength (before text failure.rest))
    with hlt | hle
  · -- Recovery went back to the line on which the problem was met.
    rw [if_pos hlt] at hspan
    rw [hspan, hstop]
    exact ⟨Nat.le_add_right _ _, le_rfl, le_rfl, .inl le_rfl⟩
  · rw [if_neg (Nat.not_lt.mpr hle)] at hspan
    obtain ⟨x, hx, hbefore⟩ := exists_before_eq_append h hsuffix hle
    rw [hbefore, byteLength_append] at hstop
    rw [hspan, hstop, hx]
    refine ⟨Nat.le_add_right _ _, Nat.le_add_right _ _, by dsimp only; omega, ?_⟩
    -- Recovery may stop right where the problem is: then only the next entry can have that
    -- character.
    rcases x with _ | ⟨c, x⟩
    · rcases hnext with rfl | hstarts
      · exact .inl (by simp [byteLength])
      · exact .inr ⟨by simp [byteLength, byteLength_take_one hstarts], hstarts⟩
    · refine .inl ?_
      simp only [List.cons_append, List.take_succ_cons, List.take_zero, byteLength]
      omega

end Block

namespace Resource

/-- The diagnostic of junk begins inside the junk or at its end. It ends there too, or it covers one
character more, and then the junk ends where that character may start an entry. -/
theorem diagnostic_located (source : String) :
    ∀ j ∈ (parse source).junk,
      j.span.start ≤ j.diagnostic.span.start ∧
        j.diagnostic.span.start ≤ j.diagnostic.span.stop ∧
          j.diagnostic.span.start ≤ j.span.stop ∧
            (j.diagnostic.span.stop ≤ j.span.stop ∨
              j.diagnostic.span = ⟨j.span.stop, j.span.stop + 1⟩ ∧
                EntryMayStart source j.span.stop) := by
  intro j hj
  obtain ⟨e, he, hjunk⟩ := List.mem_filterMap.mp hj
  obtain rfl : e = .junk j := by
    cases e <;> cases hjunk
    rfl
  rw [entries_parse] at he
  obtain ⟨b, hb, hentry⟩ := Block.exists_of_junk_mem he
  obtain ⟨above, below, htext, hne, rfl⟩ := Block.exists_read_of_mem_all hb
  generalize hfront : before source.toList (dropBlankLines source.toList) = front at hentry
  have hsource : source.toList = front ++ above ++ below := by
    rw [← hfront, List.append_assoc, ← htext, before_append_self (dropBlankLines_suffix _)]
  -- Junk comes only of a block whose entry could not be read.
  cases hr : Reader.entry (byteLength (front ++ above)) below with
  | ok result =>
    obtain ⟨e, after⟩ := result
    simp only [Block.read, hr] at hentry
    exact absurd hentry (Reader.entry_ne_junk hr j)
  | error failure =>
    have hwithin := (Reader.contained_entry _).suffix_of_error hr
    simp only [Block.read, hr] at hentry
    obtain rfl := Entry.junk.inj hentry
    obtain ⟨own, -, hown, -, hspan⟩ := Block.junk_spec (byteLength (front ++ above)) hne hwithin
    obtain ⟨hstart, hordered, hstop, hend⟩ :=
      Block.junk_located (byteLength (front ++ above)) hwithin
    refine ⟨by rwa [hspan], hordered, hstop, hend.imp_right fun hbeyond =>
      ⟨hbeyond.1, front ++ above ++ own, _, ?_, ?_, hbeyond.2⟩⟩
    · rw [hsource, List.append_assoc (front ++ above), ← hown]
    · rw [byteLength_append, hspan]

/-- The brace that the first line opens is missed at the end of that line. -/
theorem diagnostic_located_unclosed_brace :
    let source := "a = \x7b\nb = c\n"
    let j : Junk := ⟨"a = \x7b\n", ⟨.expectedToken '\x7d', ⟨6, 6⟩⟩, ⟨0, 6⟩⟩
    j ∈ (parse source).junk ∧ j.span.start ≤ j.diagnostic.span.start ∧
      j.diagnostic.span.start ≤ j.diagnostic.span.stop ∧ j.diagnostic.span.start ≤ j.span.stop ∧
        (j.diagnostic.span.stop ≤ j.span.stop ∨
          j.diagnostic.span = ⟨j.span.stop, j.span.stop + 1⟩ ∧ EntryMayStart source j.span.stop) :=
  ⟨by decide +kernel, diagnostic_located _ _ (by decide +kernel)⟩

/-- The value that the first line lacks is missed at the first character of the next message. -/
theorem diagnostic_beyond_junk :
    ¬ ∀ j ∈ (parse "a =\nb = c\n").junk,
      j.span.start ≤ j.diagnostic.span.start ∧
        j.diagnostic.span.start ≤ j.diagnostic.span.stop ∧
          j.diagnostic.span.stop ≤ j.span.stop := by
  decide +kernel

end Resource

end Phrasebook
