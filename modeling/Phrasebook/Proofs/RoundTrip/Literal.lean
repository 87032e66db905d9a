import Phrasebook.Proofs.Reader.Progress
import Phrasebook.Proofs.RoundTrip.Grammar

/-!
# Names and literals read back

A name or a literal that was read is sound, and what is sound is read back from its source form:
a string before anything, a number or a name before a character that does not go on with it.
-/

namespace Phrasebook.Reader

open Text (takeWhile_append_stop dropWhile_append_stop)

variable {text rest : List Char}

/-- What may follow a name, a number or a reference: no character that goes on with it, and no
arguments. -/
structure Bounded (rest : List Char) : Prop where
  head : ∀ c ∈ rest.head?, isIdentifierChar c = false ∧ c ≠ '.'
  noArguments : (rest.dropWhile Text.isBlank).head? ≠ some '('

/-- A character that is neither blank nor part of a name ends what stands before it. -/
theorem bounded_cons {c : Char} (hname : isIdentifierChar c = false) (hpoint : c ≠ '.')
    (hblank : Text.isBlank c = false) (hopen : c ≠ '(') (rest : List Char) :
    Bounded (c :: rest) := by
  constructor
  · rintro _ ⟨⟩
    exact ⟨hname, hpoint⟩
  · simpa [hblank] using hopen

/-- Digits may stand in identifiers. -/
theorem isIdentifierChar_of_isDigit {c : Char} (h : c.isDigit) : isIdentifierChar c := by
  simp [isIdentifierChar, Char.isAlphanum, h]

/-- Blanks may not stand in identifiers. -/
theorem isIdentifierChar_of_isBlank {c : Char} (h : Text.isBlank c) :
    isIdentifierChar c = false := by
  rcases Text.isBlank_iff.mp h with rfl | h
  · decide
  · rcases Text.isBreak_iff.mp h with rfl | rfl <;> decide

/-- Blanks before such a character end it too. -/
theorem bounded_append {blank : List Char} (h : Text.Blank blank) (hrest : Bounded rest) :
    Bounded (blank ++ rest) := by
  rcases blank with _ | ⟨c, blank⟩
  · exact hrest
  have hc := h c List.mem_cons_self
  constructor
  · rintro _ ⟨⟩
    refine ⟨isIdentifierChar_of_isBlank hc, ?_⟩
    rintro rfl
    contradiction
  · rw [List.dropWhile_append_of_pos h]
    exact hrest.noArguments

/-! ## Names -/

/-- An identifier is read up to what may not stand in one. -/
theorem identifier_reads {name : String} (h : IsIdentifier name)
    (hrest : ∀ c ∈ rest.head?, isIdentifierChar c = false) :
    identifier (name.toList ++ rest) = .ok (name, rest) := by
  obtain ⟨c, tail, hname, hc, htail⟩ := h
  rw [hname, List.cons_append, identifier, if_pos hc, takeWhile_append_stop htail hrest,
    dropWhile_append_stop htail hrest, ← hname, String.ofList_toList]

/-- What is read as an identifier is one. -/
theorem identifier_sound (text : List Char) :
    Ensures identifier text (fun name _ => IsIdentifier name) fun _ => True := by
  rcases text with _ | ⟨c, rest⟩
  · trivial
  rw [Ensures, identifier]
  by_cases hc : c.isAlpha
  · rw [if_pos hc]
    exact ⟨c, _, String.toList_ofList, hc, fun d hd => List.mem_takeWhile_imp hd⟩
  · rw [if_neg hc]
    trivial

/-! ## Numbers -/

private theorem digits_reads {whole : List Char} (hne : whole ≠ []) (h : ∀ c ∈ whole, c.isDigit)
    (hrest : ∀ c ∈ rest.head?, c.isDigit = false) :
    digits (whole ++ rest) = .ok (whole, rest) := by
  have hempty : whole.isEmpty = false := by simpa using hne
  rw [digits, bind_ok (takeWhile_apply _ _), takeWhile_append_stop h hrest,
    dropWhile_append_stop h hrest]
  simp [hempty]

private theorem fraction_reads {part : List Char} (h : ∀ c ∈ part, c.isDigit)
    (hrest : ∀ c ∈ rest.head?, c.isDigit = false ∧ c ≠ '.') :
    fraction ((if part.isEmpty then [] else '.' :: part) ++ rest) = .ok (part, rest) := by
  have hdigits : ∀ c ∈ rest.head?, c.isDigit = false := fun c hc => (hrest c hc).1
  by_cases hempty : part.isEmpty
  · rw [if_pos hempty, List.nil_append]
    rw [List.isEmpty_iff] at hempty
    subst hempty
    rcases rest with _ | ⟨c, rest⟩
    · rfl
    · simp [fraction, (hrest c rfl).2]
  · rw [if_neg hempty, List.cons_append, fraction, takeWhile_append_stop h hdigits,
      dropWhile_append_stop h hdigits]
    simp only [hempty, Bool.false_eq_true, if_false]

/-- The first character of a number. -/
theorem startsNumber_raw {l : NumberLiteral} (h : l.Sound) (rest : List Char) :
    startsNumber (l.raw.toList ++ rest) ∧ (l.raw.toList ++ rest).head? ≠ some '"' := by
  obtain ⟨negative, whole, part, rfl, hne, hwhole, -⟩ := h
  rcases whole with _ | ⟨c, whole⟩
  · exact absurd rfl hne
  have hc := hwhole c List.mem_cons_self
  have hquote : c ≠ '"' := by
    rintro rfl
    contradiction
  cases negative <;> simp [NumberLiteral.ofDigits, startsNumber, hc, hquote]

/-- What may not stand in identifiers is no digit. -/
theorem isDigit_eq_false_of_not_isIdentifierChar {c : Char} (h : isIdentifierChar c = false) :
    c.isDigit = false := by
  rw [← Bool.not_eq_true] at h ⊢
  exact mt isIdentifierChar_of_isDigit h

/-- A sound number is read back from its raw form. -/
theorem numberLiteral_reads {l : NumberLiteral} (h : l.Sound)
    (hrest : ∀ c ∈ rest.head?, isIdentifierChar c = false ∧ c ≠ '.') :
    numberLiteral (l.raw.toList ++ rest) = .ok (l, rest) := by
  obtain ⟨negative, whole, part, rfl, hne, hwhole, hpart⟩ := h
  have hstop : ∀ c ∈ rest.head?, c.isDigit = false ∧ c ≠ '.' := fun c hc =>
    ⟨isDigit_eq_false_of_not_isIdentifierChar (hrest c hc).1, (hrest c hc).2⟩
  let point := if part.isEmpty then [] else '.' :: part
  have hpoint : ∀ c ∈ (point ++ rest).head?, c.isDigit = false := by
    by_cases hempty : part.isEmpty
    · simpa [point, hempty] using fun c hc => (hstop c hc).1
    · simp [point, hempty]
  have hsign : accept '-' ((if negative then ['-'] else []) ++ whole ++ point ++ rest) =
      .ok (negative, whole ++ (point ++ rest)) := by
    rcases whole with _ | ⟨c, whole⟩
    · exact absurd rfl hne
    have hc : c ≠ '-' := by
      rintro rfl
      exact absurd (hwhole _ List.mem_cons_self) (by decide)
    cases negative <;> simp [hc]
  have hraw : (NumberLiteral.ofDigits negative whole part).raw.toList ++ rest =
      (if negative then ['-'] else []) ++ whole ++ point ++ rest := by
    simp [NumberLiteral.ofDigits, point]
  rw [hraw, numberLiteral, bind_ok hsign, bind_ok (digits_reads hne hwhole hpoint),
    bind_ok (fraction_reads hpart hstop)]
  rfl

private theorem digits_sound (text : List Char) :
    Ensures digits text (fun whole _ => whole ≠ [] ∧ ∀ c ∈ whole, c.isDigit) fun _ => True := by
  rw [Ensures, digits, bind_ok (takeWhile_apply _ _)]
  by_cases hempty : (text.takeWhile Char.isDigit).isEmpty
  · simp [hempty, bind_apply]
  · simp only [hempty]
    exact ⟨by simpa using hempty, fun c hc => List.mem_takeWhile_imp hc⟩

private theorem fraction_sound (text : List Char) :
    Ensures fraction text (fun part _ => ∀ c ∈ part, c.isDigit) fun _ => True := by
  rcases text with _ | ⟨c, rest⟩
  · exact fun _ hd => absurd hd List.not_mem_nil
  by_cases hc : c = '.'
  · subst hc
    rw [Ensures, fraction]
    by_cases hempty : (rest.takeWhile Char.isDigit).isEmpty
    · simp [hempty]
    · simp only [hempty]
      exact fun d hd => List.mem_takeWhile_imp hd
  · simp [Ensures, fraction, hc]

/-- What is read as a number is sound. -/
theorem numberLiteral_sound (text : List Char) :
    Ensures numberLiteral text (fun l _ => l.Sound) fun _ => True := by
  unfold numberLiteral
  refine (contained_accept '-' |>.ensures List.suffix_rfl).bind fun negative rest _ => ?_
  refine (digits_sound rest).bind fun whole rest hwhole => ?_
  refine (fraction_sound rest).bind fun part rest hpart => ?_
  exact ⟨negative, whole, part, rfl, hwhole.1, hwhole.2, hpart⟩

/-! ## Strings -/

/-- A reader has read a piece without line breaks, and reads it again whatever follows. -/
private def Replays {α : Type} (r : Reader α) (text : List Char) (a : α) (rest : List Char) :
    Prop :=
  ∃ piece, text = piece ++ rest ∧ (∀ c ∈ piece, Text.isBreak c = false) ∧
    ∀ other, r (piece ++ other) = .ok (a, other)

private theorem isBreak_eq_false_of_isHexDigit {c : Char} (h : isHexDigit c) :
    Text.isBreak c = false := by
  rw [← Bool.not_eq_true, Text.isBreak_iff]
  rintro (rfl | rfl) <;> contradiction

private theorem codePoint_replays (marker : Char) (count : Nat) (text : List Char) :
    Ensures (codePoint marker count) text (Replays (codePoint marker count) text)
      fun _ => True := by
  rw [Ensures, codePoint]
  by_cases hlength : ((text.take count).takeWhile isHexDigit).length = count
  · simp only [if_pos hlength]
    have htaken : (text.take count).takeWhile isHexDigit = text.take count := by
      refine (List.takeWhile_prefix _).eq_of_length ?_
      rw [hlength]
      have := (List.takeWhile_prefix isHexDigit (l := text.take count)).length_le
      have := List.length_take_le count text
      omega
    have hdigits : ∀ c ∈ text.take count, isHexDigit c := List.takeWhile_eq_self_iff.mp htaken
    rw [htaken] at hlength ⊢
    refine ⟨text.take count, by rw [hlength, List.take_append_drop],
      fun c hc => isBreak_eq_false_of_isHexDigit (hdigits c hc), fun other => ?_⟩
    have htake : (text.take count ++ other).take count = text.take count := by
      rw [List.take_append_of_le_length (by rw [hlength]), List.take_take, Nat.min_self]
    simp only [codePoint, htake, htaken, hlength, if_pos, List.drop_left' hlength]
  · simp only [if_neg hlength]

private theorem escape_replays (text : List Char) :
    Ensures escape text (Replays escape text) fun _ => True := by
  rcases text with _ | ⟨c, rest⟩
  · trivial
  have hunicode {marker : Char} {count : Nat} (hbreak : Text.isBreak marker = false)
      (hmarker : ∀ text, escape (marker :: text) = codePoint marker count text) :
      Ensures (codePoint marker count) rest (Replays escape (marker :: rest)) fun _ => True := by
    refine (codePoint_replays marker count rest).mono ?_ fun _ h => h
    rintro d after ⟨piece, rfl, hpiece, hreads⟩
    refine ⟨marker :: piece, rfl, ?_, fun other => ?_⟩
    · intro e he
      rcases List.mem_cons.mp he with rfl | he
      · exact hbreak
      · exact hpiece e he
    · rw [List.cons_append, hmarker, hreads]
  rw [Ensures, escape_cons]
  by_cases h₁ : c = '\\'
  · subst h₁
    exact ⟨['\\'], rfl, by simp [Text.isBreak], fun other => rfl⟩
  by_cases h₂ : c = '"'
  · subst h₂
    exact ⟨['"'], rfl, by simp [Text.isBreak], fun other => rfl⟩
  by_cases h₃ : c = 'u'
  · subst h₃
    exact hunicode (by decide) fun text => rfl
  by_cases h₄ : c = 'U'
  · subst h₄
    exact hunicode (by decide) fun text => rfl
  simp [h₁, h₂, h₃, h₄]

/-- What a step of a string has read is read again whatever follows, unless it was the last. -/
private theorem stringStep_replays (read text : List Char) :
    Ensures (stringStep read) text
      (fun outcome rest =>
        (∃ next, outcome = .again next ∧ Replays (stringStep read) text outcome rest) ∨
          outcome = .done read.reverse ∧ rest = text ∧ ∃ after, text = '"' :: after)
      fun _ => True := by
  rcases text with _ | ⟨c, rest⟩
  · trivial
  rw [Ensures, stringStep_cons]
  by_cases h₁ : c = '"'
  · subst h₁
    exact Or.inr ⟨rfl, rfl, rest, rfl⟩
  by_cases h₂ : c = '\\'
  · subst h₂
    rw [if_neg h₁, if_pos rfl]
    refine Ensures.bind (escape_replays rest) ?_
    rintro d after ⟨piece, rfl, hpiece, hreads⟩
    refine Or.inl ⟨_, rfl, '\\' :: piece, rfl, ?_, fun other => ?_⟩
    · intro e he
      rcases List.mem_cons.mp he with rfl | he
      · decide
      · exact hpiece e he
    · rw [List.cons_append, stringStep_cons, if_neg h₁, if_pos rfl, bind_ok (hreads other)]
      rfl
  by_cases h₃ : Text.isBreak c
  · simp only [if_neg h₁, if_neg h₂, if_pos h₃]
  · simp only [if_neg h₁, if_neg h₂, if_neg h₃]
    refine Or.inl ⟨_, rfl, [c], rfl, ?_, fun other => ?_⟩
    · simpa using h₃
    · rw [List.singleton_append, stringStep_cons, if_neg h₁, if_neg h₂, if_neg h₃]

/-- Between its quotes a string is read again whatever follows the second one. -/
theorem string_replays (text : List Char) :
    Ensures (loop stringStep []) text
      (fun value rest => ∃ raw after, text = raw ++ rest ∧ rest = '"' :: after ∧
        (∀ c ∈ raw, Text.isBreak c = false) ∧
        ∀ other, loop stringStep [] (raw ++ '"' :: other) = .ok (value, '"' :: other))
      fun _ => True := by
  refine Ensures.loop (I := fun read rest => ∃ raw, text = raw ++ rest ∧
    (∀ c ∈ raw, Text.isBreak c = false) ∧
    ∀ other, loop stringStep [] (raw ++ other) = loop stringStep read other) ?_
    (fun _ _ _ => trivial) ⟨[], rfl, by simp, fun other => rfl⟩
  rintro read rest ⟨raw, rfl, hraw, hloop⟩
  refine (stringStep_replays read rest).mono ?_ fun _ h => h
  rintro outcome after
    (⟨next, rfl, piece, rfl, hpiece, hreads⟩ | ⟨rfl, rfl, after, rfl⟩)
  · refine ⟨raw ++ piece, (List.append_assoc _ _ _).symm, ?_, fun other => ?_⟩
    · intro c hc
      rcases List.mem_append.mp hc with hc | hc
      · exact hraw c hc
      · exact hpiece c hc
    · rw [List.append_assoc, hloop, loop_again advances_stringStep (hreads other)]
  · refine ⟨raw, after, rfl, rfl, hraw, fun other => ?_⟩
    rw [hloop]
    exact loop_done advances_stringStep (by rw [stringStep_cons, if_pos rfl])

/-- What is read as a string is sound. -/
theorem stringLiteral_sound (text : List Char) :
    Ensures stringLiteral text (fun l _ => l.Sound) fun _ => True := by
  rcases text with _ | ⟨c, text⟩
  · trivial
  by_cases hc : c = '"'
  · subst hc
    have hquote (other : List Char) : expect '"' ('"' :: other) = .ok ((), other) := rfl
    rw [Ensures, stringLiteral, bind_ok (hquote text)]
    have hstring := string_replays text
    rw [bind_apply, withText]
    rcases hr : loop stringStep [] text with failure | ⟨value, rest⟩
    · trivial
    obtain ⟨raw, after, htext, rfl, hraw, hreads⟩ := hstring.ok hr
    have hbefore : Text.before text ('"' :: after) = raw := by
      rw [htext, Text.before_append]
    simp only [hbefore]
    refine ⟨by simpa using hraw, fun other => ?_⟩
    have hsource : (StringLiteral.mk (String.ofList value) (String.ofList raw)).source.toList ++
        other = '"' :: (raw ++ '"' :: other) := by
      simp [StringLiteral.source]
    have hagain : withText (loop stringStep []) (raw ++ '"' :: other) =
        .ok ((value, raw), '"' :: other) := by
      simp only [withText, hreads other, Text.before_append]
    rw [hsource, stringLiteral, bind_ok (hquote _), bind_ok hagain]
    rfl
  · have hquote : expect '"' (c :: text) = .error ⟨.expectedToken '"', c :: text⟩ := by
      simp [expect_apply, hc]
    rw [Ensures, stringLiteral, bind_error hquote]
    trivial

/-! ## Literals -/

/-- A sound literal is read back from its source. -/
theorem literal_reads {l : Literal} (h : l.Sound)
    (hrest : ∀ c ∈ rest.head?, isIdentifierChar c = false ∧ c ≠ '.') :
    literal (l.source.toList ++ rest) = .ok (l, rest) := by
  cases l with
  | string l =>
    have hquote : (l.source.toList ++ rest).head? = some '"' := by simp [StringLiteral.source]
    rw [Literal.source, literal_apply, if_pos hquote, bind_ok (h.reads rest)]
    rfl
  | number l =>
    obtain ⟨hstarts, hquote⟩ := startsNumber_raw h rest
    rw [Literal.source, literal_apply, if_neg hquote, if_pos hstarts,
      bind_ok (numberLiteral_reads h hrest)]
    rfl

/-- What is read as a literal is sound. -/
theorem literal_sound (text : List Char) :
    Ensures literal text (fun l _ => l.Sound) fun _ => True := by
  rw [Ensures, literal_apply]
  split_ifs
  · exact (stringLiteral_sound text).bind fun l _ hl => hl
  · exact (numberLiteral_sound text).bind fun l _ hl => hl
  · trivial

end Phrasebook.Reader
