import Mathlib.Data.Nat.Digits.Defs
import Phrasebook.Proofs.Blocks
import Phrasebook.Proofs.RoundTrip.ReadBack.Select

/-!
# Encodings of a string

Between quotes a character can be written as itself, behind a backslash, or by its code point.
Whatever encoding is chosen for each character, the literal that is read has the characters as its
value and the encodings as its source form.
-/

namespace Phrasebook

/-- A hexadecimal digit, in either case, and its value. -/
def HexDigit (value : Nat) (digit : Char) : Prop :=
  value < 16 ∧ (digit = Nat.digitChar value ∨ digit = (Nat.digitChar value).toUpper)

instance (value : Nat) (digit : Char) : Decidable (HexDigit value digit) :=
  inferInstanceAs (Decidable (_ ∧ _))

/-- Hexadecimal digits, the most significant first, that stand for a number. -/
def HexNumeral (n : Nat) (digits : List Char) : Prop :=
  ∃ values, List.Forall₂ HexDigit values digits ∧ Nat.ofDigits 16 values.reverse = n

/-- The ways to write a character between quotes. -/
inductive Encodes : Char → List Char → Prop
  | plain {c : Char} (h : c ∉ ['"', '\\', '\n', '\r']) : Encodes c [c]
  | escaped {c : Char} (h : c = '"' ∨ c = '\\') : Encodes c ['\\', c]
  | short {c : Char} {digits : List Char} (hlength : digits.length = 4)
      (h : HexNumeral c.toNat digits) : Encodes c ('\\' :: 'u' :: digits)
  | long {c : Char} {digits : List Char} (hlength : digits.length = 6)
      (h : HexNumeral c.toNat digits) : Encodes c ('\\' :: 'U' :: digits)

variable {c digit : Char} {code value rest : List Char} {codes : List (List Char)} {n : Nat}

/-! ## Code points -/

/-- A hexadecimal digit is read as its value. -/
theorem HexDigit.eq (h : HexDigit n digit) :
    Reader.isHexDigit digit ∧ Reader.hexDigitValue digit = n := by
  have hlower : ∀ value < 16, Reader.isHexDigit (Nat.digitChar value) ∧
      Reader.hexDigitValue (Nat.digitChar value) = value := by decide
  have hupper : ∀ value < 16, Reader.isHexDigit (Nat.digitChar value).toUpper ∧
      Reader.hexDigitValue (Nat.digitChar value).toUpper = value := by decide
  obtain ⟨hn, rfl | rfl⟩ := h
  · exact hlower n hn
  · exact hupper n hn

/-- A hexadecimal numeral has such digits only. -/
theorem HexNumeral.isHexDigit (h : HexNumeral n code) : ∀ d ∈ code, Reader.isHexDigit d := by
  obtain ⟨values, hdigits, -⟩ := h
  induction hdigits with
  | nil => rintro _ ⟨⟩
  | cons hfirst _ ih => exact List.forall_mem_cons.mpr ⟨hfirst.eq.1, ih⟩

/-- A hexadecimal numeral is read as its number. -/
theorem HexNumeral.hexValue_eq (h : HexNumeral n code) : Reader.hexValue code = n := by
  obtain ⟨values, hdigits, rfl⟩ := h
  have hfold (start : Nat) : code.foldl (fun n c => 16 * n + Reader.hexDigitValue c) start =
      values.foldl (fun n v => 16 * n + v) start := by
    induction hdigits generalizing start with
    | nil => rfl
    | cons hfirst _ ih => rw [List.foldl_cons, List.foldl_cons, hfirst.eq.2, ih]
  rw [Reader.hexValue, hfold, Nat.ofDigits_eq_foldr, List.foldr_reverse]
  simp only [Nat.cast_id, Nat.add_comm]

/-- The code point of a character is read as the character. -/
theorem charOfCodePoint_toNat (c : Char) : Reader.charOfCodePoint c.toNat = c := by
  have hvalid : c.toNat.isValidChar := c.valid
  rw [Reader.charOfCodePoint, if_pos hvalid, Char.ofNat_toNat]

namespace Reader

/-- The digits of a code point are read whatever follows them. -/
theorem codePoint_reads (marker : Char) (h : HexNumeral c.toNat code) (rest : List Char) :
    codePoint marker code.length (code ++ rest) = .ok (c, rest) := by
  have htake : ((code ++ rest).take code.length).takeWhile isHexDigit = code := by
    rw [List.take_left, List.takeWhile_eq_self_iff]
    exact h.isHexDigit
  simp only [codePoint, htake, if_true, h.hexValue_eq, charOfCodePoint_toNat, List.drop_left]

/-- A step of a string reads one encoding, whatever follows it. -/
theorem stringStep_reads (h : Encodes c code) (read rest : List Char) :
    stringStep read (code ++ rest) = .ok (.again (c :: read), rest) := by
  have hescape {body : List Char} (hbody : escape (body ++ rest) = .ok (c, rest)) :
      stringStep read ('\\' :: body ++ rest) = .ok (.again (c :: read), rest) := by
    rw [List.cons_append, stringStep_cons, if_neg (by decide), if_pos rfl, bind_ok hbody]
    rfl
  cases h with
  | plain h =>
    simp only [List.mem_cons, List.not_mem_nil, or_false, not_or] at h
    obtain ⟨hquote, hbackslash, hnewline, hreturn⟩ := h
    have hbreak : ¬Text.isBreak c := by simp [Text.isBreak, hnewline, hreturn]
    rw [List.singleton_append, stringStep_cons, if_neg hquote, if_neg hbackslash, if_neg hbreak]
  | escaped h =>
    have hbody : escape ([c] ++ rest) = .ok (c, rest) := by rcases h with rfl | rfl <;> rfl
    exact hescape hbody
  | short hlength h =>
    refine hescape ?_
    rw [List.cons_append, escape_cons, if_neg (by decide), if_neg (by decide), if_pos rfl,
      ← hlength]
    exact codePoint_reads 'u' h rest
  | long hlength h =>
    refine hescape ?_
    rw [List.cons_append, escape_cons, if_neg (by decide), if_neg (by decide), if_neg (by decide),
      if_pos rfl, ← hlength]
    exact codePoint_reads 'U' h rest

/-- Encodings are read one after the other, up to the closing quote. -/
theorem string_reads (h : List.Forall₂ Encodes value codes) (read rest : List Char) :
    loop stringStep read (codes.flatten ++ '"' :: rest) =
      .ok (read.reverse ++ value, '"' :: rest) := by
  induction h generalizing read with
  | nil =>
    have hdone : stringStep read ('"' :: rest) = .ok (.done read.reverse, '"' :: rest) := by
      rw [stringStep_cons, if_pos rfl]
    rw [List.flatten_nil, List.nil_append, List.append_nil]
    exact loop_done advances_stringStep hdone
  | cons hc _ ih =>
    rw [List.flatten_cons, List.append_assoc,
      loop_again advances_stringStep (stringStep_reads hc read _), ih]
    simp

end Reader

/-! ## Literals -/

/-- An encoding stands on one line. -/
theorem Encodes.unbroken (h : Encodes c code) : ∀ d ∈ code, Text.isBreak d = false := by
  have hdigits {digits : List Char} (h : HexNumeral c.toNat digits) :
      ∀ d ∈ digits, Text.isBreak d = false := by
    intro d hd
    have := h.isHexDigit d hd
    rw [← Bool.not_eq_true, Text.isBreak_iff]
    rintro (rfl | rfl) <;> contradiction
  cases h with
  | plain h => simp_all [Text.isBreak]
  | escaped h => rcases h with rfl | rfl <;> simp [Text.isBreak]
  | short _ h => simpa [Text.isBreak] using hdigits h
  | long _ h => simpa [Text.isBreak] using hdigits h

/-- A literal whose source form encodes its value is sound. -/
theorem StringLiteral.sound_of_encodes (h : List.Forall₂ Encodes value codes) :
    StringLiteral.Sound ⟨String.ofList value, String.ofList codes.flatten⟩ := by
  refine ⟨?_, fun rest => ?_⟩
  · rw [String.toList_ofList]
    induction h with
    | nil => rintro _ ⟨⟩
    | cons hc _ ih => exact List.forall_mem_append.mpr ⟨hc.unbroken, ih⟩
  · set l : StringLiteral := ⟨String.ofList value, String.ofList codes.flatten⟩
    have hsource : l.source.toList ++ rest = '"' :: (codes.flatten ++ '"' :: rest) := by
      simp [l, StringLiteral.source]
    have hquote (other : List Char) : Reader.expect '"' ('"' :: other) = .ok ((), other) := rfl
    have hloop : Reader.withText (Reader.loop Reader.stringStep [])
        (codes.flatten ++ '"' :: rest) = .ok ((value, codes.flatten), '"' :: rest) := by
      simp only [Reader.withText, Reader.string_reads h, List.reverse_nil, List.nil_append,
        Text.before_append]
    rw [hsource, Reader.stringLiteral, Reader.bind_ok (hquote _), Reader.bind_ok hloop]
    rfl

/-- A literal between braces is the value of its unit. -/
private theorem entryPattern_string {l : StringLiteral} (h : l.Sound) :
    Reader.entryPattern (' ' :: '{' :: ' ' :: (l.source.toList ++ [' ', '}'])) =
      .ok (some [.placeable (.string l)], []) := by
  have hplaceable : (Reader.Nested.levels maxNesting).placeable
      (' ' :: (l.source.toList ++ [' ', '}'])) = .ok (.string l, []) := by
    have hwritten : (Expression.string l).written 0 = l.source.toList :=
      (Piece.writes_at h.inline).layout
    have hread := Reader.placeable_reads (e := .string l) h []
    rwa [hwritten, Expression.dedent] at hread
  have hadvances := Reader.advances_segmentStep
    (Reader.readsBack_levels (fun _ => True) maxNesting).contained.placeable false
  have hspaces (text : List Char) :
      Reader.skipSpaces (' ' :: '{' :: text) = .ok (1, '{' :: text) := rfl
  have hline (text : List Char) :
      Reader.acceptLineEnd ('{' :: text) = .ok (false, '{' :: text) := rfl
  have hfirst : Reader.segmentStep (Reader.Nested.levels maxNesting).placeable false []
      ('{' :: ' ' :: (l.source.toList ++ [' ', '}'])) =
      .ok (.again [.placeable false (.string l)], []) := by
    rw [Reader.segmentStep_eq, Reader.bind_apply, Reader.nextSegment, if_neg (by decide),
      Reader.inLine_cons, if_pos rfl, Reader.bind_ok hplaceable]
    rfl
  have hsecond : Reader.segmentStep (Reader.Nested.levels maxNesting).placeable false
      [.placeable false (.string l)] [] = .ok (.done [.placeable false (.string l)], []) := rfl
  rw [Reader.entryPattern, Reader.pattern, Reader.bind_ok (hspaces _), Reader.bind_ok (hline _)]
  simp only [Bool.false_eq_true, if_false]
  rw [Reader.bind_ok ((Reader.loop_again hadvances hfirst).trans
    (Reader.loop_done hadvances hsecond))]
  rfl

/-- A string between braces is read as its only element, with the characters that it encodes as its
value and the encodings as its source form. -/
theorem parse_encoded (h : List.Forall₂ Encodes value codes) :
    let source := "m = \x7b \"" ++ String.ofList codes.flatten ++ "\" \x7d"
    (Resource.parse source).entries =
      [.message {
        id := "m"
        value := some
          [.placeable (.string ⟨String.ofList value, String.ofList codes.flatten⟩)]
        attributes := []
        comment := none
        span := ⟨0, source.utf8ByteSize⟩ }] := by
  intro source
  have hsound := StringLiteral.sound_of_encodes h
  set l : StringLiteral := ⟨String.ofList value, String.ofList codes.flatten⟩
  have hsource : source.toList =
      "m".toList ++ ' ' :: '=' :: ' ' :: '{' :: ' ' :: (l.source.toList ++ [' ', '}']) := by
    simp [source, l, StringLiteral.source]
  have hspan : Reader.spanOf 0 source.toList = ⟨0, source.utf8ByteSize⟩ := by
    have hend : Text.dropEndWhile Text.isBlank source.toList = source.toList := by
      have hbrace : source.toList =
          ('m' :: ' ' :: '=' :: ' ' :: '{' :: ' ' :: l.source.toList ++ [' ']) ++ ['}'] := by
        simp [hsource]
      rw [hbrace]
      exact Text.dropEndWhile_append_of_ne_nil (by decide)
    rw [Reader.spanOf, hend, Text.byteLength_eq_utf8ByteSize, String.ofList_toList, Nat.zero_add]
  rw [Resource.entries_parse_value hsource (fun _ => rfl) (entryPattern_string hsound), hspan]

/-- A letter by its code point with a digit behind it, a quote by its code point and behind a
backslash, and a line end that only its code point can stand for. -/
theorem parse_encoded_code_points :
    let value := ['é', '7', '"', '\\', '"', '😊', '\n']
    let codes := [['\\', 'u', '0', '0', 'e', '9'], ['7'], ['\\', 'u', '0', '0', '2', '2'],
      ['\\', '\\'], ['\\', '"'], ['\\', 'U', '0', '1', 'F', '6', '0', 'a'],
      ['\\', 'U', '0', '0', '0', '0', '0', 'A']]
    let source := "m = \x7b \"" ++ String.ofList codes.flatten ++ "\" \x7d"
    List.Forall₂ Encodes value codes ∧
      (Resource.parse source).entries =
        [.message {
          id := "m"
          value := some
            [.placeable (.string ⟨String.ofList value, String.ofList codes.flatten⟩)]
          attributes := []
          comment := none
          span := ⟨0, source.utf8ByteSize⟩ }] := by
  intro value codes source
  have h : List.Forall₂ Encodes value codes :=
    .cons (.short rfl ⟨[0, 0, 14, 9], by decide, rfl⟩) <|
    .cons (.plain (by decide)) <|
    .cons (.short rfl ⟨[0, 0, 2, 2], by decide, rfl⟩) <|
    .cons (.escaped (.inr rfl)) <|
    .cons (.escaped (.inl rfl)) <|
    .cons (.long rfl ⟨[0, 1, 15, 6, 0, 10], by decide, rfl⟩) <|
    .cons (.long rfl ⟨[0, 0, 0, 0, 0, 10], by decide, rfl⟩) .nil
  exact ⟨h, parse_encoded h⟩

end Phrasebook
