import Mathlib.Data.List.Nodup
import Phrasebook.Plural.Selection
import Phrasebook.Proofs.Number.Digits

/-!
# Plain numerals

The plain numeral of a number is a decimal exactly if the number that is written is finite, and its
digits then keep within the bounds of the options. A finite percentage may have a hundredfold that
is not. Plural rules can read a decimal as long as the options do not ask for more digits than they
take. The sign is written before a digit other than zero, and before any fraction that the options
ask for, also where that has zeros only.
-/

namespace Phrasebook

/-- Text of the form `-?[0-9]+(\.[0-9]+)?`, with the digits before and behind its point. -/
structure DecimalText (text whole fraction : List Char) : Prop where
  text_eq : ∃ sign ∈ [[], ['-']],
    text = sign ++ whole ++ if fraction = [] then [] else '.' :: fraction
  whole_ne_nil : whole ≠ []
  isDigit_whole : ∀ c ∈ whole, c.isDigit
  isDigit_fraction : ∀ c ∈ fraction, c.isDigit

/-- A decimal is made of digits, its sign and its point. -/
theorem DecimalText.isDigit_of_mem {text whole fraction : List Char} {c : Char}
    (h : DecimalText text whole fraction) (hc : c ∈ text) : c.isDigit ∨ c = '-' ∨ c = '.' := by
  obtain ⟨sign, hsign, rfl⟩ := h.text_eq
  simp only [List.mem_append] at hc
  rcases hc with (hc | hc) | hc
  · rcases List.mem_pair.mp hsign with rfl | rfl
    · cases hc
    · exact .inr (.inl (List.mem_singleton.mp hc))
  · exact .inl (h.isDigit_whole c hc)
  · split at hc
    · cases hc
    · rcases List.mem_cons.mp hc with rfl | hc
      · exact .inr (.inr rfl)
      · exact .inl (h.isDigit_fraction c hc)

/-- Only the numeral of one digit is written as that digit. -/
theorem Numeral.eq_of_toList_singleton {n : Numeral} {c : Char} (hwhole : n.whole ≠ [])
    (h : n.toList = [c]) : n = ⟨false, [c], []⟩ := by
  obtain ⟨negative, whole, fraction⟩ := n
  cases whole with
  | nil => exact absurd rfl hwhole
  | cons d rest => cases negative <;> cases fraction <;> simp_all [Numeral.toList]

namespace Plural.Language

variable {language : Language}

/-- No two supported languages have the same code. -/
theorem nodup_codes : (all.map code).Nodup := by decide

/-- The language of a locale is a supported one. -/
theorem ofLocale_mem_all (locale : String) : ofLocale locale ∈ all := by
  rw [ofLocale]
  cases hfind : all.find? fun language =>
      language.code.toList = (Locale.language locale).map Char.toLower with
  | none => exact List.mem_cons_self
  | some language => exact List.mem_of_find?_eq_some hfind

/-- The rules of a supported language are found by its code, which no other language has. -/
theorem rules?_code (h : language ∈ all) (kind : PluralKind) :
    rules? language.code kind = some (language.rules kind) := by
  rw [rules?]
  cases hfind : all.find? fun other => other.code = language.code with
  | none => simpa using List.find?_eq_none.mp hfind language h
  | some other =>
    have hcode : other.code = language.code := by simpa using List.find?_some hfind
    rw [List.inj_on_of_nodup_map nodup_codes (List.mem_of_find?_eq_some hfind) h hcode]
    rfl

end Plural.Language

namespace NumberValue

variable {x : NumberValue} {c : Char}

/-! ## The digits of a numeral -/

/-- The fraction digits without the zeros at their end. -/
def significant (x : NumberValue) : List Char :=
  Text.dropEndWhile (· == '0') (x.scaled.toFixed x.places).2

/-- The whole part is that of the rounded number, after zeros up to the least digit count. -/
theorem numeral_whole : x.numeral.whole =
    List.replicate (x.options.minIntegerDigits.getD 1 - (x.scaled.toFixed x.places).1.length) '0' ++
      (x.scaled.toFixed x.places).1 := rfl

/-- The fraction has the digits other than trailing zeros, and then zeros up to the least digit
count. -/
theorem numeral_fraction : x.numeral.fraction = x.significant ++
    List.replicate (x.options.minFractionDigits.getD 0 - x.significant.length) '0' := rfl

/-- The sign is written before a digit other than zero and before any fraction. -/
theorem numeral_negative : x.numeral.negative ↔
    x.scaled.isBelowZero ∧
      ((∃ c ∈ (x.scaled.toFixed x.places).1, c ≠ '0') ∨ x.numeral.fraction ≠ []) := by
  have hnegative : x.numeral.negative = (x.scaled.isBelowZero &&
      ((x.scaled.toFixed x.places).1.any (· != '0') || !x.numeral.fraction.isEmpty)) := rfl
  simp [hnegative]

/-- The whole part is never empty. -/
theorem whole_ne_nil : x.numeral.whole ≠ [] :=
  List.append_ne_nil_of_right_ne_nil _ (x.scaled.toFixed_unsigned x.places).1

/-- The whole part is as long as that of the rounded number unless the options ask for more. -/
theorem length_whole : x.numeral.whole.length =
    max (x.options.minIntegerDigits.getD 1) (x.scaled.toFixed x.places).1.length := by
  rw [numeral_whole, List.length_append, List.length_replicate]
  omega

/-- The fraction is as long as its significant digits unless the options ask for more. -/
theorem length_fraction : x.numeral.fraction.length =
    max (x.options.minFractionDigits.getD 0) x.significant.length := by
  rw [numeral_fraction, List.length_append, List.length_replicate]
  omega

/-- There is a fraction exactly if a digit of it is significant or the options ask for one. -/
theorem fraction_ne_nil : x.numeral.fraction ≠ [] ↔
    x.significant ≠ [] ∨ 0 < x.options.minFractionDigits.getD 0 := by
  rw [← List.length_pos_iff, ← List.length_pos_iff, length_fraction]
  omega

/-- The significant digits of a fraction do not end in zero. -/
theorem getLast?_significant : x.significant.getLast? ≠ some '0' := by
  obtain ⟨-, -, -, hlast⟩ :=
    Text.dropEndWhile_spec (· == '0') (x.scaled.toFixed x.places).2
  intro h
  simpa using hlast '0' h

/-- The natural number of places is exceeded only where the options ask for more. -/
theorem places_le_natural :
    x.places ≤ max (x.options.minFractionDigits.getD 0) x.scaled.fractionPlaces := by
  simp only [places]
  omega

/-- The greatest digit count is exceeded only where the least one asks for it. -/
theorem places_le_most {most : Nat} (h : x.options.maxFractionDigits = some most) :
    x.places ≤ max (x.options.minFractionDigits.getD 0) most := by
  simp only [places, h, Option.getD_some]
  omega

section Finite

variable (h : x.scaled.isFinite)
include h

/-- No more fraction digits are significant than were rounded to. -/
theorem length_significant_le : x.significant.length ≤ x.places := by
  rw [← (Double.fixed_toFixed h x.places).length_fraction]
  exact (List.rdropWhile_prefix _ _).length_le

/-- The significant digits of a finite number are digits. -/
theorem isDigit_significant : ∀ c ∈ x.significant, c.isDigit := fun c hc =>
  (Double.fixed_toFixed h x.places).isDigit_fraction c ((List.rdropWhile_prefix _ _).subset hc)

/-- The whole part of a finite number is made of digits. -/
theorem isDigit_whole : ∀ c ∈ x.numeral.whole, c.isDigit := by
  rw [numeral_whole, List.forall_mem_append]
  exact ⟨isDigit_zeros, (Double.fixed_toFixed h x.places).isDigit_whole⟩

/-- The fraction of a finite number is made of digits. -/
theorem isDigit_fraction : ∀ c ∈ x.numeral.fraction, c.isDigit := by
  rw [numeral_fraction, List.forall_mem_append]
  exact ⟨isDigit_significant h, isDigit_zeros⟩

/-- Only digits that the options ask for make a numeral too long for the plural rules. -/
theorem readable_numeral : Plural.Operands.readable x.numeral ↔
    x.options.minIntegerDigits.getD 0 ≤ Plural.Operands.maxDigits ∧
      x.options.minFractionDigits.getD 0 ≤ Plural.Operands.maxDigits := by
  have hmax : Plural.Operands.maxDigits = 32768 := rfl
  have hdigits := Double.fixed_toFixed h x.places
  have hwhole : x.numeral.whole.length ≤ Plural.Operands.maxDigits ↔
      x.options.minIntegerDigits.getD 0 ≤ Plural.Operands.maxDigits := by
    have hlength := hdigits.length_whole_le
    rw [length_whole]
    cases x.options.minIntegerDigits <;> simp only [Option.getD_none, Option.getD_some] <;> omega
  have hfraction : x.numeral.fraction.length ≤ Plural.Operands.maxDigits ↔
      x.options.minFractionDigits.getD 0 ≤ Plural.Operands.maxDigits := by
    have hsignificant := length_significant_le h
    have hplaces := places_le_natural (x := x)
    have hnatural : x.scaled.fractionPlaces ≤ 1074 := Double.fractionPlaces_le
    rw [length_fraction]
    omega
  rw [← hwhole, ← hfraction]
  simp only [Plural.Operands.readable, Bool.and_eq_true, List.all_eq_true, decide_eq_true_eq]
  constructor
  · rintro ⟨⟨-, hw⟩, hf⟩
    exact ⟨hw, hf⟩
  · rintro ⟨hw, hf⟩
    exact ⟨⟨⟨isDigit_whole h, isDigit_fraction h⟩, hw⟩, hf⟩

/-- A finite number is written as a decimal. -/
theorem decimalText_plainText :
    DecimalText x.plainText.toList x.numeral.whole x.numeral.fraction := by
  refine ⟨⟨if x.numeral.negative then ['-'] else [], ?_, ?_⟩, whole_ne_nil, isDigit_whole h,
    isDigit_fraction h⟩
  · split <;> simp
  · simp [plainText, Numeral.toList]

end Finite

/-! ## Names in the place of digits -/

/-- The plain text has the characters of the numeral. -/
theorem toList_plainText : x.plainText.toList = x.numeral.toList := String.toList_ofList ..

/-- The names of infinity and NaN have a letter. -/
theorem exists_letter (h : ¬x.scaled.isFinite) :
    ∃ c ∈ x.numeral.whole, ¬c.isDigit ∧ c ≠ '-' ∧ c ≠ '.' := by
  have hname {c : Char} (hc : c ∈ (x.scaled.toFixed x.places).1) : c ∈ x.numeral.whole :=
    List.mem_append_right _ hc
  obtain hinfinite | hnan := x.scaled.trichotomy.resolve_left h
  · refine ⟨'i', hname ?_, by decide⟩
    rw [Double.toFixed_infinite hinfinite]
    decide
  · refine ⟨'N', hname ?_, by decide⟩
    rw [Double.toFixed_nan hnan]
    decide

/-- What is not finite is not written as a decimal. -/
theorem not_decimalText (h : ¬x.scaled.isFinite) (whole fraction : List Char) :
    ¬DecimalText x.plainText.toList whole fraction := by
  intro htext
  obtain ⟨c, hc, hdigit, hsign, hpoint⟩ := exists_letter h
  have hmem : c ∈ x.plainText.toList := by
    rw [toList_plainText, Numeral.toList]
    exact List.mem_append_left _ (List.mem_append_right _ hc)
  rcases htext.isDigit_of_mem hmem with hc | hc | hc
  · exact hdigit hc
  · exact hsign hc
  · exact hpoint hc

/-- Plural rules read the decimals for which the options do not ask for too many digits. -/
theorem readable_iff : Plural.Operands.readable x.numeral ↔ x.scaled.isFinite ∧
    x.options.minIntegerDigits.getD 0 ≤ Plural.Operands.maxDigits ∧
      x.options.minFractionDigits.getD 0 ≤ Plural.Operands.maxDigits := by
  by_cases h : x.scaled.isFinite
  · rw [readable_numeral h, and_iff_right h]
  · refine iff_of_false (fun hreadable => ?_) fun hfinite => h hfinite.1
    obtain ⟨c, hc, hdigit, -⟩ := exists_letter h
    simp only [Plural.Operands.readable, Bool.and_eq_true, List.all_eq_true] at hreadable
    exact hdigit (hreadable.1.1.1 c hc)

/-- A text that plural rules cannot read is not that of one. -/
theorem textual_plainText (h : ¬Plural.Operands.readable x.numeral) :
    Plural.textual x.plainText = .other := by
  refine if_neg fun htext => h ?_
  have hlist : x.numeral.toList = ['1'] := by
    rw [← toList_plainText, htext]
    rfl
  rw [Numeral.eq_of_toList_singleton whole_ne_nil hlist]
  rfl

/-- There are rules for every locale; what they cannot read is in none of their categories. -/
theorem category_eq (x : NumberValue) (locale : String) : x.category locale =
    if Plural.Operands.readable x.numeral then
      ((Plural.Language.ofLocale locale).rules x.options.kind).category (.ofNumeral x.numeral)
    else .other := by
  rw [category, Plural.Language.rules?_code (Plural.Language.ofLocale_mem_all locale)]
  split
  · rfl
  · exact textual_plainText ‹_›

/-! ## The decimal -/

/-- A number is written as a decimal exactly if it is finite, for percentages its hundredfold. The
decimal then has the least digits that the options ask for, no more fraction digits than they allow
and no zero at the end of a longer fraction. Plural rules can read it unless the options ask for too
many digits, and a number that they cannot read is in the category `other`. -/
theorem plainText_decimal (x : NumberValue) :
    ((∃ whole fraction, DecimalText x.plainText.toList whole fraction) ↔ x.scaled.isFinite) ∧
      (x.scaled.isFinite →
        DecimalText x.plainText.toList x.numeral.whole x.numeral.fraction ∧
          x.options.minIntegerDigits.getD 0 ≤ x.numeral.whole.length ∧
          x.options.minFractionDigits.getD 0 ≤ x.numeral.fraction.length ∧
          (∀ most, x.options.maxFractionDigits = some most →
            x.numeral.fraction.length ≤ max (x.options.minFractionDigits.getD 0) most) ∧
          (x.options.minFractionDigits.getD 0 < x.numeral.fraction.length →
            x.numeral.fraction.getLast? ≠ some '0')) ∧
      (Plural.Operands.readable x.numeral ↔ x.scaled.isFinite ∧
        x.options.minIntegerDigits.getD 0 ≤ Plural.Operands.maxDigits ∧
          x.options.minFractionDigits.getD 0 ≤ Plural.Operands.maxDigits) ∧
      (¬Plural.Operands.readable x.numeral → ∀ locale, x.category locale = .other) := by
  refine ⟨⟨fun ⟨whole, fraction, htext⟩ => ?_, fun h => ⟨_, _, decimalText_plainText h⟩⟩,
    fun h => ⟨decimalText_plainText h, ?_, ?_, fun most hmost => ?_, fun hlong => ?_⟩, readable_iff,
    fun hunreadable locale => ?_⟩
  · by_contra h
    exact not_decimalText h whole fraction htext
  · rw [length_whole]
    cases x.options.minIntegerDigits with
    | none => exact Nat.zero_le _
    | some least => exact Nat.le_max_left ..
  · rw [length_fraction]
    exact Nat.le_max_left ..
  · have hplaces := places_le_most hmost
    have hsignificant := length_significant_le h
    rw [length_fraction]
    omega
  -- A fraction longer than what was asked for has not been padded, so its last digit is
  -- significant.
  · have hpadding : x.options.minFractionDigits.getD 0 - x.significant.length = 0 := by
      have hlength := length_fraction (x := x)
      omega
    rw [numeral_fraction, hpadding, List.replicate_zero, List.append_nil]
    exact getLast?_significant
  · rw [category_eq, if_neg hunreadable]

/-- A negative percentage with padding on both sides. -/
theorem plainText_decimal_percentage :
    let x : NumberValue := {
      value := ⟨0xBFC0000000000000⟩
      options := { style := .percent, minFractionDigits := some 2, minIntegerDigits := some 3 } }
    x.scaled.isFinite ∧ DecimalText "-012.50".toList ['0', '1', '2'] ['5', '0'] ∧
      Plural.Operands.readable x.numeral := by
  intro x
  have hfinite : x.scaled.isFinite := by decide +kernel
  have hnumeral : x.numeral = ⟨true, ['0', '1', '2'], ['5', '0']⟩ := by decide +kernel
  have htext : x.plainText = "-012.50" := by rw [plainText, hnumeral]; rfl
  obtain ⟨-, hbounds, hreadable, -⟩ := plainText_decimal x
  obtain ⟨hdecimal, -⟩ := hbounds hfinite
  rw [htext, hnumeral] at hdecimal
  exact ⟨hfinite, hdecimal, hreadable.mpr ⟨hfinite, by decide⟩⟩

/-- A finite percentage whose hundredfold is past the greatest double is written by the name of
infinity. -/
theorem plainText_overflown :
    let x : NumberValue := { value := ⟨0x7FE1CCF385EBC8A0⟩, options := { style := .percent } }
    x.value.isFinite ∧ x.plainText = "inf" ∧
      ¬∃ whole fraction, DecimalText x.plainText.toList whole fraction := by
  intro x
  have hfinite : x.value.isFinite := by decide +kernel
  have hscaled : ¬x.scaled.isFinite := by decide +kernel
  have hnumeral : x.numeral = ⟨false, ['i', 'n', 'f'], []⟩ := by decide +kernel
  refine ⟨hfinite, by rw [plainText, hnumeral]; rfl, ?_⟩
  rintro ⟨whole, fraction, htext⟩
  exact not_decimalText hscaled whole fraction htext

/-! ## The sign -/

/-- A numeral that is not negative begins with a digit or a name. -/
theorem head?_plainText : x.plainText.toList.head? = some '-' ↔ x.numeral.negative := by
  have hunsigned : x.numeral.whole.head? ≠ some '-' := fun hc => by
    have hmem := List.mem_of_head? hc
    rw [numeral_whole, List.mem_append, List.mem_replicate] at hmem
    exact hmem.elim (fun hzero => absurd hzero.2 (by decide))
      (x.scaled.toFixed_unsigned x.places).2
  rw [toList_plainText, Numeral.toList]
  cases x.numeral.negative with
  | true => simp
  | false =>
    rw [if_neg Bool.false_ne_true, List.nil_append, List.head?_append_of_ne_nil _ whole_ne_nil]
    simpa using hunsigned

/-- Every digit of the text is in the whole part or in the fraction. -/
theorem mem_plainText_of_isDigit (h : c.isDigit) :
    c ∈ x.plainText.toList ↔ c ∈ x.numeral.whole ∨ c ∈ x.numeral.fraction := by
  have hsign : c ≠ '-' := fun hc => absurd h (hc ▸ by decide)
  have hpoint : c ≠ '.' := fun hc => absurd h (hc ▸ by decide)
  rw [toList_plainText, Numeral.toList]
  cases x.numeral.negative <;> cases x.numeral.fraction <;> simp [hsign, hpoint]

/-- A digit other than zero comes from the number itself, and not from padding. -/
theorem exists_digit_ne_zero (h : x.scaled.isFinite) :
    (∃ c ∈ x.plainText.toList, c.isDigit ∧ c ≠ '0') ↔
      (∃ c ∈ (x.scaled.toFixed x.places).1, c ≠ '0') ∨ x.significant ≠ [] := by
  constructor
  · rintro ⟨c, hc, hdigit, hzero⟩
    rcases (mem_plainText_of_isDigit hdigit).mp hc with hwhole | hfraction
    · rw [numeral_whole, List.mem_append, List.mem_replicate] at hwhole
      exact .inl ⟨c, hwhole.resolve_left fun hpadding => hzero hpadding.2, hzero⟩
    · rw [numeral_fraction, List.mem_append, List.mem_replicate] at hfraction
      exact .inr (List.ne_nil_of_mem (hfraction.resolve_right fun hpadding => hzero hpadding.2))
  · rintro (⟨c, hc, hzero⟩ | hne)
    · have hdigit := (Double.fixed_toFixed h x.places).isDigit_whole c hc
      have hwhole : c ∈ x.numeral.whole := List.mem_append_right _ hc
      exact ⟨c, (mem_plainText_of_isDigit hdigit).mpr (.inl hwhole), hdigit, hzero⟩
    · obtain ⟨last, hlast⟩ := Option.ne_none_iff_exists'.mp (mt List.getLast?_eq_none_iff.mp hne)
      have hmem := List.mem_of_getLast? hlast
      have hdigit := isDigit_significant h last hmem
      have hfraction : last ∈ x.numeral.fraction := List.mem_append_left _ hmem
      refine ⟨last, (mem_plainText_of_isDigit hdigit).mpr (.inr hfraction), hdigit, ?_⟩
      rintro rfl
      exact getLast?_significant hlast

/-- A sign is written exactly before a number below zero in whose digits one is not zero, unless
the options ask for fraction digits or the number has overflown: then it is written anyway. -/
theorem plainText_signed : x.plainText.toList.head? = some '-' ↔
    x.scaled.isBelowZero ∧ ((∃ c ∈ x.plainText.toList, c.isDigit ∧ c ≠ '0') ∨
      0 < x.options.minFractionDigits.getD 0 ∨ x.scaled.isInfinite) := by
  rw [head?_plainText, numeral_negative]
  refine and_congr_right fun hbelow => ?_
  obtain hfinite | hinfinite | hnan := x.scaled.trichotomy
  · rw [exists_digit_ne_zero hfinite, fraction_ne_nil,
      or_iff_left (Double.not_isInfinite hfinite), or_assoc]
  · -- the name of infinity stands for digits, and none of its letters is a zero
    have hname : ∃ c ∈ (x.scaled.toFixed x.places).1, c ≠ '0' := by
      rw [Double.toFixed_infinite hinfinite]
      exact ⟨'i', by decide⟩
    exact ⟨fun _ => .inr (.inr hinfinite), fun _ => .inl hname⟩
  · simp [Double.isBelowZero, hnan] at hbelow

/-- A thousandth below zero, rounded to two places that are both asked for, keeps its sign. -/
theorem plainText_minus_zero :
    let x : NumberValue := {
      value := ⟨0xBF50624DD2F1A9FC⟩
      options := { minFractionDigits := some 2, maxFractionDigits := some 2 } }
    x.value.isFinite ∧ x.plainText = "-0.00" ∧
      ¬(x.plainText.toList.head? = some '-' ↔
        x.scaled.isBelowZero ∧ ∃ c ∈ x.plainText.toList, c.isDigit ∧ c ≠ '0') := by
  intro x
  have hfinite : x.value.isFinite := by decide +kernel
  have hnumeral : x.numeral = ⟨true, ['0'], ['0', '0']⟩ := by decide +kernel
  have htext : x.plainText.toList = ['-', '0', '.', '0', '0'] := by
    rw [toList_plainText, hnumeral]
    rfl
  refine ⟨hfinite, by rw [plainText, hnumeral]; rfl, fun hsigned => ?_⟩
  rw [htext] at hsigned
  obtain ⟨-, c, hc, hdigit, hzero⟩ := hsigned.mp rfl
  simp only [List.mem_cons, List.not_mem_nil, or_false] at hc
  rcases hc with rfl | rfl | rfl | rfl | rfl
  · cases hdigit
  · exact hzero rfl
  · cases hdigit
  · exact hzero rfl
  · exact hzero rfl

end NumberValue

end Phrasebook
