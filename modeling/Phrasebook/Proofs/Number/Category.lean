import Phrasebook.Plural.Selection
import Phrasebook.Proofs.Number.PlainText

/-!
# What a plural category depends on

The category of a number is told from its digits. The sign, grouping, and the region of a locale
have no part in it. Zeros before the whole part have none either, as long as they do not make it
longer than the digits that plural rules count: a longer whole part is taken for a large number.
-/

namespace Phrasebook

/-! ## Magnitudes -/

namespace BinaryFormat

/-- Rounding into a format goes no further than its infinity. -/
theorem round_le (f : BinaryFormat) (n d : Nat) : f.round n d ≤ f.infinity := by
  rw [round]
  split
  · exact Nat.zero_le _
  · exact Nat.min_le_left ..

end BinaryFormat

namespace Double

variable {x y : Double} {negative : Bool} {bits : Nat}

/-- The number with the other sign. -/
def negate (x : Double) : Double := ofMagnitude (!x.isNegative) x.magnitude

/-- The magnitude leaves the sign bit free. -/
theorem magnitude_lt (x : Double) : x.magnitude < signBit := Nat.mod_lt _ (by decide)

/-- The bits of a number are its magnitude and its sign bit. -/
theorem toNat_ofMagnitude (h : bits < signBit) :
    (ofMagnitude negative bits).bits.toNat = bits + if negative then signBit else 0 := by
  have hsign : signBit = 2 ^ 63 := rfl
  rw [ofMagnitude, UInt64.toNat_ofNat', Nat.mod_eq_of_lt]
  split <;> omega

/-- A number that is made of a magnitude has it. -/
theorem magnitude_ofMagnitude (h : bits < signBit) :
    (ofMagnitude negative bits).magnitude = bits := by
  rw [magnitude, toNat_ofMagnitude h]
  split
  · rw [Nat.add_mod_right, Nat.mod_eq_of_lt h]
  · rw [Nat.add_zero, Nat.mod_eq_of_lt h]

/-- A number that is made with a sign has it. -/
theorem isNegative_ofMagnitude (h : bits < signBit) :
    (ofMagnitude negative bits).isNegative = negative := by
  rw [isNegative, toNat_ofMagnitude h]
  cases negative <;> simp [h]

/-- Turning the sign keeps the magnitude. -/
@[simp] theorem magnitude_negate (x : Double) : x.negate.magnitude = x.magnitude :=
  magnitude_ofMagnitude x.magnitude_lt

/-- Turning the sign turns it. -/
@[simp] theorem isNegative_negate (x : Double) : x.negate.isNegative = !x.isNegative :=
  isNegative_ofMagnitude x.magnitude_lt

section

variable (h : x.magnitude = y.magnitude)
include h

/-- The quotient of a number is told from its magnitude. -/
theorem quotient_congr : x.quotient = y.quotient := by
  rw [quotient, quotient, h]

/-- Whether a number is finite is told from its magnitude. -/
theorem isFinite_congr : x.isFinite = y.isFinite := by
  rw [isFinite, isFinite, h]

/-- The magnitude of a hundredfold is told from that of the number. -/
theorem magnitude_timesHundred_congr : x.timesHundred.magnitude = y.timesHundred.magnitude := by
  have hround : BinaryFormat.binary64.round (100 * y.quotient.1) y.quotient.2 < signBit :=
    (BinaryFormat.round_le ..).trans_lt (by decide)
  rw [timesHundred, timesHundred, isFinite_congr h, quotient_congr h]
  split
  · rw [ofQuotient, ofQuotient, magnitude_ofMagnitude hround, magnitude_ofMagnitude hround]
  · exact h

/-- The places with which a number reads back are told from its magnitude. -/
theorem fractionPlaces_congr : x.fractionPlaces = y.fractionPlaces := by
  have hreads : x.readsBackAt = y.readsBackAt := by
    funext places
    rw [readsBackAt, readsBackAt, abs, abs, quotient_congr h, h]
  rw [fractionPlaces, fractionPlaces, isFinite_congr h, hreads]

/-- The digits of a number are told from its magnitude. -/
theorem toFixed_congr (places : Nat) : x.toFixed places = y.toFixed places := by
  rw [toFixed, toFixed, isNaN, isNaN, isInfinite, isInfinite, quotient_congr h, h]

end

/-- Every double, named or in digits, has at most 1024 characters before its point. -/
theorem length_toFixed_le (x : Double) (places : Nat) : (x.toFixed places).1.length ≤ 1024 := by
  obtain hfinite | hinfinite | hnan := x.trichotomy
  · exact (fixed_toFixed hfinite places).length_whole_le
  · rw [toFixed_infinite hinfinite]
    decide
  · rw [toFixed_nan hnan]
    decide

end Double

/-! ## Operands -/

namespace Plural.Operands

variable {x y : Numeral} {count : Nat} {digits : List Char}

/-- Zeros before digits do not change their value. -/
theorem ofDigitChars_zeros (count : Nat) (digits : List Char) :
    Nat.ofDigitChars 10 (List.replicate count '0' ++ digits) 0 = Nat.ofDigitChars 10 digits 0 := by
  induction count with
  | zero => rfl
  | succ count ih => rw [List.replicate_succ, List.cons_append, Nat.ofDigitChars_cons]; exact ih

/-- Of the digits that count, those of the padding are zeros. What is left of the padding is whether
it makes the whole part longer than the digits that count. -/
theorem wholeValue_zeros (count : Nat) (digits : List Char) :
    wholeValue (List.replicate count '0' ++ digits) =
      (if precision < count + digits.length then Nat.pow 10 precision else 0) +
        Nat.ofDigitChars 10 (digits.drop (digits.length - precision)) 0 := by
  have hlength : (List.replicate count '0' ++ digits).length = count + digits.length := by simp
  rw [wholeValue, hlength]
  rcases Nat.lt_or_ge precision (count + digits.length) with hlong | hshort
  · rw [if_neg (Nat.not_le.mpr hlong), if_pos hlong, List.drop_append, List.drop_replicate,
      ofDigitChars_zeros, List.length_replicate]
    have hdrop : count + digits.length - precision - count = digits.length - precision := by omega
    rw [hdrop]
  · have hnone : digits.length - precision = 0 := by omega
    rw [if_pos hshort, if_neg (Nat.not_lt.mpr hshort), ofDigitChars_zeros, hnone, List.drop_zero,
      Nat.zero_add]

end Plural.Operands

/-! ## Categories -/

namespace NumberValue

open Plural

variable {x y : NumberValue}

/-- The number with grouping turned on or off. -/
def withGrouping (x : NumberValue) (grouping : Bool) : NumberValue :=
  { x with options.useGrouping := grouping }

/-- The number padded to another number of whole digits. -/
def withIntegerDigits (x : NumberValue) (least : Option Nat) : NumberValue :=
  { x with options.minIntegerDigits := least }

/-- The number with the other sign. -/
def negate (x : NumberValue) : NumberValue := { x with value := x.value.negate }

/-- Two numbers differ at most in sign, in grouping, and in how many whole digits they are padded
to. -/
structure DisplayVariant (x y : NumberValue) : Prop where
  magnitude : x.value.magnitude = y.value.magnitude
  style : x.options.style = y.options.style
  minFractionDigits : x.options.minFractionDigits = y.options.minFractionDigits
  maxFractionDigits : x.options.maxFractionDigits = y.options.maxFractionDigits
  kind : x.options.kind = y.options.kind

namespace DisplayVariant

/-- Numbers that differ in display only are written with the same magnitude. -/
theorem magnitude_scaled (h : DisplayVariant x y) : x.scaled.magnitude = y.scaled.magnitude := by
  rw [scaled, scaled, h.style]
  split
  · exact h.magnitude
  · exact Double.magnitude_timesHundred_congr h.magnitude

/-- Numbers that differ in display only are rounded to the same digits. -/
theorem toFixed_eq (h : DisplayVariant x y) :
    x.scaled.toFixed x.places = y.scaled.toFixed y.places := by
  have hplaces : x.places = y.places := by
    rw [places, places, h.minFractionDigits, h.maxFractionDigits,
      Double.fractionPlaces_congr h.magnitude_scaled]
  rw [hplaces, Double.toFixed_congr h.magnitude_scaled]

/-- Numbers that differ in display only have the same fraction. -/
theorem fraction_eq (h : DisplayVariant x y) : x.numeral.fraction = y.numeral.fraction := by
  rw [numeral_fraction, numeral_fraction, significant, significant, h.toFixed_eq,
    h.minFractionDigits]

/-- Grouping is a matter of display. -/
theorem withGrouping (x : NumberValue) (grouping : Bool) :
    DisplayVariant (x.withGrouping grouping) x :=
  ⟨rfl, rfl, rfl, rfl, rfl⟩

/-- Padding of the whole part is a matter of display. -/
theorem withIntegerDigits (x : NumberValue) (least : Option Nat) :
    DisplayVariant (x.withIntegerDigits least) x :=
  ⟨rfl, rfl, rfl, rfl, rfl⟩

/-- The sign is a matter of display. -/
theorem negate (x : NumberValue) : DisplayVariant x.negate x :=
  ⟨x.value.magnitude_negate, rfl, rfl, rfl, rfl⟩

/-- Only the digits of the whole part and of the fraction tell the category. -/
theorem category_eq_of_readable (h : DisplayVariant x y)
    (hreadable : Operands.readable x.numeral = Operands.readable y.numeral)
    (hwhole : Operands.wholeValue x.numeral.whole = Operands.wholeValue y.numeral.whole)
    (locale : String) : x.category locale = y.category locale := by
  have hoperands : Operands.ofNumeral x.numeral = Operands.ofNumeral y.numeral := by
    rw [Operands.ofNumeral, Operands.ofNumeral, hwhole, h.fraction_eq]
  rw [category_eq, category_eq, hreadable, hoperands, h.kind]

/-- Numbers that differ in display only, and not in their whole digits, have one category. -/
theorem category_eq_of_whole_eq (h : DisplayVariant x y)
    (hwhole : x.numeral.whole = y.numeral.whole) (locale : String) :
    x.category locale = y.category locale := by
  refine h.category_eq_of_readable ?_ (congrArg _ hwhole) locale
  rw [Operands.readable, Operands.readable, hwhole, h.fraction_eq]

end DisplayVariant

/-- The whole part can be read unless the options ask for too many digits. -/
theorem length_whole_le (h : x.options.minIntegerDigits.getD 1 ≤ Operands.maxDigits) :
    x.numeral.whole.length ≤ Operands.maxDigits := by
  rw [length_whole]
  exact Nat.max_le.mpr ⟨h, (x.scaled.length_toFixed_le x.places).trans (by decide)⟩

/-- Padding does not change whether the whole part is made of digits. -/
theorem all_isDigit_whole : x.numeral.whole.all Char.isDigit =
    (x.scaled.toFixed x.places).1.all Char.isDigit := by
  rw [numeral_whole, List.all_append, List.all_eq_true.mpr isDigit_zeros, Bool.true_and]

/-- The operand of a whole part is told from the digits of the number and from whether the padded
part is longer than the digits that count. -/
theorem wholeValue_whole : Operands.wholeValue x.numeral.whole =
    (if Operands.precision < x.numeral.whole.length then Nat.pow 10 Operands.precision else 0) +
      Nat.ofDigitChars 10 ((x.scaled.toFixed x.places).1.drop
        ((x.scaled.toFixed x.places).1.length - Operands.precision)) 0 := by
  rw [numeral_whole, Operands.wholeValue_zeros, List.length_append, List.length_replicate]

/-- Padding keeps the category unless it takes the whole part past the digits that count. -/
theorem DisplayVariant.category_eq (h : DisplayVariant x y)
    (hx : x.options.minIntegerDigits.getD 1 ≤ Operands.maxDigits)
    (hy : y.options.minIntegerDigits.getD 1 ≤ Operands.maxDigits)
    (hlong : Operands.precision < x.numeral.whole.length ↔
      Operands.precision < y.numeral.whole.length) (locale : String) :
    x.category locale = y.category locale := by
  refine h.category_eq_of_readable ?_ ?_ locale
  · simp only [Operands.readable, all_isDigit_whole, h.toFixed_eq, h.fraction_eq,
      length_whole_le hx, length_whole_le hy]
  · simp only [wholeValue_whole, h.toFixed_eq, hlong]

/-- Of a locale only the language matters. -/
theorem category_congr {other locale : String}
    (h : Language.ofLocale other = Language.ofLocale locale) :
    x.category other = x.category locale := by
  rw [category_eq, category_eq, h]

/-- A language that is not supported has the rules of English. -/
theorem ofLocale_eq_english {locale : String} (h : ∀ language ∈ Language.all,
    language.code.toList ≠ (Locale.language locale).map Char.toLower) :
    Language.ofLocale locale = .english := by
  have hnone : (Language.all.find? fun language =>
      language.code.toList = (Locale.language locale).map Char.toLower) = none :=
    List.find?_eq_none.mpr fun language hlanguage => by simpa using h language hlanguage
  rw [Language.ofLocale, hnone, Option.getD_none]

/-- The category of a number does not change with grouping or its sign. Nor does it with padding, if
the whole part has no more digits than count with it and without it, or more with it and without it.
Of the locale only the language matters, in either case, and a language that is not supported has
the categories of English. -/
theorem category_display (x : NumberValue) (locale : String) :
    (∀ grouping, (x.withGrouping grouping).category locale = x.category locale) ∧
      (∀ least, x.options.minIntegerDigits.getD 1 ≤ Operands.maxDigits →
        least.getD 1 ≤ Operands.maxDigits →
        (Operands.precision < (x.withIntegerDigits least).numeral.whole.length ↔
          Operands.precision < x.numeral.whole.length) →
        (x.withIntegerDigits least).category locale = x.category locale) ∧
      x.negate.category locale = x.category locale ∧
      (∀ other, (Locale.language other).map Char.toLower =
          (Locale.language locale).map Char.toLower →
        x.category other = x.category locale) ∧
      ((∀ language ∈ Language.all,
          language.code.toList ≠ (Locale.language locale).map Char.toLower) →
        x.category locale = x.category "en") := by
  refine ⟨fun grouping => ?_, fun least hx hleast hlong => ?_, ?_, fun other hother => ?_,
    fun hother => ?_⟩
  · exact (DisplayVariant.withGrouping x grouping).category_eq_of_whole_eq rfl locale
  · exact (DisplayVariant.withIntegerDigits x least).category_eq hleast hx hlong locale
  · have hvariant := DisplayVariant.negate x
    refine hvariant.category_eq_of_whole_eq ?_ locale
    rw [numeral_whole, numeral_whole, hvariant.toFixed_eq]
    rfl
  · refine category_congr ?_
    rw [Language.ofLocale, Language.ofLocale, hother]
  · refine category_congr ?_
    rw [ofLocale_eq_english hother]
    rfl

/-- Twenty-two is padded to as many digits as count. Its category is asked for in Polish and in a
language that is not supported. -/
theorem category_display_padded :
    let x : NumberValue := { value := ⟨0x4036000000000000⟩ }
    (x.withIntegerDigits (some 18)).category "pl" = x.category "pl" ∧
      x.category "PL-PL" = x.category "pl" ∧ x.category "pl" = .few ∧
      x.category "xx" = x.category "en" := by
  intro x
  have hlong : Operands.precision < (x.withIntegerDigits (some 18)).numeral.whole.length ↔
      Operands.precision < x.numeral.whole.length := by
    decide +kernel
  obtain ⟨-, hpadding, -, hlocale, -⟩ := category_display x "pl"
  obtain ⟨-, -, -, -, hunsupported⟩ := category_display x "xx"
  exact ⟨hpadding (some 18) (by decide) (by decide) hlong, hlocale "PL-PL" (by decide),
    by decide +kernel, hunsupported (by decide)⟩

/-- One is no longer one in Polish when zeros are written before it to a hundred digits. -/
theorem category_padded_past_precision :
    let x : NumberValue := { value := ⟨0x3FF0000000000000⟩ }
    x.value.isFinite ∧ ¬ ∀ least : Option Nat, least.getD 1 ≤ 100 →
      (x.withIntegerDigits least).category "pl" = x.category "pl" := by
  refine ⟨by decide +kernel, fun hpadding => ?_⟩
  exact absurd (hpadding (some 100) (by decide)) (by decide +kernel)

end NumberValue

end Phrasebook
