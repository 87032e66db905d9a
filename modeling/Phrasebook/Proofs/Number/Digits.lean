import Mathlib.Algebra.Group.Nat.Defs
import Phrasebook.Number.Numeral
import Phrasebook.Proofs.Text

/-!
# Digits of a number

A finite double that is rounded to some places has at least one whole digit and that many fraction
digits. It is below two to the power of 1024, which bounds its whole digits, and the fewest places
with which it reads back are at most those of its exact value.
-/

namespace Phrasebook

variable {tail : List Char} {width n : Nat}

/-- The digits of a given width add that many characters to what follows them. -/
theorem length_digitsBefore : (digitsBefore tail width n).length = width + tail.length := by
  induction width generalizing tail n with
  | zero => simp [digitsBefore]
  | succ width ih =>
    rw [digitsBefore, ih, List.length_cons]
    omega

/-- Padding is made of digits. -/
theorem isDigit_zeros : ∀ c ∈ List.replicate n '0', c.isDigit := by
  intro c hc
  rw [List.eq_of_mem_replicate hc]
  rfl

/-- Digits before digits are digits. -/
theorem isDigit_digitsBefore (h : ∀ c ∈ tail, c.isDigit) :
    ∀ c ∈ digitsBefore tail width n, c.isDigit := by
  induction width generalizing tail n with
  | zero => exact h
  | succ width ih =>
    have hdigit : (Nat.digitChar (n % 10)).isDigit := by
      rw [Nat.isDigit_digitChar]
      simpa using Nat.mod_lt n (by decide)
    exact ih (List.forall_mem_cons.mpr ⟨hdigit, h⟩)

/-- A bounded search ends within its bound. -/
theorem firstFrom_le (p : Nat → Bool) (count n : Nat) : firstFrom p count n ≤ n + count := by
  induction count generalizing n with
  | zero => exact Nat.le_refl n
  | succ count ih =>
    have hrest := ih (n + 1)
    rw [firstFrom]
    split <;> omega

/-- Rounding gives the whole quotient or the next number. -/
theorem roundHalfEven_le (n d : Nat) : roundHalfEven n d ≤ n / d + 1 := by
  rw [roundHalfEven]
  split <;> omega

namespace BinaryFormat

variable {bits width : Nat}

/-- The finite doubles are below two to the power of 1024. -/
theorem quotient_binary64_lt (h : bits < binary64.infinity) (hwidth : 1024 ≤ width) :
    (binary64.quotient bits).1 < 2 ^ width := by
  have hleading : binary64.leadingBit = 2 ^ 52 := rfl
  have hinfinity : binary64.infinity = 2047 * 2 ^ 52 := rfl
  have hminimum : binary64.minExponent = -1074 := rfl
  have hsignificand : binary64.significand bits < 2 ^ 53 := by
    rw [significand, hleading]
    split <;> omega
  have hexponent : (binary64.exponent bits).toNat ≤ 971 := by
    rw [exponent, hleading, hminimum]
    omega
  calc (binary64.quotient bits).1
      = binary64.significand bits * 2 ^ (binary64.exponent bits).toNat := rfl
    _ < 2 ^ 53 * 2 ^ (binary64.exponent bits).toNat :=
        Nat.mul_lt_mul_of_pos_right hsignificand (Nat.pow_pos (by decide))
    _ = 2 ^ (53 + (binary64.exponent bits).toNat) := (Nat.pow_add ..).symm
    _ ≤ 2 ^ width := Nat.pow_le_pow_right (by decide) (by omega)

end BinaryFormat

namespace Double

variable {x : Double} {places : Nat}

/-- The places with which a number reads back are no more than those of its exact value. -/
theorem fractionPlaces_le : x.fractionPlaces ≤ maxPlaces := by
  rw [fractionPlaces]
  split
  · simpa using firstFrom_le x.readsBackAt maxPlaces 0
  · exact Nat.zero_le _

/-- A double is finite, an infinity or NaN. -/
theorem trichotomy (x : Double) : x.isFinite ∨ x.isInfinite ∨ x.isNaN := by
  simp only [isFinite, isInfinite, isNaN, decide_eq_true_eq]
  omega

/-- A finite number is a number. -/
theorem not_isNaN (h : x.isFinite) : ¬x.isNaN := by
  simp only [isFinite, isNaN, decide_eq_true_eq] at h ⊢
  omega

/-- A finite number is not an infinity. -/
theorem not_isInfinite (h : x.isFinite) : ¬x.isInfinite := by
  simp only [isFinite, isInfinite, decide_eq_true_eq] at h ⊢
  omega

/-- An infinity is written by its name. -/
theorem toFixed_infinite (h : x.isInfinite) : x.toFixed places = (['i', 'n', 'f'], []) := by
  have hnan : ¬x.isNaN := by
    simp only [isInfinite, isNaN, decide_eq_true_eq] at h ⊢
    omega
  rw [toFixed, if_neg hnan, if_pos h]

/-- NaN is written by its name. -/
theorem toFixed_nan (h : x.isNaN) : x.toFixed places = (['N', 'a', 'N'], []) := by
  rw [toFixed, if_pos h]

/-- What a number rounded to some places is made of. -/
structure Fixed (digits : List Char × List Char) (places : Nat) : Prop where
  whole_ne_nil : digits.1 ≠ []
  length_whole_le : digits.1.length ≤ 1024
  isDigit_whole : ∀ c ∈ digits.1, c.isDigit
  length_fraction : digits.2.length = places
  isDigit_fraction : ∀ c ∈ digits.2, c.isDigit

/-- A finite number is written in digits, with as many places as were asked for. -/
theorem fixed_toFixed (h : x.isFinite) (places : Nat) : Fixed (x.toFixed places) places := by
  have hbits : x.magnitude < BinaryFormat.binary64.infinity := by simpa [isFinite] using h
  set rounded := min places maxPlaces with hrounded
  set grid := Nat.pow 10 rounded
  set units := roundHalfEven (x.quotient.1 * grid) x.quotient.2
  have hfixed : x.toFixed places = (Nat.toDigits 10 (units / grid),
      digitsBefore (List.replicate (places - rounded) '0') rounded units) := by
    rw [toFixed, if_neg (not_isNaN h), if_neg (not_isInfinite h)]
  have hunits {width : Nat} (hwidth : 1024 ≤ width) : units ≤ grid * 2 ^ width :=
    calc units
        ≤ x.quotient.1 * grid / x.quotient.2 + 1 := roundHalfEven_le ..
      _ ≤ x.quotient.1 * grid + grid :=
          Nat.add_le_add (Nat.div_le_self ..) (Nat.pow_pos (by decide))
      _ = grid * (x.quotient.1 + 1) := by rw [Nat.mul_add, Nat.mul_one, Nat.mul_comm]
      _ ≤ grid * 2 ^ width :=
          Nat.mul_le_mul_left _ (BinaryFormat.quotient_binary64_lt hbits hwidth)
  have hlength {width : Nat} (hwidth : 1024 ≤ width) :
      (Nat.toDigits 10 (units / grid)).length ≤ width := by
    have hpow : 2 ^ width < 10 ^ width := Nat.pow_lt_pow_left (by decide) (by omega)
    rw [Nat.length_toDigits_le_iff (by decide) (by omega)]
    exact (Nat.div_le_of_le_mul (hunits hwidth)).trans_lt hpow
  rw [hfixed]
  refine ⟨Nat.toDigits_ne_nil, hlength (Nat.le_refl 1024),
    fun c => Nat.isDigit_of_mem_toDigits (by decide) (by decide), ?_,
    isDigit_digitsBefore isDigit_zeros⟩
  rw [length_digitsBefore, List.length_replicate]
  omega

/-- The whole digits, or the name in their place, have no sign. -/
theorem toFixed_unsigned (x : Double) (places : Nat) :
    (x.toFixed places).1 ≠ [] ∧ '-' ∉ (x.toFixed places).1 := by
  obtain hfinite | hinfinite | hnan := x.trichotomy
  · have hdigits := fixed_toFixed hfinite places
    exact ⟨hdigits.whole_ne_nil, fun hc => absurd (hdigits.isDigit_whole _ hc) (by decide)⟩
  · rw [toFixed_infinite hinfinite]
    decide
  · rw [toFixed_nan hnan]
    decide

end Double

end Phrasebook
