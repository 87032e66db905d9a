import Phrasebook.Number.Localized
import Phrasebook.Proofs.Number.PlainText

/-!
# Localized numerals

The text of a number in a locale is its plain text with decoration. What is left without the percent
sign and the separators of groups, and with a point for the decimal separator, is the plain text;
for none of the separators is a character that the plain text has. Groups are of three digits,
counted from the right.
-/

namespace Phrasebook

variable {digits text : List Char} {separator c : Char}

/-- Digits in groups of three with a separator between them. The first group may be shorter, but it
is not empty. -/
def Grouped (separator : Char) (digits text : List Char) : Prop :=
  ∃ (first : List Char) (others : List (List Char)), digits = first ++ others.flatten ∧
    text = first ++ others.flatMap (separator :: ·) ∧
      first ≠ [] ∧ first.length ≤ 3 ∧ ∀ group ∈ others, group.length = 3

/-- A text without the percent sign at its end. -/
def withoutPercent (text : List Char) : List Char :=
  if text.getLast? = some '%' then text.dropLast else text

/-- A text without a percent sign stays as it is. -/
theorem withoutPercent_eq_self (h : '%' ∉ text) : withoutPercent text = text :=
  if_neg fun hlast => h (List.mem_of_getLast? hlast)

/-- The percent sign at the end is taken away. -/
theorem withoutPercent_concat (text : List Char) : withoutPercent (text ++ ['%']) = text := by
  simp [withoutPercent]

/-- A character that a numeral has in every language: a digit, a letter or a sign. -/
def isNumeralChar (c : Char) : Bool := c.isAlphanum || c == '-' || c == '%'

/-- Letters and digits may stand in a numeral. -/
theorem isNumeralChar_of_isAlphanum (h : c.isAlphanum) : isNumeralChar c := by
  simp [isNumeralChar, h]

/-- Letters and digits are no signs. -/
theorem ne_sign_of_isAlphanum (h : c.isAlphanum) : c ≠ '-' ∧ c ≠ '%' := by
  constructor
  · rintro rfl
    cases h
  · rintro rfl
    cases h

/-- What no numeral has is no sign. -/
theorem ne_sign_of_not_isNumeralChar (h : isNumeralChar c = false) : c ≠ '-' ∧ c ≠ '%' := by
  constructor
  · rintro rfl
    cases h
  · rintro rfl
    cases h

/-- A digit is a letter or digit. -/
theorem isAlphanum_of_isDigit (h : c.isDigit) : c.isAlphanum := by
  simp [Char.isAlphanum, h]

/-! ## Groups -/

private theorem groupDigits_count (separator : Char) (digits : List Char) :
    (digits.foldr (fun c (count, out) =>
      (count + 1, if count != 0 && count % 3 == 0 then c :: separator :: out else c :: out))
      (0, [])).1 = digits.length := by
  induction digits with
  | nil => rfl
  | cons c digits ih => rw [List.foldr_cons, List.length_cons, ← ih]

/-- A digit stands before a separator if the digits behind it are whole groups. -/
theorem groupDigits_cons (separator c : Char) (digits : List Char) :
    groupDigits separator (c :: digits) =
      if digits ≠ [] ∧ digits.length % 3 = 0 then c :: separator :: groupDigits separator digits
      else c :: groupDigits separator digits := by
  rw [groupDigits, List.foldr_cons]
  simp only [groupDigits_count, groupDigits]
  refine if_congr ?_ rfl rfl
  simp

/-- Digits are grouped by threes from the right. -/
theorem grouped_groupDigits (h : digits ≠ []) :
    Grouped separator digits (groupDigits separator digits) := by
  induction digits with
  | nil => exact absurd rfl h
  | cons c digits ih =>
    rw [groupDigits_cons]
    rcases eq_or_ne digits [] with rfl | hne
    · exact ⟨[c], [], by simp, by simp [groupDigits], by simp, by simp, by simp⟩
    obtain ⟨first, others, hdigits, htext, hfirst, hshort, hothers⟩ := ih hne
    have hpos := List.length_pos_iff.mpr hfirst
    -- Behind the first group all groups are full, so its length tells when a separator is due.
    have hlength : digits.length % 3 = first.length % 3 := by
      have hwhole : others.flatten.length = 3 * others.length := by
        rw [List.length_flatten, List.map_congr_left hothers]
        simp [Nat.mul_comm]
      rw [hdigits, List.length_append, hwhole]
      omega
    split_ifs with hfull
    · -- The first group is full, so the digit begins another one.
      have hfirst : first.length = 3 := by omega
      exact ⟨[c], first :: others, by simp [hdigits], by simp [htext], by simp, by simp,
        List.forall_mem_cons.mpr ⟨hfirst, hothers⟩⟩
    · have hroom : first.length ≠ 3 := fun h3 => hfull ⟨hne, by omega⟩
      refine ⟨c :: first, others, by simp [hdigits], by simp [htext], by simp, ?_, hothers⟩
      rw [List.length_cons]
      omega

/-- A grouped text has digits and separators only. -/
theorem Grouped.mem (h : Grouped separator digits text) (hc : c ∈ text) :
    c = separator ∨ c ∈ digits := by
  obtain ⟨first, others, rfl, rfl, -⟩ := h
  simp only [List.mem_append, List.mem_flatMap, List.mem_cons, List.mem_flatten] at hc ⊢
  rcases hc with hfirst | ⟨group, hgroup, rfl | hmem⟩
  · exact .inr (.inl hfirst)
  · exact .inl rfl
  · exact .inr (.inr ⟨group, hgroup, hmem⟩)

/-- A grouped text is not empty. -/
theorem Grouped.ne_nil (h : Grouped separator digits text) : text ≠ [] := by
  obtain ⟨first, others, -, rfl, hfirst, -⟩ := h
  exact List.append_ne_nil_of_left_ne_nil hfirst _

/-- A grouped text without its separators has the digits. -/
theorem Grouped.filter (h : Grouped separator digits text) (hdigits : separator ∉ digits) :
    text.filter (· != separator) = digits := by
  obtain ⟨first, others, rfl, rfl, -⟩ := h
  have hkept : ∀ t : List Char, separator ∉ t → t.filter (· != separator) = t := fun t ht =>
    List.filter_eq_self.mpr fun c hc => by
      rw [bne_iff_ne]
      rintro rfl
      exact ht hc
  rw [List.mem_append, not_or, List.mem_flatten] at hdigits
  rw [List.filter_append, hkept first hdigits.1, List.filter_flatMap, List.flatten_eq_flatMap]
  congr 1
  refine List.flatMap_congr fun group hgroup => ?_
  rw [List.filter_cons_of_neg (by simp), hkept group fun hmem => hdigits.2 ⟨group, hgroup, hmem⟩]
  rfl

/-! ## Separators -/

namespace Separators

variable {s : Separators}

/-- A text without separators of groups, and with a point for the decimal separator. -/
def plain (s : Separators) (text : List Char) : List Char :=
  (text.filter (· != s.group)).map fun c => if c = s.decimal then '.' else c

/-- The whole part of a text: what stands behind a sign, up to a decimal separator or a percent
sign. -/
def wholePart (s : Separators) (text : List Char) : List Char :=
  (text.dropWhile (· == '-')).takeWhile fun c => c != s.decimal && c != '%'

/-- The separators differ from each other and from what they separate. -/
structure Apart (s : Separators) : Prop where
  decimal_ne_group : s.decimal ≠ s.group
  decimal : isNumeralChar s.decimal = false
  group : isNumeralChar s.group = false

/-- The separators of every locale are told apart from each other and from what stands in
numerals. -/
theorem apart_ofLocale (locale : String) : (ofLocale locale).Apart := by
  rw [ofLocale]
  split_ifs
  all_goals constructor <;> decide

/-- What stands in a numeral is no separator. -/
theorem Apart.ne_of_isNumeralChar (h : s.Apart) (hc : isNumeralChar c) :
    c ≠ s.decimal ∧ c ≠ s.group := by
  constructor
  · rintro rfl
    simp [h.decimal] at hc
  · rintro rfl
    simp [h.group] at hc

/-- Two texts are made plain one after the other. -/
theorem plain_append (s : Separators) (t u : List Char) :
    s.plain (t ++ u) = s.plain t ++ s.plain u := by
  simp [plain]

/-- A text without separators is plain. -/
theorem Apart.plain_eq_self (h : s.Apart) (ht : ∀ c ∈ text, isNumeralChar c) :
    s.plain text = text := by
  have hgroup : text.filter (· != s.group) = text :=
    List.filter_eq_self.mpr fun c hc => bne_iff_ne.mpr (h.ne_of_isNumeralChar (ht c hc)).2
  have hdecimal : ∀ c ∈ text, (if c = s.decimal then '.' else c) = c := fun c hc =>
    if_neg (h.ne_of_isNumeralChar (ht c hc)).1
  rw [plain, hgroup, List.map_congr_left hdecimal, List.map_id']

/-- In plain text a point stands for the separator before a fraction. -/
theorem Apart.plain_decimal (h : s.Apart) (text : List Char) :
    s.plain (s.decimal :: text) = '.' :: s.plain text := by
  simp [plain, h.decimal_ne_group]

/-- In plain text digits are not grouped. -/
theorem Apart.plain_grouped (h : s.Apart) (hgrouped : Grouped s.group digits text)
    (hdigits : ∀ c ∈ digits, isNumeralChar c) : s.plain text = digits := by
  have hkept : s.group ∉ digits := fun hmem => (h.ne_of_isNumeralChar (hdigits _ hmem)).2 rfl
  have hdecimal : ∀ c ∈ digits, (if c = s.decimal then '.' else c) = c := fun c hc =>
    if_neg (h.ne_of_isNumeralChar (hdigits c hc)).1
  rw [plain, hgrouped.filter hkept, List.map_congr_left hdecimal, List.map_id']

end Separators

/-! ## Numerals -/

namespace Numeral

variable {x : Numeral} {s : Separators} {grouped : Bool}

/-- The whole part as it is written, in groups or without. -/
def writtenWhole (x : Numeral) (s : Separators) (grouped : Bool) : List Char :=
  if grouped then groupDigits s.group x.whole else x.whole

/-- A localized numeral is its sign, its whole part and its fraction. -/
theorem localize_eq : x.localize s grouped =
    (if x.negative then ['-'] else []) ++ x.writtenWhole s grouped ++
      if x.fraction.isEmpty then [] else s.decimal :: x.fraction := rfl

/-- The whole part and the fraction are digits, or the name that stands in their place. -/
structure Alphanumeric (x : Numeral) : Prop where
  whole_ne_nil : x.whole ≠ []
  isAlphanum_whole : ∀ c ∈ x.whole, c.isAlphanum
  isAlphanum_fraction : ∀ c ∈ x.fraction, c.isAlphanum

namespace Alphanumeric

/-- The characters of the whole part may stand in a numeral. -/
theorem isNumeralChar_whole (h : x.Alphanumeric) : ∀ c ∈ x.whole, isNumeralChar c := fun c hc =>
  isNumeralChar_of_isAlphanum (h.isAlphanum_whole c hc)

/-- The characters of the fraction may stand in a numeral. -/
theorem isNumeralChar_fraction (h : x.Alphanumeric) : ∀ c ∈ x.fraction, isNumeralChar c :=
  fun c hc => isNumeralChar_of_isAlphanum (h.isAlphanum_fraction c hc)

/-- A whole part is written for every numeral. -/
theorem writtenWhole_ne_nil (h : x.Alphanumeric) : x.writtenWhole s grouped ≠ [] := by
  cases grouped with
  | true => exact (grouped_groupDigits h.whole_ne_nil).ne_nil
  | false => exact h.whole_ne_nil

/-- A written whole part has its digits and, if grouped, separators. -/
theorem mem_writtenWhole (h : x.Alphanumeric) (hc : c ∈ x.writtenWhole s grouped) :
    grouped = true ∧ c = s.group ∨ c.isAlphanum := by
  cases grouped with
  | true =>
    exact ((grouped_groupDigits h.whole_ne_nil).mem hc).imp (⟨rfl, ·⟩) (h.isAlphanum_whole c)
  | false => exact .inr (h.isAlphanum_whole c hc)

/-- Nothing else stands in a numeral: a sign, separators, and digits or a name. -/
theorem mem_localize (h : x.Alphanumeric) (hc : c ∈ x.localize s grouped) :
    c = '-' ∨ grouped = true ∧ c = s.group ∨ c = s.decimal ∨ c.isAlphanum := by
  rw [localize_eq, List.mem_append, List.mem_append] at hc
  rcases hc with (hsign | hwhole) | hfraction
  · split_ifs at hsign
    · exact .inl (List.mem_singleton.mp hsign)
    · cases hsign
  · exact .inr ((h.mem_writtenWhole hwhole).imp_right .inr)
  · split_ifs at hfraction
    · cases hfraction
    · exact .inr (.inr ((List.mem_cons.mp hfraction).imp_right (h.isAlphanum_fraction c)))

/-- No percent sign is written within a numeral. -/
theorem percent_not_mem_localize (h : x.Alphanumeric) (hs : s.Apart) :
    '%' ∉ x.localize s grouped := by
  intro hc
  rcases h.mem_localize hc with hsign | ⟨-, hgroup⟩ | hdecimal | halnum
  · cases hsign
  · exact (ne_sign_of_not_isNumeralChar hs.group).2 hgroup.symm
  · exact (ne_sign_of_not_isNumeralChar hs.decimal).2 hdecimal.symm
  · cases halnum

/-- No group separator is written unless digits are grouped. -/
theorem group_not_mem_localize (h : x.Alphanumeric) (hs : s.Apart) :
    s.group ∉ x.localize s false := by
  intro hc
  rcases h.mem_localize hc with hsign | ⟨hgrouped, -⟩ | hdecimal | halnum
  · exact (ne_sign_of_not_isNumeralChar hs.group).1 hsign
  · cases hgrouped
  · exact hs.decimal_ne_group hdecimal.symm
  · exact (hs.ne_of_isNumeralChar (isNumeralChar_of_isAlphanum halnum)).2 rfl

/-- A localized numeral made plain is the plain numeral. -/
theorem plain_localize (h : x.Alphanumeric) (hs : s.Apart) (grouped : Bool) :
    s.plain (x.localize s grouped) = x.toList := by
  have hsign : s.plain (if x.negative then ['-'] else []) = if x.negative then ['-'] else [] := by
    refine hs.plain_eq_self fun c hc => ?_
    split_ifs at hc
    · rw [List.mem_singleton.mp hc]
      rfl
    · cases hc
  have hwhole : s.plain (x.writtenWhole s grouped) = x.whole := by
    cases grouped with
    | true => exact hs.plain_grouped (grouped_groupDigits h.whole_ne_nil) h.isNumeralChar_whole
    | false => exact hs.plain_eq_self h.isNumeralChar_whole
  have hfraction : s.plain (if x.fraction.isEmpty then [] else s.decimal :: x.fraction) =
      if x.fraction.isEmpty then [] else '.' :: x.fraction := by
    split_ifs
    · rfl
    · rw [hs.plain_decimal, hs.plain_eq_self h.isNumeralChar_fraction]
  rw [localize_eq, toList, Separators.plain_append, Separators.plain_append, hsign, hwhole,
    hfraction]

/-- The whole part is found between the sign and what follows it, which may be a percent sign. -/
theorem wholePart_localize (h : x.Alphanumeric) (hs : s.Apart) {tail : List Char}
    (htail : ∀ c ∈ tail.head?, c = '%') :
    s.wholePart (x.localize s grouped ++ tail) = x.writtenWhole s grouped := by
  have hwritten : ∀ c ∈ x.writtenWhole s grouped, c ≠ '-' ∧ c ≠ s.decimal ∧ c ≠ '%' := by
    intro c hc
    rcases h.mem_writtenWhole hc with ⟨-, rfl⟩ | halnum
    · obtain ⟨hsign, hpercent⟩ := ne_sign_of_not_isNumeralChar hs.group
      exact ⟨hsign, hs.decimal_ne_group.symm, hpercent⟩
    · obtain ⟨hsign, hpercent⟩ := ne_sign_of_isAlphanum halnum
      exact ⟨hsign, (hs.ne_of_isNumeralChar (isNumeralChar_of_isAlphanum halnum)).1, hpercent⟩
  rw [Separators.wholePart, localize_eq, List.append_assoc, List.append_assoc,
    Text.dropWhile_append_stop, Text.takeWhile_append_stop]
  · intro c hc
    simpa using (hwritten c hc).2
  · intro c hc
    split_ifs at hc
    · simp [htail c hc]
    · obtain rfl : s.decimal = c := by simpa using hc
      simp
  · intro c hc
    split_ifs at hc
    · rw [List.mem_singleton.mp hc]
      rfl
    · cases hc
  · intro c hc
    rw [List.head?_append_of_ne_nil _ h.writtenWhole_ne_nil] at hc
    simpa using (hwritten c (List.mem_of_head? hc)).1

end Alphanumeric

end Numeral

namespace Double

/-- Numbers are rounded to letters and digits. -/
theorem isAlphanum_toFixed (x : Double) (places : Nat) :
    (∀ c ∈ (x.toFixed places).1, c.isAlphanum) ∧ ∀ c ∈ (x.toFixed places).2, c.isAlphanum := by
  obtain hfinite | hinfinite | hnan := x.trichotomy
  · have hdigits := fixed_toFixed hfinite places
    exact ⟨fun c hc => isAlphanum_of_isDigit (hdigits.isDigit_whole c hc),
      fun c hc => isAlphanum_of_isDigit (hdigits.isDigit_fraction c hc)⟩
  · rw [toFixed_infinite hinfinite]
    exact ⟨List.all_eq_true.mp (by decide), List.all_eq_true.mp (by decide)⟩
  · rw [toFixed_nan hnan]
    exact ⟨List.all_eq_true.mp (by decide), List.all_eq_true.mp (by decide)⟩

end Double

namespace NumberValue

variable {x : NumberValue}

/-- The parts of every numeral are made of letters and digits. -/
theorem alphanumeric_numeral (x : NumberValue) : x.numeral.Alphanumeric := by
  obtain ⟨hwhole, hfraction⟩ := x.scaled.isAlphanum_toFixed x.places
  have hzeros (n : Nat) : ∀ c ∈ List.replicate n '0', c.isAlphanum := fun c hc =>
    isAlphanum_of_isDigit (isDigit_zeros c hc)
  refine ⟨whole_ne_nil, ?_, ?_⟩
  · rw [numeral_whole, List.forall_mem_append]
    exact ⟨hzeros _, hwhole⟩
  · rw [numeral_fraction, List.forall_mem_append]
    exact ⟨fun c hc => hfraction c ((List.rdropWhile_prefix _ _).subset hc), hzeros _⟩

/-- The percent sign of a percentage. -/
def percentSign (x : NumberValue) : List Char :=
  match x.options.style with
  | .decimal => []
  | .percent => ['%']

/-- A finite number is formatted as its localized numeral and, for percentages, a percent sign. -/
theorem toList_format (h : x.value.isFinite) (locale : String) : (x.format locale).toList =
    x.numeral.localize (.ofLocale locale) x.options.useGrouping ++ x.percentSign := by
  rw [format, if_neg (Double.not_isNaN h), if_neg (Double.not_isInfinite h), String.toList_ofList,
    percentSign]
  cases x.options.style with
  | decimal => exact (List.append_nil _).symm
  | percent => rfl

/-- The percent sign of a percentage can be taken away again. -/
theorem withoutPercent_append_percentSign (h : '%' ∉ text) :
    withoutPercent (text ++ x.percentSign) = text := by
  rw [percentSign]
  cases x.options.style with
  | decimal => rw [List.append_nil, withoutPercent_eq_self h]
  | percent => exact withoutPercent_concat text

/-- A text ends in a percent sign exactly for percentages. -/
theorem getLast?_append_percentSign (h : '%' ∉ text) :
    (text ++ x.percentSign).getLast? = some '%' ↔ x.options.style = .percent := by
  rw [percentSign]
  cases x.options.style with
  | decimal =>
    rw [List.append_nil]
    exact iff_of_false (fun hlast => h (List.mem_of_getLast? hlast)) (by decide)
  | percent => simp

/-- What percentages end in is a percent sign. -/
theorem eq_percent_of_mem_percentSign (h : c ∈ x.percentSign) : c = '%' := by
  rw [percentSign] at h
  split at h
  · cases h
  · exact List.mem_singleton.mp h

/-- The text of a finite number in a locale is its plain text but for a percent sign, which only
percentages have, and for separators. Those of groups stand only where groups are asked for, and
then there are three digits in each group but the first. -/
theorem format_decorates (h : x.value.isFinite) (locale : String) :
    let separators := Separators.ofLocale locale
    let text := (x.format locale).toList
    (text.getLast? = some '%' ↔ x.options.style = .percent) ∧
      separators.plain (withoutPercent text) = x.plainText.toList ∧
      (x.options.useGrouping = false → separators.group ∉ text) ∧
      (x.options.useGrouping = true →
        Grouped separators.group x.numeral.whole (separators.wholePart text)) := by
  intro separators text
  have hs : separators.Apart := Separators.apart_ofLocale locale
  have hx := x.alphanumeric_numeral
  have hpercent : '%' ∉ x.numeral.localize separators x.options.useGrouping :=
    hx.percent_not_mem_localize hs
  have htext : text = x.numeral.localize separators x.options.useGrouping ++ x.percentSign :=
    toList_format h locale
  rw [htext]
  refine ⟨getLast?_append_percentSign hpercent, ?_, fun hgrouping => ?_, fun hgrouping => ?_⟩
  · rw [withoutPercent_append_percentSign hpercent, hx.plain_localize hs, toList_plainText]
  · rw [hgrouping, List.mem_append, not_or]
    refine ⟨hx.group_not_mem_localize hs, fun hmem => ?_⟩
    exact (ne_sign_of_not_isNumeralChar hs.group).2 (eq_percent_of_mem_percentSign hmem)
  · rw [hx.wholePart_localize hs fun c hc => eq_percent_of_mem_percentSign (List.mem_of_head? hc),
      hgrouping]
    exact grouped_groupDigits hx.whole_ne_nil

/-- A negative percentage in a language whose group separator is a point. -/
theorem format_decorates_percentage :
    let x : NumberValue := {
      value := ⟨0xC0C81C8800000000⟩
      options := { style := .percent, useGrouping := true } }
    x.value.isFinite ∧ x.format "de-AT" = "-1.234.506,25%" ∧ x.plainText = "-1234506.25" ∧
      Separators.plain ⟨',', '.'⟩ "-1.234.506,25".toList = x.plainText.toList ∧
      Grouped '.' "1234506".toList "1.234.506".toList := by
  intro x
  have hfinite : x.value.isFinite := by decide +kernel
  have hnumeral : x.numeral = ⟨true, "1234506".toList, "25".toList⟩ := by decide +kernel
  have hformat : x.format "de-AT" = "-1.234.506,25%" := by decide +kernel
  have hplain : x.plainText = "-1234506.25" := by rw [plainText, hnumeral]; rfl
  obtain ⟨-, hundecorated, -, hgrouped⟩ := format_decorates hfinite "de-AT"
  rw [hformat] at hundecorated hgrouped
  rw [hnumeral] at hgrouped
  exact ⟨hfinite, hformat, hplain, hundecorated, hgrouped rfl⟩

end NumberValue

end Phrasebook
