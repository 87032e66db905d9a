import Mathlib.Data.List.DropRight
import Mathlib.Data.List.TakeWhile
import Mathlib.Order.Basic
import Phrasebook.Text.Basic

/-!
# Cuts of a text

What the cuts of a text leave and what they take away: line ends, blank lines, and blanks at the
end.
-/

namespace Phrasebook.Text

variable {text rest : List Char}

/-- A line feed breaks a line. -/
@[simp] theorem isBreak_newline : isBreak '\n' = true := rfl

/-- A carriage return breaks a line. -/
@[simp] theorem isBreak_return : isBreak '\r' = true := rfl

/-- Line feeds and carriage returns are the only breaks. -/
theorem isBreak_iff {c : Char} : isBreak c = true ↔ c = '\n' ∨ c = '\r' := by
  simp [isBreak]

/-- A space is blank. -/
@[simp] theorem isBlank_space : isBlank ' ' = true := rfl

/-- Every break is a blank. -/
theorem isBlank_of_isBreak {c : Char} (h : isBreak c) : isBlank c := by
  simp [isBlank, h]

/-- Besides the breaks only the space is a blank. -/
theorem isBlank_iff {c : Char} : isBlank c = true ↔ c = ' ' ∨ isBreak c := by
  simp [isBlank]

/-- A letter is no blank. -/
theorem isBlank_eq_false_of_isAlpha {c : Char} (h : c.isAlpha) : isBlank c = false := by
  by_contra hb
  rcases isBlank_iff.mp (Bool.not_eq_false _ ▸ hb) with rfl | hbreak
  · contradiction
  · rcases isBreak_iff.mp hbreak with rfl | rfl <;> contradiction

/-- The characters with which an entry may start are no blanks. -/
theorem isBlank_eq_false_of_start {c : Char} (h : c.isAlpha ∨ c = '-' ∨ c = '#') :
    isBlank c = false := by
  rcases h with halpha | rfl | rfl
  · exact isBlank_eq_false_of_isAlpha halpha
  · rfl
  · rfl

/-- A letter is no digit. -/
theorem isDigit_eq_false_of_isAlpha {c : Char} (h : c.isAlpha) : c.isDigit = false := by
  rw [← Bool.not_eq_true, Char.isDigit_iff_toNat]
  intro hdigit
  have hmost : c.toNat ≤ 57 := hdigit.2
  have hleast : 65 ≤ c.toNat := by
    rcases (Bool.or_eq_true _ _).mp h with hupper | hlower
    · exact (of_decide_eq_true hupper).1
    · have hlower' : 97 ≤ c.toNat := of_decide_eq_true ((Bool.and_eq_true _ _).mp hlower).1
      omega
  omega

/-- A text of nothing but spaces and line breaks. -/
def Blank (text : List Char) : Prop := ∀ c ∈ text, isBlank c

/-- The empty text is blank. -/
theorem blank_nil : Blank [] := by rintro _ ⟨⟩

/-- Blank texts stay blank when they are put together. -/
theorem Blank.append {s t : List Char} (hs : Blank s) (ht : Blank t) : Blank (s ++ t) := by
  intro c hc
  rcases List.mem_append.mp hc with hc | hc
  · exact hs c hc
  · exact ht c hc

/-- The length of a text is that of its UTF-8 form. -/
theorem byteLength_eq_utf8ByteSize (text : List Char) :
    byteLength text = (String.ofList text).utf8ByteSize := by
  induction text with
  | nil => rfl
  | cons c text ih =>
    rw [byteLength, ih, ← List.singleton_append, String.ofList_append,
      String.utf8ByteSize_append, ← String.singleton_eq_ofList, String.utf8ByteSize_singleton]

/-- What stands before the rest of a text is told by a split of the text. -/
theorem before_eq {s : List Char} (h : text = s ++ rest) : before text rest = s := by
  rw [h, before_append]

/-- An ending and what stands before it make up the text. -/
theorem before_append_self (h : rest <:+ text) : before text rest ++ rest = text := by
  obtain ⟨s, rfl⟩ := h
  rw [before_append]

/-- What is dropped from the end satisfies `p`, and what is left ends with something else. -/
theorem dropEndWhile_spec {α : Type} (p : α → Bool) (text : List α) :
    ∃ ending, text = dropEndWhile p text ++ ending ∧ (∀ c ∈ ending, p c) ∧
      ∀ c ∈ (dropEndWhile p text).getLast?, p c = false := by
  refine ⟨text.rtakeWhile p, List.rdropWhile_append_rtakeWhile.symm,
    fun c hc => List.mem_rtakeWhile_imp hc, fun c hc => ?_⟩
  have hne : text.rdropWhile p ≠ [] := by
    rintro hnil
    change c ∈ (text.rdropWhile p).getLast? at hc
    simp [hnil] at hc
  have hlast := List.rdropWhile_last_not p text hne
  change c ∈ (text.rdropWhile p).getLast? at hc
  rw [List.getLast?_eq_some_getLast hne, Option.mem_some_iff] at hc
  simpa [hc] using hlast

/-- A run that is followed by nothing that goes on with it is taken whole. -/
theorem takeWhile_append_stop {α : Type} {p : α → Bool} {run tail : List α} (h : ∀ c ∈ run, p c)
    (htail : ∀ c ∈ tail.head?, p c = false) : (run ++ tail).takeWhile p = run := by
  have hstop : tail.takeWhile p = [] := by
    rcases tail with _ | ⟨c, tail⟩
    · rfl
    · simp [htail c rfl]
  rw [List.takeWhile_append_of_pos h, hstop, List.append_nil]

/-- What is left behind such a run is what followed it. -/
theorem dropWhile_append_stop {α : Type} {p : α → Bool} {run tail : List α} (h : ∀ c ∈ run, p c)
    (htail : ∀ c ∈ tail.head?, p c = false) : (run ++ tail).dropWhile p = tail := by
  rw [List.dropWhile_append_of_pos h]
  rcases tail with _ | ⟨c, tail⟩
  · rfl
  · simp [htail c rfl]

/-- What is left behind a run begins with what the run stops at. -/
theorem stop_of_dropWhile {p : Char → Bool} {c : Char} (h : text.dropWhile p = c :: rest) :
    p c = false := by
  have hstop := List.head?_dropWhile_not p text
  rw [h] at hstop
  simpa using hstop

/-- What is left after the spaces does not begin with a space. -/
theorem ne_space_of_dropWhile {c : Char} (h : text.dropWhile (· == ' ') = c :: rest) : c ≠ ' ' := by
  simpa using stop_of_dropWhile h

/-! ## Line ends -/

/-- One line end, in any of the three conventions. -/
inductive LineEnd : List Char → Prop
  | newline : LineEnd ['\n']
  | return : LineEnd ['\r']
  | both : LineEnd ['\r', '\n']

/-- A line end has nothing but line breaks. -/
theorem LineEnd.isBreak {e : List Char} (h : LineEnd e) : ∀ c ∈ e, isBreak c = true := by
  cases h <;> intro c hc <;> simp only [List.mem_cons, List.not_mem_nil, or_false] at hc
  · subst hc; rfl
  · subst hc; rfl
  · rcases hc with rfl | rfl <;> rfl

/-- A line end is made of blanks. -/
theorem LineEnd.blank {e : List Char} (h : LineEnd e) : Blank e :=
  fun c hc => isBlank_of_isBreak (h.isBreak c hc)

/-- A line end has at least one character. -/
theorem LineEnd.ne_nil {e : List Char} (h : LineEnd e) : e ≠ [] := by
  cases h <;> simp

/-- Where a line end is skipped, one stands at the beginning of the text. -/
theorem afterLineEnd?_eq_some (h : afterLineEnd? text = some rest) :
    ∃ e, LineEnd e ∧ text = e ++ rest := by
  unfold afterLineEnd? at h
  split at h
  · cases h
    exact ⟨_, .both, rfl⟩
  · cases h
    exact ⟨_, .newline, rfl⟩
  · cases h
    exact ⟨_, .return, rfl⟩
  · contradiction

/-- The empty text begins with no line end. -/
@[simp] theorem afterLineEnd?_nil : afterLineEnd? [] = none := rfl

/-- A line feed is a line end. -/
@[simp] theorem afterLineEnd?_newline (rest : List Char) :
    afterLineEnd? ('\n' :: rest) = some rest := rfl

/-- No line end begins with a character that is no break. -/
theorem afterLineEnd?_cons_of_not_isBreak {c : Char} (h : ¬ isBreak c) (rest : List Char) :
    afterLineEnd? (c :: rest) = none := by
  simp only [isBreak_iff, not_or] at h
  simp [afterLineEnd?, h.1, h.2]

/-- A line end begins with every break. -/
theorem afterLineEnd?_isSome_of_isBreak {c : Char} (h : isBreak c) (rest : List Char) :
    ∃ after, afterLineEnd? (c :: rest) = some after := by
  rcases isBreak_iff.mp h with rfl | rfl
  · exact ⟨rest, rfl⟩
  · rcases rest with _ | ⟨d, rest⟩
    · exact ⟨[], rfl⟩
    · by_cases hd : d = '\n'
      · subst hd
        exact ⟨rest, rfl⟩
      · exact ⟨d :: rest, by simp [afterLineEnd?, hd]⟩

/-- Where no line end follows, no character that breaks a line does. -/
theorem isBreak_of_afterLineEnd?_eq_none (h : afterLineEnd? text = none) :
    ∀ c ∈ text.head?, isBreak c = false := by
  rcases text with _ | ⟨c, rest⟩
  · rintro _ ⟨⟩
  · rintro _ ⟨⟩
    rw [← Bool.not_eq_true]
    intro hbreak
    obtain ⟨after, hafter⟩ := afterLineEnd?_isSome_of_isBreak hbreak rest
    rw [hafter] at h
    cases h

/-- Skipping a line end leaves a suffix. -/
theorem afterLineEnd?_suffix (h : afterLineEnd? text = some rest) : rest <:+ text := by
  obtain ⟨e, -, rfl⟩ := afterLineEnd?_eq_some h
  exact List.suffix_append e rest

/-- Skipping a line end makes a text shorter. -/
theorem afterLineEnd?_length_lt (h : afterLineEnd? text = some rest) :
    rest.length < text.length := by
  obtain ⟨e, he, rfl⟩ := afterLineEnd?_eq_some h
  have hpos := List.length_pos_iff.mpr he.ne_nil
  rw [List.length_append]
  omega

/-! ## Blank lines -/

/-- Skipping blank lines goes on behind a line that is blank, and else stays at the beginning of the
line unless the text ends in spaces. -/
theorem dropBlankLinesFrom_apply (line text : List Char) :
    dropBlankLinesFrom line text =
      match afterLineEnd? (text.dropWhile (· == ' ')) with
      | some rest => dropBlankLines rest
      | none => if text.dropWhile (· == ' ') = [] then [] else line := by
  fun_induction dropBlankLinesFrom line text with
  | case1 => rfl
  | case2 line rest ih => simpa using ih
  | case3 line rest => rfl
  | case4 line rest => rfl
  | case5 line rest hrest =>
    have he : afterLineEnd? ('\r' :: rest) = some rest := by
      rcases rest with _ | ⟨d, rest⟩
      · rfl
      · simp [afterLineEnd?]
    simp [he, dropBlankLines]
  | case6 line c rest hspace _ hnewline hreturn =>
    have hd : (c :: rest).dropWhile (· == ' ') = c :: rest :=
      List.dropWhile_cons_of_neg (by simpa using hspace)
    have hb : ¬ isBreak c := by
      rw [isBreak_iff]
      exact not_or.mpr ⟨hnewline, hreturn⟩
    rw [hd, afterLineEnd?_cons_of_not_isBreak hb]
    simp

/-- Blank lines are dropped one by one; the last one needs no line end. -/
theorem dropBlankLines_apply (text : List Char) :
    dropBlankLines text =
      match afterLineEnd? (text.dropWhile (· == ' ')) with
      | some rest => dropBlankLines rest
      | none => if text.dropWhile (· == ' ') = [] then [] else text :=
  dropBlankLinesFrom_apply text text

/-- The spaces at the beginning of a text are blank. -/
theorem blank_takeWhile_space (text : List Char) : Blank (text.takeWhile (· == ' ')) := by
  intro c hc
  have hs := List.mem_takeWhile_imp hc
  simp only [beq_iff_eq] at hs
  simp [hs]

/-- A text after which a line begins. -/
def LeadsToLine (text : List Char) : Prop := ∀ c ∈ text.getLast?, isBreak c = true

/-- A line can begin where nothing was read. -/
theorem leadsToLine_nil : LeadsToLine [] := by rintro _ ⟨⟩

/-- Two texts after which lines begin can be put together. -/
theorem LeadsToLine.append {s t : List Char} (hs : LeadsToLine s) (ht : LeadsToLine t) :
    LeadsToLine (s ++ t) := by
  rcases List.eq_nil_or_concat t with rfl | ⟨t, c, rfl⟩
  · simpa using hs
  · simpa [LeadsToLine] using ht

/-- Where a line begins is told by the last text alone, if that is not empty. -/
theorem leadsToLine_append_right (s : List Char) {t : List Char} (ht : LeadsToLine t)
    (hne : t ≠ []) : LeadsToLine (s ++ t) := by
  rcases List.eq_nil_or_concat t with rfl | ⟨t, c, rfl⟩
  · exact absurd rfl hne
  · simpa [LeadsToLine] using ht

/-- A line begins after a line end. -/
theorem LineEnd.leadsToLine {e : List Char} (h : LineEnd e) : LeadsToLine e := by
  cases h <;> simp [LeadsToLine]

/-- Dropping blank lines takes away blanks, by whole lines unless nothing is left, and leaves
nothing or a line that holds something else. -/
theorem dropBlankLines_spec (text : List Char) :
    ∃ blank, text = blank ++ dropBlankLines text ∧ Blank blank ∧
      (dropBlankLines text = [] ∨ LeadsToLine blank ∧ ∃ c rest,
        (dropBlankLines text).dropWhile (· == ' ') = c :: rest ∧ isBreak c = false) := by
  induction hn : text.length using Nat.strong_induction_on generalizing text with
  | _ n ih =>
    have hsplit := (List.takeWhile_append_dropWhile (p := (· == ' ')) (l := text)).symm
    have hspaces := blank_takeWhile_space text
    rw [dropBlankLines_apply]
    generalize hd : text.dropWhile (· == ' ') = rest at hsplit
    cases he : afterLineEnd? rest with
    | some after =>
      obtain ⟨e, hlineEnd, rfl⟩ := afterLineEnd?_eq_some he
      have hlt : after.length < n := by
        have hlen := congrArg List.length hsplit
        have hpos := List.length_pos_iff.mpr hlineEnd.ne_nil
        simp only [List.length_append] at hlen
        omega
      -- The line is blank up to its end, and what is below it is shorter.
      obtain ⟨blank, hafter, hblank, hend⟩ := ih _ hlt after rfl
      refine ⟨text.takeWhile (· == ' ') ++ e ++ blank, ?_,
        (hspaces.append hlineEnd.blank).append hblank, ?_⟩
      · simpa only [List.append_assoc, ← hafter] using hsplit
      · rcases hend with hend | ⟨hline, hfirst⟩
        · exact Or.inl hend
        · refine Or.inr ⟨LeadsToLine.append ?_ hline, hfirst⟩
          exact leadsToLine_append_right _ hlineEnd.leadsToLine hlineEnd.ne_nil
    | none =>
      dsimp only
      split_ifs with hnil
      · subst hnil
        exact ⟨text, by simp, by rw [hsplit]; simpa using hspaces, Or.inl rfl⟩
      · obtain ⟨c, rest, rfl⟩ := List.exists_cons_of_ne_nil hnil
        have hbreak := isBreak_of_afterLineEnd?_eq_none he c rfl
        exact ⟨[], rfl, blank_nil, Or.inr ⟨leadsToLine_nil, c, rest, hd, hbreak⟩⟩

/-- Skipping blank lines leaves a suffix. -/
theorem dropBlankLines_suffix (text : List Char) : dropBlankLines text <:+ text := by
  obtain ⟨blank, h, -⟩ := dropBlankLines_spec text
  exact ⟨blank, h.symm⟩

/-- A text whose first line holds more than spaces keeps it. -/
theorem dropBlankLines_eq_self {c : Char} (h : text.dropWhile (· == ' ') = c :: rest)
    (hc : isBreak c = false) : dropBlankLines text = text := by
  rw [dropBlankLines_apply, h, afterLineEnd?_cons_of_not_isBreak (by simp [hc])]
  simp

/-- A text that begins with no blank keeps its first line. -/
theorem dropBlankLines_cons {c : Char} (hc : isBlank c = false) (rest : List Char) :
    dropBlankLines (c :: rest) = c :: rest := by
  have hspace : (c :: rest).dropWhile (· == ' ') = c :: rest := by
    refine List.dropWhile_cons_of_neg ?_
    rw [beq_iff_eq]
    rintro rfl
    cases hc
  refine dropBlankLines_eq_self hspace ?_
  rw [← Bool.not_eq_true]
  intro hbreak
  rw [isBlank_of_isBreak hbreak] at hc
  cases hc

/-- Behind the spaces at its front a text begins with what it begins with behind all blanks. -/
theorem dropWhile_isBlank_of_spaces {c : Char} (h : text.dropWhile (· == ' ') = c :: rest)
    (hc : isBlank c = false) : text.dropWhile isBlank = c :: rest := by
  conv_lhs => rw [← List.takeWhile_append_dropWhile (p := (· == ' ')) (l := text), h]
  rw [List.dropWhile_append_of_pos (blank_takeWhile_space text),
    List.dropWhile_cons_of_neg (by simp [hc])]

/-- Blank lines and then blanks are the blanks at the beginning of the text. -/
theorem dropWhile_dropBlankLines (text : List Char) :
    (dropBlankLines text).dropWhile isBlank = text.dropWhile isBlank := by
  obtain ⟨blank, htext, hblank, -⟩ := dropBlankLines_spec text
  conv_rhs => rw [htext, List.dropWhile_append_of_pos hblank]

/-- After blank lines were skipped, there are none to skip. -/
theorem dropBlankLines_idem (text : List Char) :
    dropBlankLines (dropBlankLines text) = dropBlankLines text := by
  obtain ⟨blank, -, -, hnil | ⟨-, c, rest, hd, hc⟩⟩ := dropBlankLines_spec text
  · rw [hnil]
    rfl
  · exact dropBlankLines_eq_self hd hc

end Phrasebook.Text
