import Phrasebook.Proofs.Text

/-!
# Other line ends and deeper lines

A text whose lines end in line feeds is written with another line end, and every line below the
first one is moved to the right. What reading takes off the front of such a text is what it takes
off the front of the first one, written the same way. A place is the same in both texts if it is
inside a line; at the start of a line the spaces that were added are still to come.
-/

namespace Phrasebook

open Text

/-- A line end, and the number of spaces by which lines are moved. -/
structure Reflow where
  lineEnd : List Char
  isLineEnd : LineEnd lineEnd
  shift : Nat

namespace Text

/-- Nothing, or a line that begins with a space. -/
def Indented (text : List Char) : Prop := ∀ c ∈ text.head?, c = ' '

/-- A line end ends in a line break. -/
theorem LineEnd.exists_concat {e : List Char} (h : LineEnd e) :
    ∃ front c, e = front ++ [c] ∧ Text.isBreak c = true := by
  obtain ⟨front, c, rfl⟩ := List.eq_nil_or_concat' e |>.resolve_left h.ne_nil
  exact ⟨front, c, rfl, h.isBreak c (by simp)⟩

/-- A line end begins with a line break. -/
theorem LineEnd.exists_cons {e : List Char} (h : LineEnd e) :
    ∃ c rest, e = c :: rest ∧ Text.isBreak c = true := by
  obtain ⟨c, rest, rfl⟩ := List.exists_cons_of_ne_nil h.ne_nil
  exact ⟨c, rest, rfl, h.isBreak c List.mem_cons_self⟩

end Text

namespace Reflow

variable (f : Reflow) {start : Bool} {u w : List Char} {c : Char} {p : Char → Bool}

/-- The spaces that are added before a line; a last line without any character has none. -/
def margin (u : List Char) : List Char := if u.isEmpty then [] else List.replicate f.shift ' '

/-- The text, from a place inside a line on. -/
def flow : List Char → List Char
  | [] => []
  | c :: u => (if c = '\n' then f.lineEnd ++ f.margin u else [c]) ++ flow u

/-- The text, from the start of a line or from a place inside of one on. -/
def flowAt (start : Bool) (u : List Char) : List Char :=
  (if start then f.margin u else []) ++ f.flow u

variable {f}

/-- Only spaces are added before a line. -/
theorem eq_space_of_mem_margin (hc : c ∈ if start then f.margin u else []) : c = ' ' := by
  cases start with
  | false => cases hc
  | true =>
    rw [if_pos rfl, margin] at hc
    split at hc
    · cases hc
    · exact List.eq_of_mem_replicate hc

variable (f)

/-- The text has line feeds for its line ends, and the lines that are moved are indented. -/
structure Suits (start : Bool) (u : List Char) : Prop where
  noReturn : '\r' ∉ u
  indented : f.shift = 0 ∨
    (start = true → Indented u) ∧ ∀ rest, '\n' :: rest <:+ u → Indented rest

variable {f}

/-- The empty text stays empty. -/
@[simp] theorem flow_nil : f.flow [] = [] := rfl

/-- The empty text stays empty at the start of a line too. -/
@[simp] theorem flowAt_nil : f.flowAt start [] = [] := by
  cases start <;> rfl

/-- Inside a line no margin is put in front. -/
@[simp] theorem flowAt_false (u : List Char) : f.flowAt false u = f.flow u := rfl

/-- A character inside a line stays. -/
theorem flow_cons (hc : c ≠ '\n') (u : List Char) : f.flow (c :: u) = c :: f.flow u := by
  rw [flow, if_neg hc]
  rfl

/-- A line feed becomes the line end, and the next line is moved. -/
theorem flow_lineFeed (u : List Char) : f.flow ('\n' :: u) = f.lineEnd ++ f.flowAt true u := by
  rw [flow, if_pos rfl, List.append_assoc]
  rfl

/-- What stands within a line is left as it is. -/
theorem flow_append {x : List Char} (hx : ∀ c ∈ x, isBreak c = false) (w : List Char) :
    f.flow (x ++ w) = x ++ f.flow w := by
  induction x with
  | nil => rfl
  | cons c x ih =>
    have hc : c ≠ '\n' := by
      rintro rfl
      exact absurd (hx _ List.mem_cons_self) (by decide)
    rw [List.cons_append, flow_cons hc, ih fun d hd => hx d (List.mem_cons_of_mem c hd),
      List.cons_append]

/-- Where no line is moved, the start of a line is a place like any other. -/
theorem flowAt_of_shift_eq_zero (h : f.shift = 0) : f.flowAt start u = f.flow u := by
  cases start <;> simp [flowAt, margin, h]

/-! ## Suitable texts -/

/-- A text is suited from any place on, taken as one inside a line. -/
theorem Suits.of_suffix (h : f.Suits start u) (hw : w <:+ u) : f.Suits false w where
  noReturn hmem := h.noReturn (hw.subset hmem)
  indented := h.indented.imp_right fun hlines =>
    ⟨by rintro ⟨⟩, fun rest hrest => hlines.2 rest (hrest.trans hw)⟩

/-- What is suited as the start of a line is so as a place inside of one. -/
theorem Suits.inLine (h : f.Suits start u) : f.Suits false u := h.of_suffix List.suffix_rfl

/-- A suited text is suited behind its first character. -/
theorem Suits.tail (h : f.Suits start (c :: u)) : f.Suits false u :=
  h.of_suffix (List.suffix_cons c u)

/-- Behind a line feed, a suited text is suited as the start of a line. -/
theorem Suits.nextLine (h : f.Suits start ('\n' :: u)) : f.Suits true u where
  noReturn := h.tail.noReturn
  indented := h.indented.imp_right fun hlines =>
    ⟨fun _ => hlines.2 u List.suffix_rfl, fun rest hrest =>
      hlines.2 rest (hrest.trans (List.suffix_cons '\n' u))⟩

/-- The end of a text is suited. -/
theorem suits_nil : f.Suits start [] where
  noReturn := List.not_mem_nil
  indented := .inr ⟨fun _ _ h => by simp at h, fun rest hrest => by simp at hrest⟩

/-- A suitable text breaks its lines with line feeds only. -/
theorem Suits.eq_lineFeed (h : f.Suits start (c :: u)) (hc : isBreak c = true) : c = '\n' := by
  rcases isBreak_iff.mp hc with rfl | rfl
  · rfl
  · exact absurd List.mem_cons_self h.noReturn

/-- At the start of a line that is moved stands a space. -/
theorem Suits.flowAt_eq_flow (h : f.Suits start (c :: u)) (hc : c ≠ ' ') :
    f.flowAt start (c :: u) = f.flow (c :: u) := by
  cases start with
  | false => rfl
  | true =>
    rcases h.indented with hshift | hlines
    · exact flowAt_of_shift_eq_zero hshift
    · exact absurd (hlines.1 rfl c rfl) hc

/-- Only a space or a line feed tells whether it stands at the start of a line. -/
theorem Suits.flowAt_cons (h : f.Suits start (c :: u)) (hc : c ≠ ' ') (hbreak : c ≠ '\n') :
    f.flowAt start (c :: u) = c :: f.flow u := by
  rw [h.flowAt_eq_flow hc, flow_cons hbreak]

/-- An empty line is not moved. -/
theorem Suits.flowAt_lineFeed (h : f.Suits start ('\n' :: u)) :
    f.flowAt start ('\n' :: u) = f.lineEnd ++ f.flowAt true u := by
  rw [h.flowAt_eq_flow (by decide), flow_lineFeed]

/-- A character that is no blank is next in both texts or in neither. -/
theorem Suits.head?_flowAt (h : f.Suits start u) (hc : isBlank c = false) :
    (f.flowAt start u).head? = some c ↔ u.head? = some c := by
  have hspace : c ≠ ' ' := by rintro rfl; contradiction
  rcases u with _ | ⟨d, u⟩
  · simp
  by_cases hd : d = ' '
  · subst hd
    have hleft : (f.flowAt start (' ' :: u)).head? = some ' ' := by
      rw [flowAt, flow_cons (by decide)]
      cases start
      · rfl
      · rcases hn : f.shift with _ | n <;> simp [margin, hn, List.replicate_succ]
    simp [hleft]
  by_cases hbreak : d = '\n'
  · subst hbreak
    rw [h.flowAt_lineFeed]
    obtain ⟨d, rest, hlineEnd, hd⟩ := f.isLineEnd.exists_cons
    rw [hlineEnd]
    constructor
    · intro hhead
      cases hhead
      simp [isBlank_of_isBreak hd] at hc
    · intro hhead
      cases hhead
      contradiction
  · rw [h.flowAt_cons hd hbreak]
    rfl

/-- Nothing but the end of a text becomes the end of the other. -/
theorem flow_eq_nil : f.flow u = [] ↔ u = [] := by
  rcases u with _ | ⟨c, u⟩
  · simp
  · by_cases hc : c = '\n'
    · subst hc
      simp [flow_lineFeed, f.isLineEnd.ne_nil]
    · simp [flow_cons hc]

/-- No spaces are added to the end of a text. -/
theorem flowAt_eq_nil : f.flowAt start u = [] ↔ u = [] := by
  constructor
  · intro h
    exact flow_eq_nil.mp (List.append_eq_nil_iff.mp h).2
  · rintro rfl
    exact flowAt_nil

/-! ## Runs of characters -/

/-- A run of characters within a line is the same in both texts, and what follows it is written the
same way. -/
theorem Suits.span_flow (h : f.Suits false u) (hp : ∀ c, isBreak c = true → p c = false) :
    (f.flow u).takeWhile p = u.takeWhile p ∧ (f.flow u).dropWhile p = f.flow (u.dropWhile p) := by
  induction u with
  | nil => exact ⟨rfl, rfl⟩
  | cons c u ih =>
    by_cases hc : c = '\n'
    · subst hc
      have hstop : p '\n' = false := hp _ rfl
      rw [flow_lineFeed]
      obtain ⟨d, rest, hd, hbreak⟩ := f.isLineEnd.exists_cons
      have hdstop : p d = false := hp d hbreak
      rw [List.takeWhile_cons_of_neg (by simp [hstop]),
        List.dropWhile_cons_of_neg (by simp [hstop]),
        flow_lineFeed, hd, List.cons_append, List.takeWhile_cons_of_neg (by simp [hdstop]),
        List.dropWhile_cons_of_neg (by simp [hdstop])]
      exact ⟨rfl, rfl⟩
    · rw [flow_cons hc]
      obtain ⟨htake, hdrop⟩ := ih h.tail
      by_cases hpc : p c
      · rw [List.takeWhile_cons_of_pos hpc, List.takeWhile_cons_of_pos hpc, htake,
          List.dropWhile_cons_of_pos hpc, List.dropWhile_cons_of_pos hpc]
        exact ⟨rfl, hdrop⟩
      · rw [List.takeWhile_cons_of_neg hpc, List.takeWhile_cons_of_neg hpc,
          List.dropWhile_cons_of_neg hpc, List.dropWhile_cons_of_neg hpc, flow_cons hc]
        exact ⟨rfl, rfl⟩

/-- Behind the spaces at its front, a text is inside a line. -/
theorem Suits.dropWhile_space (h : f.Suits start u) :
    (f.flowAt start u).dropWhile (· == ' ') = f.flow (u.dropWhile (· == ' ')) := by
  have hmargin : ∀ c ∈ (if start then f.margin u else []), (c == ' ') = true := fun c hc => by
    simp [eq_space_of_mem_margin hc]
  rw [flowAt, List.dropWhile_append_of_pos hmargin]
  exact (h.inLine.span_flow (p := (· == ' ')) fun c hc => by
    rcases isBreak_iff.mp hc with rfl | rfl <;> rfl).2

/-- At the start of a line that is moved stand the spaces that were added and its own. -/
theorem Suits.length_takeWhile_space (h : f.Suits start u) (hne : u ≠ []) :
    ((f.flowAt start u).takeWhile (· == ' ')).length =
      (u.takeWhile (· == ' ')).length + if start then f.shift else 0 := by
  have hspan := (h.inLine.span_flow (p := (· == ' ')) fun c hc => by
    rcases isBreak_iff.mp hc with rfl | rfl <;> rfl).1
  cases start with
  | false =>
    rw [flowAt_false, hspan]
    rfl
  | true =>
    have hmargin : f.margin u = List.replicate f.shift ' ' := by simp [margin, hne]
    rw [flowAt, if_pos rfl, if_pos rfl, hmargin, List.takeWhile_append_of_pos, hspan,
      List.length_append, List.length_replicate, Nat.add_comm]
    intro c hc
    simp [List.eq_of_mem_replicate hc]

/-- Behind all blanks at its front, a text is inside a line. -/
theorem dropWhile_isBlank : ∀ (start : Bool) (u : List Char),
    (f.flowAt start u).dropWhile isBlank = f.flow (u.dropWhile isBlank) := by
  intro start u
  induction u generalizing start with
  | nil => simp
  | cons c u ih =>
    have hmargin : ∀ d ∈ (if start then f.margin (c :: u) else []), isBlank d = true :=
        fun d hd => by
      simp [eq_space_of_mem_margin hd]
    rw [flowAt, List.dropWhile_append_of_pos hmargin]
    by_cases hc : c = '\n'
    · subst hc
      rw [flow_lineFeed, List.dropWhile_append_of_pos f.isLineEnd.blank, ih true,
        List.dropWhile_cons_of_pos rfl]
    · rw [flow_cons hc]
      by_cases hblank : isBlank c
      · rw [List.dropWhile_cons_of_pos hblank, List.dropWhile_cons_of_pos hblank]
        exact ih false
      · rw [List.dropWhile_cons_of_neg hblank, List.dropWhile_cons_of_neg hblank, flow_cons hc]

/-! ## Lines -/

/-- What follows a line end does not complete it to a longer one. -/
theorem Suits.afterLineEnd?_append (h : f.Suits true u) :
    afterLineEnd? (f.lineEnd ++ f.flowAt true u) = some (f.flowAt true u) := by
  obtain ⟨e, he, shift⟩ := f
  cases he with
  | newline => rfl
  | both => rfl
  | «return» =>
    have hhead : (flowAt ⟨['\r'], .return, shift⟩ true u).head? ≠ some '\n' := by
      rcases u with _ | ⟨c, u⟩
      · simp
      by_cases hc : c = ' '
      · subst hc
        rw [flowAt, flow_cons (by decide)]
        rcases shift with _ | n <;> simp [margin, List.replicate_succ]
      rw [h.flowAt_eq_flow hc]
      by_cases hbreak : c = '\n'
      · subst hbreak
        simp [flow_lineFeed]
      · simp [flow_cons hbreak, hbreak]
    generalize flowAt ⟨['\r'], .return, shift⟩ true u = v at hhead
    rcases v with _ | ⟨c, v⟩
    · rfl
    · have hc : c ≠ '\n' := by simpa using hhead
      simp [afterLineEnd?, hc]

/-- A line ends in both texts or in neither, and the next one begins there. -/
theorem Suits.afterLineEnd? (h : f.Suits start u) :
    Text.afterLineEnd? (f.flowAt start u) = (Text.afterLineEnd? u).map (f.flowAt true) := by
  rcases u with _ | ⟨c, u⟩
  · simp
  by_cases hc : c = '\n'
  · subst hc
    rw [h.flowAt_lineFeed, h.nextLine.afterLineEnd?_append]
    rfl
  have hbreak : ¬ isBreak c := fun hb => hc (h.eq_lineFeed hb)
  rw [afterLineEnd?_cons_of_not_isBreak hbreak]
  by_cases hspace : c = ' '
  · subst hspace
    rw [flowAt, flow_cons hc]
    cases start
    · rfl
    · rcases hn : f.shift with _ | n <;> simp [margin, hn, List.replicate_succ, Text.afterLineEnd?]
  · rw [h.flowAt_cons hspace hc, afterLineEnd?_cons_of_not_isBreak hbreak]
    rfl

/-- Behind a line end that is skipped, a suited text is suited as the start of a line. -/
theorem Suits.of_afterLineEnd? (h : f.Suits start u) (hw : Text.afterLineEnd? u = some w) :
    f.Suits true w := by
  rcases u with _ | ⟨c, u⟩
  · cases hw
  by_cases hc : isBreak c = true
  · obtain rfl := h.eq_lineFeed hc
    cases hw
    exact h.nextLine
  · rw [afterLineEnd?_cons_of_not_isBreak hc] at hw
    contradiction

/-- The same blank lines are dropped from both texts. -/
theorem Suits.dropBlankLines (h : f.Suits start u) :
    ∃ start', Text.dropBlankLines (f.flowAt start u) = f.flowAt start' (Text.dropBlankLines u) ∧
      f.Suits start' (Text.dropBlankLines u) ∧ (start = true → start' = true) ∧
      (Text.dropBlankLines (f.flowAt start u) = f.flowAt start u ↔ Text.dropBlankLines u = u) := by
  -- The induction is on the length: each blank line that is dropped leaves a shorter text, at a
  -- line that starts in both.
  induction hn : u.length using Nat.strong_induction_on generalizing start u with
  | _ n ih =>
    have hspaces : f.Suits false (u.dropWhile (· == ' ')) := h.of_suffix (List.dropWhile_suffix _)
    have hline := dropBlankLines_apply u
    have hflow := dropBlankLines_apply (f.flowAt start u)
    rw [h.dropWhile_space, ← flowAt_false, hspaces.afterLineEnd?] at hflow
    cases he : Text.afterLineEnd? (u.dropWhile (· == ' ')) with
    | some after =>
      simp only [he, Option.map_some] at hline hflow
      have hlt : after.length < u.length :=
        Nat.lt_of_lt_of_le (afterLineEnd?_length_lt he) (List.dropWhile_suffix _).length_le
      obtain ⟨start', hdrop, hsuits, hstart, -⟩ :=
        ih _ (hn ▸ hlt) (hspaces.of_afterLineEnd? he) rfl
      rw [hline, hflow]
      refine ⟨start', hdrop, hsuits, fun _ => hstart rfl, ?_⟩
      have hflowlt : (f.flowAt true after).length < (f.flowAt start u).length := by
        refine Nat.lt_of_lt_of_le (m := (f.flow (u.dropWhile (· == ' '))).length) ?_ ?_
        · refine afterLineEnd?_length_lt ?_
          rw [← flowAt_false, hspaces.afterLineEnd?, he]
          rfl
        · rw [← h.dropWhile_space]
          exact (List.dropWhile_suffix _).length_le
      have hle := (dropBlankLines_suffix (f.flowAt true after)).length_le
      have hle' := (dropBlankLines_suffix after).length_le
      -- A blank line makes both texts shorter, so neither is its own rest.
      constructor
      · intro heq
        rw [heq] at hle
        omega
      · intro heq
        rw [heq] at hle'
        omega
    | none =>
      simp only [he, Option.map_none, flowAt_false, flow_eq_nil] at hline hflow
      rw [hline, hflow]
      split_ifs with hnil
      · refine ⟨true, by simp, suits_nil, fun _ => rfl, ?_⟩
        rw [eq_comm, flowAt_eq_nil, eq_comm]
      · exact ⟨start, rfl, h, id, by simp⟩

end Reflow

end Phrasebook
