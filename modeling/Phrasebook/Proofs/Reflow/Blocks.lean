import Phrasebook.Proofs.Blocks
import Phrasebook.Proofs.Reflow.Entry

/-!
# Blocks side by side

The blocks of a source are told by its lines. After a fault, reading goes on at a line that looks
like the start of an entry; such a line is not moved. So both texts are cut into the same blocks,
and the same comments join the units below them.
-/

namespace Phrasebook

open Text

namespace Reflow

variable {f : Reflow} {start : Bool} {u : List Char}

/-- Where no line is moved, each line end stands for itself. -/
theorem flow_append_of_shift (h : f.shift = 0) (x w : List Char) :
    f.flow (x ++ w) = f.flow x ++ f.flow w := by
  induction x with
  | nil => rfl
  | cons c x ih =>
    by_cases hc : c = '\n'
    · subst hc
      rw [List.cons_append, flow_lineFeed, flow_lineFeed, flowAt_of_shift_eq_zero h,
        flowAt_of_shift_eq_zero h, ih, List.append_assoc]
    · rw [List.cons_append, flow_cons hc, flow_cons hc, ih, List.cons_append]

end Reflow

namespace Block

variable {f : Reflow} {start : Bool} {u : List Char}

/-- Blocks whose entries are the same but for their places. -/
structure Reflowed (f : Reflow) (b b' : Block) : Prop where
  entry : b.entry.Reflowed f b'.entry
  meetsNext : b'.meetsNext = b.meetsNext

/-! ## Recovery -/

/-- An entry starts at the same place. -/
theorem startsEntry_flowAt (hu : f.Suits start u) :
    startsEntry (f.flowAt start u) = startsEntry u := by
  rw [startsEntry, startsEntry, Bool.eq_iff_iff, Option.any_eq_true, Option.any_eq_true]
  refine exists_congr fun c => and_congr_left fun hc => hu.head?_flowAt ?_
  simp only [Bool.or_eq_true, beq_iff_eq] at hc
  rcases hc with (hc | rfl) | rfl
  · exact isBlank_eq_false_of_isAlpha hc
  · rfl
  · rfl

/-- The same entry comes next. -/
theorem nextEntry_flowAt (hu : f.Suits start u) :
    nextEntry (f.flowAt start u) = f.flowAt true (nextEntry u) ∧ f.Suits true (nextEntry u) := by
  induction u generalizing start with
  | nil => exact ⟨by simp [nextEntry], f.suits_nil⟩
  | cons c u ih =>
    by_cases hc : c = '\n'
    · subst hc
      rw [hu.flowAt_lineFeed, nextEntry_lineEnd f.isLineEnd, startsEntry_flowAt hu.nextLine,
        nextEntry]
      simp only [isBreak_newline, Bool.true_and]
      split_ifs
      · exact ⟨rfl, hu.nextLine⟩
      · exact ih hu.nextLine
    · have hbreak : isBreak c = false := by
        by_contra hbreak
        exact hc (hu.eq_lineFeed (by simpa using hbreak))
      have hmargin : ∀ d ∈ (if start then f.margin (c :: u) else []) ++ [c], isBreak d = false := by
        intro d hd
        rcases List.mem_append.mp hd with hd | hd
        · rw [f.eq_space_of_mem_margin hd]
          rfl
        · rwa [List.mem_singleton.mp hd]
      have hflow : f.flowAt start (c :: u) =
          ((if start then f.margin (c :: u) else []) ++ [c]) ++ f.flowAt false u := by
        rw [Reflow.flowAt, f.flow_cons hc, List.append_assoc]
        rfl
      rw [hflow, nextEntry_line_append hmargin, nextEntry, hbreak]
      exact ih hu.tail

/-- Where lines are moved, none of them looks like the start of an entry. -/
theorem nextEntry_eq_nil (hu : f.Suits start u) (hshift : f.shift ≠ 0) : nextEntry u = [] := by
  induction u generalizing start with
  | nil => rfl
  | cons c u ih =>
    rw [nextEntry]
    split
    · next hstarts =>
      rw [Bool.and_eq_true] at hstarts
      obtain rfl := hu.eq_lineFeed hstarts.1
      have hindented := (hu.indented.resolve_left hshift).2 u List.suffix_rfl
      obtain ⟨d, hd, hstart⟩ := (Option.any_eq_true _ _).mp hstarts.2
      rw [hindented d hd] at hstart
      contradiction
    · exact ih hu.tail

/-- After faults at the same place, reading goes on at the same place. -/
theorem recover_flowAt {rest : List Char} {place : Bool} (hu : f.Suits start u)
    (hrest : rest <:+ u) (hrest' : f.flowAt place rest <:+ f.flowAt start u) :
    recover (f.flowAt start u) (f.flowAt place rest) = f.flowAt true (recover u rest) ∧
      f.Suits true (recover u rest) := by
  by_cases hshift : f.shift = 0
  swap
  -- Lines are moved: none of them looks like an entry, and all is junk up to the end.
  · have hnil : nextEntry u = [] := nextEntry_eq_nil hu hshift
    have hnil' : nextEntry (f.flowAt start u) = [] := by
      rw [(nextEntry_flowAt hu).1, hnil, f.flowAt_nil]
    rw [recover, recover, nextEntry_eq_nil_of_suffix (resumption_before_suffix hrest) hnil,
      nextEntry_eq_nil_of_suffix (resumption_before_suffix hrest') hnil', f.flowAt_nil]
    exact ⟨rfl, f.suits_nil⟩
  obtain ⟨read, rfl⟩ := hrest
  rw [f.flowAt_of_shift_eq_zero hshift, f.flowAt_of_shift_eq_zero hshift,
    f.flow_append_of_shift hshift, recover, recover, before_append, before_append]
  -- Recovery goes back to the line break before the fault, if there is one.
  rcases lastBreak read with hread | ⟨front, b, line, rfl, hb, hline⟩
  · have hsame : f.flow read = read := by simpa using f.flow_append hread []
    have hrest : f.Suits false rest := hu.of_suffix (List.suffix_append read rest)
    rw [hsame, resumption_firstLine hread, resumption_firstLine hread]
    exact nextEntry_flowAt hrest
  · have hsuffix : b :: (line ++ rest) <:+ front ++ b :: line ++ rest :=
      ⟨front, by simp⟩
    have hbreak := hu.of_suffix hsuffix
    obtain rfl := hbreak.eq_lineFeed hb
    obtain ⟨pre, d, hlineEnd, hd⟩ := f.isLineEnd.exists_concat
    have hflow : f.flow (front ++ '\n' :: line) = (f.flow front ++ pre) ++ d :: line := by
      have hsame : f.flow line = line := by simpa using f.flow_append hline []
      rw [f.flow_append_of_shift hshift, f.flow_lineFeed, f.flowAt_of_shift_eq_zero hshift, hsame,
        hlineEnd]
      simp
    have hline' : line ++ f.flow rest = f.flowAt true (line ++ rest) := by
      rw [f.flowAt_of_shift_eq_zero hshift, f.flow_append hline]
    obtain ⟨hnext, hsuits⟩ := nextEntry_flowAt hbreak
    rw [hbreak.flowAt_lineFeed, nextEntry_lineEnd f.isLineEnd] at hnext
    rw [hflow, resumption_line _ hd hline, resumption_line _ hb hline, hline', ← hnext, nextEntry,
      hd, Bool.true_and]
    exact ⟨rfl, hsuits⟩

/-! ## Blocks -/

/-- The content of junk is reflowed with it. -/
private theorem before_flow {w : List Char} (hshift : f.shift = 0) (hw : w <:+ u) :
    before (f.flowAt start u) (f.flowAt true w) = f.flow (before u w) := by
  obtain ⟨x, rfl⟩ := hw
  rw [f.flowAt_of_shift_eq_zero hshift, f.flowAt_of_shift_eq_zero hshift,
    f.flow_append_of_shift hshift, before_append, before_append]

/-- The first block is the same, and so is the place behind the blank lines below it. -/
theorem read_flowAt (offset offset' : Nat) (hu : f.Suits start u) :
    (read offset u).1.Reflowed f (read offset' (f.flowAt start u)).1 ∧
      ∃ place, (read offset' (f.flowAt start u)).2 = f.flowAt place (read offset u).2 ∧
        f.Suits place (read offset u).2 := by
  have hentry := Reader.parallel_entry offset offset' hu
  unfold Reader.Parallel at hentry
  rcases hr : Reader.entry offset u with ⟨problem, rest⟩ | ⟨entry, after⟩ <;>
    rcases hr' : Reader.entry offset' (f.flowAt start u) with ⟨problem', rest'⟩ |
      ⟨entry', after'⟩ <;>
    simp only [hr, hr'] at hentry
  · obtain ⟨rfl, place, rfl⟩ := hentry
    have hrest : rest <:+ u := (Reader.contained_entry offset).suffix_of_error hr
    have hrest' := (Reader.contained_entry offset').suffix_of_error hr'
    -- Both readers fail, and recovery takes them to the same place.
    obtain ⟨hnext, hsuits⟩ := recover_flowAt hu hrest hrest'
    have hsuffix : recover u rest <:+ u :=
      (nextEntry_suffix _).trans (resumption_before_suffix hrest)
    obtain ⟨place', hdrop, hsuits', -, -⟩ := hsuits.dropBlankLines
    rw [← hnext] at hdrop
    rw [read, hr, read, hr']
    refine ⟨⟨?_, rfl⟩, place', hdrop, hsuits'⟩
    refine .junk _ _ _ _ fun hshift => ?_
    change String.ofList (before (f.flowAt start u) (recover (f.flowAt start u) _)) =
      String.ofList (f.flow (String.ofList (before u (recover u rest))).toList)
    rw [hnext, String.toList_ofList, before_flow hshift hsuffix]
  · obtain ⟨place, rfl, hsuits, hreflowed⟩ := hentry
    obtain ⟨place', hdrop, hsuits', -, hsame⟩ := hsuits.dropBlankLines
    rw [read, hr, read, hr']
    refine ⟨⟨hreflowed, ?_⟩, place', hdrop, hsuits'⟩
    -- Whether the next block stands directly below is told from the lengths, which differ between
    -- the texts; that something is dropped does not.
    have hlength {v : List Char} :
        (dropBlankLines v).length = v.length ↔ dropBlankLines v = v :=
      ⟨(dropBlankLines_suffix v).eq_of_length, fun h => by rw [h]⟩
    have hempty : (dropBlankLines (f.flowAt place after)).isEmpty =
        (dropBlankLines after).isEmpty := by
      rw [Bool.eq_iff_iff, List.isEmpty_iff, List.isEmpty_iff, hdrop, f.flowAt_eq_nil]
    simp only [hlength, hsame, hempty]

/-- The blocks of the reflowed text are those of the text, reflowed. -/
theorem all_flowAt (offset offset' : Nat) (hu : f.Suits start u) :
    List.Forall₂ (Reflowed f) (all offset u) (all offset' (f.flowAt start u)) := by
  induction hn : u.length using Nat.strong_induction_on generalizing offset offset' start u with
  | _ n ih =>
    by_cases hne : u = []
    · subst hne
      rw [f.flowAt_nil]
      exact .nil
    · obtain ⟨hblock, place, hrest, hsuits⟩ := read_flowAt offset offset' hu
      rw [all_of_ne_nil offset hne, all_of_ne_nil offset' (mt f.flowAt_eq_nil.mp hne), hrest]
      exact .cons hblock (ih _ (hn ▸ read_length_lt offset hne) _ _ hsuits rfl)

/-- A comment joins a unit in both sources or in neither. -/
private theorem joined?_reflowed {a a' b b' : Block} (ha : a.Reflowed f a') (hb : b.Reflowed f b') :
    Option.Rel (Entry.Reflowed f) (joined? a b) (joined? a' b') := by
  obtain ⟨entry, meets⟩ := a
  obtain ⟨entry', meets'⟩ := a'
  obtain ⟨hentry, hmeets⟩ := ha
  obtain rfl : meets' = meets := hmeets
  cases hentry with
  | comment c =>
    obtain ⟨level, lines⟩ := c
    cases level with
    | entry =>
      cases meets' with
      | false => exact .none
      | true =>
        obtain ⟨unit, _⟩ := b
        obtain ⟨unit', _⟩ := b'
        obtain ⟨hunit, -⟩ := hb
        cases hunit with
        | message m span => exact .some (.message _ span)
        | term t span => exact .some (.term _ span)
        | comment c => exact .none
        | junk j => exact .none
    | group => exact .none
    | resource => exact .none
  | _ => exact .none

/-- Comments are joined to what follows in both texts alike. -/
theorem joinComments_reflowed : ∀ {blocks blocks' : List Block},
    List.Forall₂ (Reflowed f) blocks blocks' →
      List.Forall₂ (Entry.Reflowed f) (joinComments blocks) (joinComments blocks')
  | _, _, .nil => .nil
  | _, _, .cons ha .nil => by
    rw [joinComments_singleton, joinComments_singleton]
    exact .cons ha.entry .nil
  | _, _, .cons (a := a) (b := a') ha (.cons (a := b) (b := b') hb hrest) => by
    rw [joinComments_cons_cons, joinComments_cons_cons]
    have hjoined := joined?_reflowed ha hb
    have hnext := joinComments_reflowed (.cons hb hrest)
    have hbelow := joinComments_reflowed hrest
    generalize joined? a b = joined at hjoined
    generalize joined? a' b' = joined' at hjoined
    cases hjoined with
    | none => exact .cons ha.entry hnext
    | some hentry => exact .cons hentry hbelow

end Block

end Phrasebook
