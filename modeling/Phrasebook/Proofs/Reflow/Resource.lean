import Phrasebook.Proofs.Reflow.Blocks
import Phrasebook.Syntax.Equality

/-!
# Resources with other line ends and deeper lines

Which line end a source has makes no difference to what is read from it, and neither does the
indentation of the lines of an entry.
-/

namespace Phrasebook

open Text

/-! ## Resources -/

namespace Resource

/-- What is read from a reflowed source is the same but for its places. -/
theorem parse_flow {f : Reflow} {text : List Char} (h : f.Suits false text) :
    List.Forall₂ (Entry.Reflowed f) (parse (String.ofList text)).entries
      (parse (String.ofList (f.flow text))).entries := by
  obtain ⟨place, hdrop, hsuits, -, -⟩ := h.dropBlankLines
  rw [entries_parse, entries_parse, String.toList_ofList, String.toList_ofList, ← f.flowAt_false,
    hdrop]
  exact Block.joinComments_reflowed (Block.all_flowAt _ _ hsuits)

end Resource

namespace Entry

/-- The entry without the places where it stands. -/
def unplaced : Entry → Entry
  | .message m => .message { m with span := ⟨0, 0⟩ }
  | .term t => .term { t with span := ⟨0, 0⟩ }
  | .comment c => .comment c
  | .junk j => .junk ⟨j.content, ⟨j.diagnostic.problem, ⟨0, 0⟩⟩, ⟨0, 0⟩⟩

/-- The entry with other content, if it is junk. -/
def withContent (write : String → String) : Entry → Entry
  | .junk j => .junk { j with content := write j.content }
  | e => e

variable {f : Reflow} {e e' : Entry} {entries entries' : List Entry}

/-- Junk stays junk, and entries stay entries. -/
theorem Reflowed.isJunk_eq (h : e.Reflowed f e') : e'.isJunk = e.isJunk := by
  cases h <;> rfl

/-- An entry that is not junk changes its place only. -/
theorem Reflowed.unplaced_eq (h : e.Reflowed f e') (hjunk : e.isJunk = false) :
    e'.unplaced = e.unplaced := by
  cases h with
  | junk => contradiction
  | _ => rfl

/-- Without junk the entries are the same but for their places. -/
theorem unplaced_eq_of_reflowed (h : List.Forall₂ (Reflowed f) entries entries')
    (hjunk : ∀ e ∈ entries, e.isJunk = false) :
    entries'.map unplaced = entries.map unplaced := by
  induction h with
  | nil => rfl
  | cons he _ ih =>
    obtain ⟨hfirst, hrest⟩ := List.forall_mem_cons.mp hjunk
    rw [List.map_cons, List.map_cons, he.unplaced_eq hfirst, ih hrest]

/-- There is no junk in the one text exactly if there is none in the other. -/
theorem junk_of_reflowed (h : List.Forall₂ (Reflowed f) entries entries') :
    (∀ e ∈ entries, e.isJunk = false) ↔ ∀ e ∈ entries', e.isJunk = false := by
  induction h with
  | nil => simp
  | cons he _ ih => rw [List.forall_mem_cons, List.forall_mem_cons, ih, he.isJunk_eq]

end Entry

/-! ## Line ends -/

namespace Text

/-- A text with another line end in the place of each line feed. -/
def withLineEnd (lineEnd : List Char) (source : String) : String :=
  String.ofList (source.toList.flatMap fun c => if c = '\n' then lineEnd else [c])

end Text

/-- Where no line is moved, the line feeds are replaced one by one. -/
theorem Reflow.flow_eq_flatMap {f : Reflow} (h : f.shift = 0) (u : List Char) :
    f.flow u = u.flatMap fun c => if c = '\n' then f.lineEnd else [c] := by
  induction u with
  | nil => rfl
  | cons c u ih =>
    rw [List.flatMap_cons, ← ih]
    by_cases hc : c = '\n'
    · subst hc
      rw [flow_lineFeed, flowAt_of_shift_eq_zero h, if_pos rfl]
    · rw [flow_cons hc, if_neg hc]
      rfl

/-- Whichever line end is written in the place of line feeds, the same is read: the same entries and
the same problems, where the content of junk has the line ends of the source. -/
theorem Resource.parse_withLineEnd {lineEnd : List Char} (hend : LineEnd lineEnd) {source : String}
    (h : '\r' ∉ source.toList) :
    (parse (withLineEnd lineEnd source)).entries.map Entry.unplaced =
      (parse source).entries.map fun e => (e.withContent (withLineEnd lineEnd)).unplaced := by
  let f : Reflow := ⟨lineEnd, hend, 0⟩
  have hsuits : f.Suits false source.toList := ⟨h, .inl rfl⟩
  have hparse := parse_flow hsuits
  rw [String.ofList_toList, f.flow_eq_flatMap rfl] at hparse
  change List.Forall₂ (Entry.Reflowed f) (parse source).entries
    (parse (withLineEnd lineEnd source)).entries at hparse
  generalize (parse source).entries = entries at hparse ⊢
  generalize (parse (withLineEnd lineEnd source)).entries = entries' at hparse ⊢
  induction hparse with
  | nil => rfl
  | cons he _ ih =>
    rw [List.map_cons, List.map_cons, ih]
    cases he with
    | junk j content place span hcontent =>
      rw [hcontent rfl, f.flow_eq_flatMap rfl]
      rfl
    | _ => rfl

/-- A comment, a message with a select expression and an attribute, and junk. -/
def manyLines : String :=
  "# C\na =\n  x\n   \x7b $n ->\n *[k] v\n    w\n \x7d\n .b = y\n?\n"

/-- What is read from the lines, given the content of the junk. -/
def manyEntries (content : String) : List Entry := [
  .message {
    id := "a"
    value := some [.text "x\n",
      .placeable (.select (.variableRef "n") [⟨.name "k", [.text "v\nw"], true⟩])]
    attributes := [⟨"b", [.text "y"]⟩]
    comment := some ⟨.entry, ["C"]⟩
    span := ⟨0, 0⟩ },
  .junk ⟨content, ⟨.expectedCharRange .letters, ⟨0, 0⟩⟩, ⟨0, 0⟩⟩]

/-- The lines are read the same when they end in a carriage return and a line feed. -/
theorem Resource.parse_withLineEnd_both :
    (parse (withLineEnd ['\r', '\n'] manyLines)).entries.map Entry.unplaced =
      manyEntries "?\r\n" := by
  have hparse : ((parse manyLines).entries.map fun e =>
      (e.withContent (withLineEnd ['\r', '\n'])).unplaced) = manyEntries "?\r\n" := by
    decide +kernel
  exact (parse_withLineEnd .both (by decide +kernel)).trans hparse

/-! ## Indentation -/

namespace Text

/-- Lines that are indented by some number of spaces. -/
def linesAt (indent : Nat) (lines : List (List Char)) : List Char :=
  lines.flatMap fun line => List.replicate indent ' ' ++ line ++ ['\n']

/-- A line, and indented lines below it. -/
def stacked (indent : Nat) (head : List Char) (lines : List (List Char)) : String :=
  String.ofList (head ++ '\n' :: linesAt indent lines)

variable {head : List Char} {lines : List (List Char)}

/-- The first line stands behind its spaces and before the others. -/
theorem linesAt_cons (indent : Nat) (line : List Char) (lines : List (List Char)) :
    linesAt indent (line :: lines) =
      List.replicate indent ' ' ++ (line ++ '\n' :: linesAt indent lines) := by
  simp [linesAt]

/-- A line feed in a text is the one at the end of its first line, or stands below it. -/
theorem lineFeed_suffix {x v rest : List Char} (hx : ∀ c ∈ x, isBreak c = false)
    (h : '\n' :: rest <:+ x ++ '\n' :: v) : rest = v ∨ '\n' :: rest <:+ v := by
  induction x with
  | nil =>
    rcases List.suffix_cons_iff.mp h with h | h
    · exact .inl (List.cons.inj h).2
    · exact .inr h
  | cons c x ih =>
    rcases List.suffix_cons_iff.mp h with h | h
    · obtain ⟨rfl, -⟩ := List.cons.inj h
      exact absurd (hx _ List.mem_cons_self) (by decide)
    · exact ih (fun d hd => hx d (List.mem_cons_of_mem c hd)) h

end Text

namespace Reflow

variable {f : Reflow} {head : List Char} {lines : List (List Char)}

/-- A line that ends before suitable lines is suitable. -/
theorem Suits.line {x v : List Char} (hx : ∀ c ∈ x, isBreak c = false) (hv : f.Suits true v) :
    f.Suits false (x ++ '\n' :: v) where
  noReturn h := by
    rcases List.mem_append.mp h with h | h
    · exact absurd (hx _ h) (by decide)
    · exact hv.noReturn ((List.mem_cons.mp h).resolve_left (by decide))
  indented := hv.indented.imp_right fun hlines => by
    refine ⟨by rintro ⟨⟩, fun rest hrest => ?_⟩
    rcases lineFeed_suffix hx hrest with rfl | hrest
    · exact hlines.1 rfl
    · exact hlines.2 rest hrest

/-- Lines behind one space each are suited. -/
theorem suits_linesAt_one (h : ∀ line ∈ lines, ∀ c ∈ line, isBreak c = false) :
    f.Suits true (linesAt 1 lines) := by
  induction lines with
  | nil => exact suits_nil
  | cons line lines ih =>
    obtain ⟨hline, hlines⟩ := List.forall_mem_cons.mp h
    rw [linesAt_cons]
    have hspace : ∀ c ∈ ' ' :: line, isBreak c = false :=
      List.forall_mem_cons.mpr ⟨rfl, hline⟩
    have hinLine := Suits.line hspace (ih hlines)
    refine ⟨hinLine.noReturn, hinLine.indented.imp_right fun hlines => ⟨fun _ => ?_, hlines.2⟩⟩
    rintro _ ⟨⟩
    rfl

/-- Lines that are indented by one space are moved to where they are indented by more. -/
theorem flowAt_linesAt_one {k : Nat} (h : ∀ line ∈ lines, ∀ c ∈ line, isBreak c = false) :
    (Reflow.mk ['\n'] .newline k).flowAt true (linesAt 1 lines) = linesAt (k + 1) lines := by
  induction lines with
  | nil => rfl
  | cons line lines ih =>
    obtain ⟨hline, hlines⟩ := List.forall_mem_cons.mp h
    rw [linesAt_cons, linesAt_cons, flowAt, if_pos rfl, margin, if_neg (by simp),
      List.replicate_one, List.singleton_append, flow_cons (by decide), flow_append hline,
      flow_lineFeed, ih hlines, List.replicate_succ']
    simp

/-- The lines below the first one are moved. -/
theorem flow_stacked {k : Nat} (hhead : ∀ c ∈ head, isBreak c = false)
    (h : ∀ line ∈ lines, ∀ c ∈ line, isBreak c = false) :
    (Reflow.mk ['\n'] .newline k).flow (head ++ '\n' :: linesAt 1 lines) =
      head ++ '\n' :: linesAt (k + 1) lines := by
  rw [flow_append hhead, flow_lineFeed, flowAt_linesAt_one h]
  rfl

end Reflow

namespace Resource

variable {n m : Nat} {head : List Char} {lines : List (List Char)}

/-- A resource has no junk if none of its entries is junk. -/
theorem junk_eq_nil_iff (r : Resource) : r.junk = [] ↔ ∀ e ∈ r.entries, e.isJunk = false := by
  rw [junk, List.filterMap_eq_nil_iff]
  refine forall₂_congr fun e _ => ?_
  cases e <;> simp [Entry.isJunk]

/-- Lines that are indented by one space, and by more. -/
private theorem parse_stacked_one (hn : 1 ≤ n) (hhead : ∀ c ∈ head, isBreak c = false)
    (hlines : ∀ line ∈ lines, ∀ c ∈ line, isBreak c = false) :
    List.Forall₂ (Entry.Reflowed ⟨['\n'], .newline, n - 1⟩) (parse (stacked 1 head lines)).entries
      (parse (stacked n head lines)).entries := by
  have hparse := parse_flow (f := ⟨['\n'], .newline, n - 1⟩)
    (Reflow.Suits.line hhead (Reflow.suits_linesAt_one hlines))
  rw [Reflow.flow_stacked hhead hlines, Nat.sub_add_cancel hn] at hparse
  exact hparse

/-- If there is no junk in an entry, or in several, whose lines but the first are indented, the same
is read whatever the indentation is. -/
theorem parse_stacked (hn : 1 ≤ n) (hm : 1 ≤ m) (hhead : ∀ c ∈ head, isBreak c = false)
    (hlines : ∀ line ∈ lines, ∀ c ∈ line, isBreak c = false)
    (hjunk : (parse (stacked n head lines)).junk = []) :
    (parse (stacked m head lines)).entries.map Entry.unplaced =
      (parse (stacked n head lines)).entries.map Entry.unplaced := by
  have hone := parse_stacked_one hn hhead hlines
  have hother := parse_stacked_one hm hhead hlines
  have hnone := (Entry.junk_of_reflowed hone).mpr ((junk_eq_nil_iff _).mp hjunk)
  rw [Entry.unplaced_eq_of_reflowed hone hnone, Entry.unplaced_eq_of_reflowed hother hnone]

/-- The lines of a message below its name. -/
def messageLines : List (List Char) :=
  ["b", "  c", "", "\x7b $n ->", "*[k] v", "  w", "\x7d", ".d = e"].map String.toList

/-- The message with these lines. -/
def linedMessage : Message where
  id := "a"
  value := some [.text "b\n  c\n\n",
    .placeable (.select (.variableRef "n") [⟨.name "k", [.text "v\nw"], true⟩])]
  attributes := [⟨"d", [.text "e"]⟩]
  comment := none
  span := ⟨0, 0⟩

/-- The message is read from lines behind four spaces too. -/
theorem parse_stacked_select :
    (parse (stacked 4 "a =".toList messageLines)).entries.map Entry.unplaced =
      [.message linedMessage] := by
  have hone : (parse (stacked 1 "a =".toList messageLines)).entries.map Entry.unplaced =
      [.message linedMessage] := by decide +kernel
  exact (parse_stacked (n := 1) le_rfl (by decide) (by simp [Text.isBreak])
    (by simp [messageLines, Text.isBreak]) (List.isEmpty_iff.mp (by decide +kernel))).trans hone

end Resource

end Phrasebook
