import Mathlib.Data.List.Basic
import Phrasebook.Syntax.Printer

/-!
# Writing pieces one after the other

What a sequence of pieces writes is told by two things: its text, and whether the output stands at
the start of a line behind it. Both compose along the sequence.
-/

namespace Phrasebook

/-- No line of a text is empty of everything, its line feed included. -/
theorem Text.ne_nil_of_mem_lines {text line : List Char} (h : line ∈ Text.lines text) :
    line ≠ [] := by
  induction text generalizing line with
  | nil => cases h
  | cons c rest ih =>
    rw [Text.lines] at h
    split at h
    · rcases List.mem_cons.mp h with rfl | h
      · exact List.cons_ne_nil _ _
      · exact ih h
    · split at h
      · rw [List.mem_singleton.mp h]
        exact List.cons_ne_nil _ _
      · next first others hlines =>
        rcases List.mem_cons.mp h with rfl | h
        · exact List.cons_ne_nil _ _
        · exact ih (hlines ▸ List.mem_cons_of_mem _ h)

namespace Piece

/-- Whether the output stands at the start of a line behind pieces. -/
def endsLine : (lineStart : Bool) → List Piece → Bool
  | lineStart, [] => lineStart
  | lineStart, piece :: rest =>
    if piece.text.isEmpty then endsLine lineStart rest
    else endsLine (piece.text.getLast? == some '\n') rest

/-- Pieces are laid out one after the other. -/
theorem layout_append (lineStart : Bool) (pieces rest : List Piece) :
    layout lineStart (pieces ++ rest) =
      layout lineStart pieces ++ layout (endsLine lineStart pieces) rest := by
  induction pieces generalizing lineStart with
  | nil => rfl
  | cons piece pieces ih =>
    by_cases hempty : piece.text.isEmpty
    · simp only [List.cons_append, layout, endsLine, if_pos hempty, ih]
    · simp only [List.cons_append, layout, endsLine, if_neg hempty, ih, List.append_assoc]

/-- Whether a line ends behind two lists of pieces is told one after the other. -/
theorem endsLine_append (lineStart : Bool) (pieces rest : List Piece) :
    endsLine lineStart (pieces ++ rest) = endsLine (endsLine lineStart pieces) rest := by
  induction pieces generalizing lineStart with
  | nil => rfl
  | cons piece pieces ih =>
    by_cases hempty : piece.text.isEmpty
    · simp only [List.cons_append, endsLine, if_pos hempty, ih]
    · simp only [List.cons_append, endsLine, if_neg hempty, ih]

/-- Pieces write a text, and leave the output at the start of a line or not. -/
structure Writes (lineStart : Bool) (pieces : List Piece) (text : List Char) (ends : Bool) :
    Prop where
  layout : layout lineStart pieces = text
  endsLine : endsLine lineStart pieces = ends

variable {lineStart mid ends : Bool} {pieces rest : List Piece} {text tail : List Char}

/-- Nothing is written for no pieces. -/
theorem writes_nil : Writes lineStart [] [] lineStart := ⟨rfl, rfl⟩

/-- What is written for two lists of pieces stands one after the other. -/
theorem Writes.append (h : Writes lineStart pieces text mid) (h' : Writes mid rest tail ends) :
    Writes lineStart (pieces ++ rest) (text ++ tail) ends :=
  ⟨by rw [layout_append, h.layout, h.endsLine, h'.layout],
    by rw [endsLine_append, h.endsLine, h'.endsLine]⟩

/-- Pieces that are followed by others write the same text before them. -/
theorem Writes.layout_append (h : Writes lineStart pieces text mid) (rest : List Piece) :
    Piece.layout lineStart (pieces ++ rest) = text ++ Piece.layout mid rest := by
  rw [Piece.layout_append, h.layout, h.endsLine]

/-- A piece for a line feed is written as one. -/
@[simp] theorem writes_newline : Writes lineStart [newline] ['\n'] true := by
  constructor
  · cases lineStart <;> rfl
  · rfl

/-- A piece inside a line writes its text. -/
theorem writes_inline {piece : Piece} (h : '\n' ∉ piece.text) :
    Writes false [piece] piece.text false := by
  by_cases hempty : piece.text.isEmpty
  · rw [List.isEmpty_iff] at hempty
    constructor <;> simp [Piece.layout, Piece.endsLine, hempty]
  · have hlast : (piece.text.getLast? == some '\n') = false := by
      rw [beq_eq_false_iff_ne]
      intro hlast
      exact h (List.mem_of_getLast? hlast)
    constructor <;> simp [Piece.layout, Piece.endsLine, hempty, hlast]

/-- A piece at the start of a line is indented to its column. -/
theorem writes_lineStart {piece : Piece} (hne : piece.text ≠ []) (h : '\n' ∉ piece.text) :
    Writes true [piece] (List.replicate piece.column ' ' ++ piece.text) false := by
  have hempty : ¬piece.text.isEmpty := by simpa using hne
  have hlast : (piece.text.getLast? == some '\n') = false := by
    rw [beq_eq_false_iff_ne]
    intro hlast
    exact h (List.mem_of_getLast? hlast)
  constructor <;> simp [Piece.layout, Piece.endsLine, hempty, hlast]

/-- At the start of a line the first piece is indented. -/
theorem layout_lineStart {piece : Piece} (h : piece.text ≠ []) (rest : List Piece) :
    Piece.layout true (piece :: rest) =
      List.replicate piece.column ' ' ++ Piece.layout false (piece :: rest) := by
  have hempty : ¬piece.text.isEmpty := by simpa using h
  simp [Piece.layout, hempty]

/-! ## Text that is written line by line -/

section Lines

variable (column : Nat)

/-- What the lines of a text write, with the column at which each of them begins. -/
def flow : (lineStart : Bool) → List Char → List Char
  | _, [] => []
  | lineStart, c :: rest =>
    if c = '\n' then c :: flow true rest
    else (if lineStart then List.replicate column ' ' else []) ++ c :: flow false rest

/-- Whether the output stands at the start of a line behind a text. -/
def textEndsLine : (lineStart : Bool) → List Char → Bool
  | lineStart, [] => lineStart
  | _, c :: rest => textEndsLine (c = '\n') rest

/-- A text flows on behind another. -/
theorem flow_append (text rest : List Char) :
    flow column lineStart (text ++ rest) =
      flow column lineStart text ++ flow column (textEndsLine lineStart text) rest := by
  induction text generalizing lineStart with
  | nil => rfl
  | cons c text ih =>
    by_cases hc : c = '\n'
    · simp [flow, textEndsLine, hc, ih]
    · simp [flow, textEndsLine, hc, ih]

/-- Whether a line ends behind two texts is told one after the other. -/
theorem textEndsLine_append (text rest : List Char) :
    textEndsLine lineStart (text ++ rest) = textEndsLine (textEndsLine lineStart text) rest := by
  induction text generalizing lineStart with
  | nil => rfl
  | cons c text ih => exact ih

/-- Text inside a line is written as it is. -/
theorem flow_false_of_not_mem {text : List Char} (h : '\n' ∉ text) :
    flow column false text = text ∧ textEndsLine false text = false := by
  induction text with
  | nil => exact ⟨rfl, rfl⟩
  | cons c rest ih =>
    rw [List.mem_cons, not_or] at h
    have hc : c ≠ '\n' := Ne.symm h.1
    obtain ⟨hflow, hends⟩ := ih h.2
    exact ⟨by simp [flow, hc, hflow], by simp [textEndsLine, hc, hends]⟩

/-- A text inside one line stands behind its column if it begins the line. -/
theorem flow_of_not_mem {text : List Char} (hne : text ≠ []) (h : '\n' ∉ text) :
    flow column lineStart text = (if lineStart then List.replicate column ' ' else []) ++ text ∧
      textEndsLine lineStart text = false := by
  obtain ⟨c, rest, rfl⟩ := List.exists_cons_of_ne_nil hne
  rw [List.mem_cons, not_or] at h
  have hc : c ≠ '\n' := Ne.symm h.1
  obtain ⟨hflow, hends⟩ := flow_false_of_not_mem column h.2
  exact ⟨by simp [flow, hc, hflow], by simp [textEndsLine, hc, hends]⟩

/-- A line stands behind its column unless it is empty. -/
theorem flow_line {content line : List Char} {newline : Bool}
    (hline : line = content ++ if newline then ['\n'] else []) (h : '\n' ∉ content)
    (hnil : newline = false → content ≠ []) :
    flow column lineStart line =
        (if lineStart && line != ['\n'] then List.replicate column ' ' ++ line else line) ∧
      textEndsLine lineStart line = newline := by
  by_cases hempty : content = []
  · have hnewline : newline = true := by
      rw [← Bool.not_eq_false]
      exact fun hnewline => hnil hnewline hempty
    rw [hempty, hnewline] at hline
    subst hline
    exact ⟨by simp [flow], by rw [hnewline]; rfl⟩
  · have hinside : flow column lineStart content = _ ∧ textEndsLine lineStart content = false :=
      flow_of_not_mem column hempty h
    obtain ⟨hflow, hends⟩ := hinside
    have hkept : line ≠ ['\n'] := by
      rintro rfl
      cases newline with
      | true => exact hempty (by simpa using hline)
      | false => exact h (by simp at hline; simp [← hline])
    subst hline
    rw [flow_append, textEndsLine_append, hflow, hends]
    cases newline <;> cases lineStart <;> simp_all [flow, textEndsLine]

/-- A line that is made longer at its front moves what it writes, and not what follows it. -/
private theorem writes_longer {piece : Piece} {line : List Char} {c : Char} {rest : List Piece}
    (hpiece : piece.text = line) (hne : line ≠ []) (h : Writes false (piece :: rest) text ends) :
    Writes lineStart (⟨column, c :: line⟩ :: rest)
      ((if lineStart then List.replicate column ' ' else []) ++ c :: text) ends := by
  subst hpiece
  have hempty : ¬piece.text.isEmpty := by simpa using hne
  have hlast : (c :: piece.text).getLast? = piece.text.getLast? :=
    List.getLast?_cons_of_ne_nil hne
  obtain ⟨hlayout, hends⟩ := h
  simp only [Piece.layout, Piece.endsLine, if_neg hempty] at hlayout hends
  constructor
  · simp [Piece.layout, hlast, ← hlayout]
  · simpa [Piece.endsLine, hlast] using hends

/-- A text is written line by line. -/
theorem writes_lines (value : String) :
    Writes lineStart (lines column value) (flow column lineStart value.toList)
      (textEndsLine lineStart value.toList) := by
  rw [lines]
  generalize value.toList = text
  induction text generalizing lineStart with
  | nil => exact writes_nil
  | cons c rest ih =>
    by_cases hc : c = '\n'
    · subst hc
      have hnewline : Writes lineStart [newline] ['\n'] true := writes_newline
      simpa [Text.lines, flow, textEndsLine] using hnewline.append ih
    simp only [Text.lines, flow, textEndsLine, if_neg hc, decide_eq_false hc]
    have hrest : Writes false _ (flow column false rest) (textEndsLine false rest) := ih
    rcases hlines : Text.lines rest with _ | ⟨line, others⟩
    · obtain rfl : rest = [] := by rw [← Text.flatten_lines rest, hlines, List.flatten_nil]
      constructor
      · simp [Piece.layout, flow, hc]
      · simp [Piece.endsLine, textEndsLine, hc]
    · have hne : line ≠ [] := Text.ne_nil_of_mem_lines (by rw [hlines]; exact List.mem_cons_self)
      have hlonger : c :: line ≠ ['\n'] := by
        rintro heq
        exact hc (List.cons.inj heq).1
      rw [hlines, List.map_cons] at hrest
      rw [List.map_cons, if_neg hlonger]
      refine writes_longer column ?_ hne hrest
      split
      · next h => rw [h]; rfl
      · rfl

/-- Texts are written one after the other as the text that they make up. -/
theorem writes_lines_append (lineStart : Bool) (value next : String) :
    layout lineStart (lines column (value ++ next)) =
        layout lineStart (lines column value ++ lines column next) ∧
      endsLine lineStart (lines column (value ++ next)) =
        endsLine lineStart (lines column value ++ lines column next) := by
  have hwhole : Writes lineStart (lines column (value ++ next)) _ _ := writes_lines column _
  have hparts : Writes lineStart (lines column value ++ lines column next) _ _ :=
    (writes_lines column value).append (writes_lines column next)
  rw [String.toList_append, flow_append, textEndsLine_append] at hwhole
  exact ⟨hwhole.layout.trans hparts.layout.symm, hwhole.endsLine.trans hparts.endsLine.symm⟩

end Lines

end Piece

end Phrasebook
