import Phrasebook.Proofs.Reflow.Reading

/-!
# Patterns side by side

Lines that are moved to the right are read with a larger indentation, and what they share is larger
by the same number of spaces. What is left of it in the pattern is the same.
-/

namespace Phrasebook

open Text

namespace Segment

/-- The segment of a line that is moved. -/
def moved (k : Nat) : Segment → Segment
  | text indent content newline => text (indent.map (k + ·)) content newline
  | placeable atMargin expression => placeable atMargin expression

/-- A placeable at the margin of a line is not on a line that is moved. -/
def Movable (k : Nat) (segment : Segment) : Prop := k = 0 ∨ segment.margin? ≠ some 0

variable {k : Nat} {segment : Segment} {segments : List Segment}

/-- Text can be moved if it does not stand at the margin, or lines are not moved. -/
theorem movable_text {indent : Option Nat} {content : List Char} {newline : Bool}
    (h : k = 0 ∨ indent ≠ some 0) : Movable k (text indent content newline) := by
  refine h.imp_right fun hindent => ?_
  rcases indent with _ | indent
  · simp [margin?]
  · rw [margin?]
    split
    · simp
    · exact hindent

/-- A placeable can be moved if it does not stand at the margin, or lines are not moved. -/
theorem movable_placeable {atMargin : Bool} {e : Expression} (h : atMargin = true → k = 0) :
    Movable k (placeable atMargin e) := by
  cases atMargin with
  | true => exact .inl (h rfl)
  | false => exact .inr (by simp [margin?])

/-- A segment that is moved stays blank or not. -/
@[simp] theorem isBlank_moved (k : Nat) (segment : Segment) :
    (segment.moved k).isBlank = segment.isBlank := by
  cases segment <;> rfl

/-- A segment that is moved ends a line as before. -/
@[simp] theorem endsLine_moved (k : Nat) (segment : Segment) :
    (segment.moved k).endsLine = segment.endsLine := by
  cases segment <;> rfl

/-- The margin of a segment that is moved grows by as much. -/
theorem Movable.margin?_moved (h : segment.Movable k) :
    (segment.moved k).margin? = segment.margin?.map (k + ·) := by
  rcases segment with ⟨_ | indent, content, newline⟩ | ⟨atMargin, e⟩
  · rfl
  · by_cases hblank : content.all (· == ' ') <;> simp [moved, margin?, hblank]
  · cases atMargin with
    | false => rfl
    | true =>
      rcases h with rfl | hmargin
      · rfl
      · exact absurd rfl hmargin

/-- Taking away what is shared gives what it gives where nothing is moved. -/
theorem element_moved (k : Nat) (common : Option Nat) (segment : Segment) :
    element (common.map (k + ·)) (segment.moved k) = element common segment := by
  rcases segment with ⟨_ | indent, content, newline⟩ | ⟨atMargin, e⟩
  · rfl
  · have hremaining : remainingIndent (common.map (k + ·)) (some (k + indent)) =
        remainingIndent common (some indent) := by
      cases common with
      | none => simp [remainingIndent]
      | some common =>
        simp only [remainingIndent, Option.map_some, Option.getD_some]
        congr 1
        omega
    simp only [moved, element, Option.map_some, hremaining]
  · rfl

end Segment

/-- The same pattern is made of lines that are moved. -/
theorem Pattern.ofSegments?_moved {k : Nat} {segments : List Segment}
    (h : ∀ s ∈ segments, s.Movable k) :
    ofSegments? (segments.map (Segment.moved k)) = ofSegments? segments := by
  have hkept : dropEndWhile Segment.isBlank (segments.map (Segment.moved k)) =
      (dropEndWhile Segment.isBlank segments).map (Segment.moved k) := by
    have hblank : Segment.isBlank ∘ Segment.moved k = Segment.isBlank :=
      funext fun s => s.isBlank_moved k
    rw [dropEndWhile, dropEndWhile, ← List.map_reverse, List.dropWhile_map, hblank,
      ← List.map_reverse]
  have hcommon : Segment.commonIndent (segments.map (Segment.moved k)) =
      (Segment.commonIndent segments).map (k + ·) :=
    Segment.commonIndent_map fun s hs => (h s hs).margin?_moved
  have helement : Segment.element ((Segment.commonIndent segments).map (k + ·)) ∘ Segment.moved k =
      Segment.element (Segment.commonIndent segments) :=
    funext fun s => s.element_moved k _
  simp only [ofSegments?, hkept, hcommon, List.isEmpty_map, List.map_map, helement]

namespace Reader

variable {f : Reflow} {start : Bool} {u : List Char}

/-! ## Segments -/

/-- No line break stands in text. -/
theorem isBreak_not_isTextChar (c : Char) (h : isBreak c = true) : isTextChar c = false := by
  simp [isTextChar, h]

/-- The same text is read behind both indentations. -/
private theorem parallel_textSegment (indent indent' : Option Nat) (hu : f.Suits false u) :
    Parallel f (fun s s' place _ => ∃ content newline, s = .text indent content newline ∧
        s' = .text indent' content newline ∧ place = newline)
      (textSegment indent) (textSegment indent') false u := by
  obtain ⟨htake, hdrop⟩ := hu.span_flow isBreak_not_isTextChar
  have hrest : f.Suits false (u.dropWhile isTextChar) := hu.of_suffix (List.dropWhile_suffix _)
  have hline := textSegment_apply indent u
  have hflow := textSegment_apply indent' (f.flowAt false u)
  rw [f.flowAt_false, hdrop, htake, ← f.flowAt_false, ← f.flowAt_false, hrest.afterLineEnd?]
    at hflow
  simp only [hrest.head?_flowAt (c := '}') (by decide)] at hflow
  by_cases hbrace : (u.dropWhile isTextChar).head? = some '}'
  · rw [if_pos hbrace] at hline hflow
    exact parallel_error hline hflow
  rw [if_neg hbrace] at hline hflow
  cases he : afterLineEnd? (u.dropWhile isTextChar) with
  | some after =>
    rw [he] at hline hflow
    exact parallel_ok hline hflow (hrest.of_afterLineEnd? he) ⟨_, _, rfl, rfl, rfl⟩
  | none =>
    rw [he] at hline hflow
    exact parallel_ok hline hflow hrest ⟨_, _, rfl, rfl, rfl⟩

/-- The next segments belong together, and both or neither end a line. -/
def NextMoved (f : Reflow) (next next' : Option Segment) (place : Bool) (_ : List Char) : Prop :=
  next' = next.map (Segment.moved f.shift) ∧
    ∀ s ∈ next, s.Movable f.shift ∧ place = s.endsLine

private theorem parallel_text (indent : Option Nat) (h : f.shift = 0 ∨ indent ≠ some 0)
    (hu : f.Suits false u) :
    Parallel f (NextMoved f) (textSegment indent >>= fun segment => pure (some segment))
      (textSegment (indent.map (f.shift + ·)) >>= fun segment => pure (some segment)) false u := by
  refine (parallel_textSegment _ _ hu).bind fun s s' place w hw hs => ?_
  obtain ⟨content, newline, rfl, rfl, rfl⟩ := hs
  refine parallel_pure hw ⟨rfl, ?_⟩
  rintro _ ⟨⟩
  exact ⟨Segment.movable_text h, rfl⟩

section Placeable

variable {placeable : Reader Expression}

private theorem parallel_placeable (h : Steady f placeable) (atMargin : Bool)
    (hmargin : atMargin = true → f.shift = 0) (hu : f.Suits false u) :
    Parallel f (NextMoved f) (placeable >>= fun e => pure (some (.placeable atMargin e)))
      (placeable >>= fun e => pure (some (.placeable atMargin e))) false u := by
  refine (h hu).bind_inside fun e w hw => parallel_pure hw ⟨rfl, ?_⟩
  rintro _ ⟨⟩
  exact ⟨Segment.movable_placeable hmargin, rfl⟩

private theorem inLine_of_ne {u : List Char} (hne : u ≠ []) (hbrace : u.head? ≠ some '{') :
    inLine placeable u = (textSegment none >>= fun segment => pure (some segment)) u := by
  obtain ⟨c, u, rfl⟩ := List.exists_cons_of_ne_nil hne
  rw [inLine_cons, if_neg (by simpa using hbrace)]

private theorem parallel_inLine (h : Steady f placeable) (hu : f.Suits false u) :
    Parallel f (NextMoved f) (inLine placeable) (inLine placeable) false u := by
  have hhead := hu.head?_flowAt (c := '{') (by decide)
  by_cases hne : u = []
  · subst hne
    exact parallel_ok_inside rfl rfl hu ⟨rfl, by rintro _ ⟨⟩⟩
  by_cases hbrace : u.head? = some '{'
  · obtain ⟨w, rfl⟩ := List.head?_eq_some_iff.mp hbrace
    refine (parallel_placeable h false (by rintro ⟨⟩) hu.tail).of_eq rfl ?_
    rw [f.flowAt_false, f.flow_cons (by decide)]
    rfl
  · refine (parallel_text none (.inr (by simp)) hu).of_eq (inLine_of_ne hne hbrace)
      (inLine_of_ne (mt f.flowAt_eq_nil.mp hne) (mt hhead.mp hbrace))

/-- A blank line is text behind its indentation. -/
private theorem atLine_of_break {c : Char} {rest : List Char}
    (hd : u.dropWhile (· == ' ') = c :: rest) (hc : isBreak c = true) :
    atLine placeable u =
      (textSegment (some (u.takeWhile (· == ' ')).length) >>= fun segment => pure (some segment))
        (c :: rest) := by
  have hbrace : c ≠ '{' := by rintro rfl; contradiction
  have hends : endsPattern c = false := by rcases isBreak_iff.mp hc with rfl | rfl <;> rfl
  rw [atLine_apply, hd]
  by_cases hindent : (u.takeWhile (· == ' ')).length = 0
  · simp [hbrace, hindent, hc]
  · simp [hbrace, hindent, hends]

private theorem parallel_atLine (h : Steady f placeable) (hu : f.Suits true u) :
    Parallel f (NextMoved f) (atLine placeable) (atLine placeable) true u := by
  have hrest : f.Suits false (u.dropWhile (· == ' ')) := hu.of_suffix (List.dropWhile_suffix _)
  have hline := atLine_apply placeable u
  have hflow := atLine_apply placeable (f.flowAt true u)
  rw [hu.dropWhile_space] at hflow
  rcases hd : u.dropWhile (· == ' ') with _ | ⟨c, rest⟩
  · rw [hd] at hline hflow
    exact parallel_ok_inside hline hflow f.suits_nil ⟨rfl, by rintro _ ⟨⟩⟩
  have hne : u ≠ [] := by
    rintro rfl
    contradiction
  have hindent := hu.length_takeWhile_space hne
  rw [if_pos rfl, Nat.add_comm] at hindent
  rw [hd] at hrest
  -- Lines are moved only if all of them are indented, so what stands at the margin still does.
  have hcolumn : f.shift = 0 ∨ (u.takeWhile (· == ' ')).length ≠ 0 := by
    refine hu.indented.imp_right fun hlines => ?_
    obtain ⟨d, w, rfl⟩ := List.exists_cons_of_ne_nil hne
    obtain rfl := hlines.1 rfl d rfl
    simp
  -- An empty line is a segment in both texts, and the only case in which the line end itself is
  -- read.
  by_cases hc : c = '\n'
  · subst hc
    obtain ⟨d, e, hlineEnd, hbreak⟩ := f.isLineEnd.exists_cons
    have hdrop : (f.flowAt true u).dropWhile (· == ' ') = d :: (e ++ f.flowAt true rest) := by
      rw [hu.dropWhile_space, hd, f.flow_lineFeed, hlineEnd, List.cons_append]
    refine (parallel_text (some (u.takeWhile (· == ' ')).length) ?_ hrest).of_eq
      (atLine_of_break hd rfl) ?_
    · exact hcolumn.imp_right fun hindent => by simpa using hindent
    · rw [atLine_of_break hdrop hbreak, hindent, f.flowAt_false, f.flow_lineFeed, hlineEnd]
      rfl
  rw [hd] at hline hflow
  rw [f.flow_cons hc, hindent] at hflow
  dsimp only at hline hflow
  have hbreak : ¬ isBreak c := fun hbreak => hc (hrest.eq_lineFeed hbreak)
  have hmargin : f.shift + (u.takeWhile (· == ' ')).length = 0 ↔
      (u.takeWhile (· == ' ')).length = 0 := by omega
  simp only [hmargin] at hflow
  generalize (u.takeWhile (· == ' ')).length = indent at hline hflow hcolumn
  split_ifs at hline hflow with hbrace hzero hends
  · refine (parallel_placeable h _ (fun hat => ?_) hrest.tail).of_eq hline hflow
    exact hcolumn.resolve_right (not_not.mpr (by simpa using hat))
  · rw [← f.flow_cons hc, ← f.flowAt_false] at hflow
    exact parallel_ok hline hflow hrest ⟨rfl, by rintro _ ⟨⟩⟩
  · exact parallel_ok hline hflow hu ⟨rfl, by rintro _ ⟨⟩⟩
  · refine (parallel_text (some indent) ?_ hrest).of_eq hline ?_
    · exact .inr (by simpa using hzero)
    · rw [f.flowAt_false, f.flow_cons hc]
      exact hflow

/-! ## Patterns -/

/-- The segments so far belong together, and the next one stands at the start of a line if it does
so in both texts. -/
def ReadMoved (f : Reflow) (startsLine : Bool) (read read' : List Segment) (place : Bool)
    (_ : List Char) : Prop :=
  read' = read.map (Segment.moved f.shift) ∧ (∀ s ∈ read, s.Movable f.shift) ∧
    place = atLineStart startsLine read

private theorem atLineStart_moved (startsLine : Bool) (read : List Segment) :
    atLineStart startsLine (read.map (Segment.moved f.shift)) = atLineStart startsLine read := by
  rcases read with _ | ⟨_ | _, read⟩ <;> rfl

private theorem parallel_segmentStep (h : Steady f placeable) {startsLine : Bool}
    {read read' : List Segment} (hread : ReadMoved f startsLine read read' start u)
    (hu : f.Suits start u) :
    Parallel f (Outcomes (ReadMoved f startsLine) fun segments segments' _ _ =>
        segments' = segments.map (Segment.moved f.shift) ∧ ∀ s ∈ segments, s.Movable f.shift)
      (segmentStep placeable startsLine read) (segmentStep placeable startsLine read') start u := by
  obtain ⟨rfl, hmovable, rfl⟩ := hread
  have hnext : Parallel f (NextMoved f) (nextSegment placeable startsLine read)
      (nextSegment placeable startsLine (read.map (Segment.moved f.shift)))
      (atLineStart startsLine read) u := by
    unfold nextSegment
    rw [atLineStart_moved]
    cases hstart : atLineStart startsLine read
    · rw [hstart] at hu
      exact parallel_inLine h hu
    · rw [hstart] at hu
      exact parallel_atLine h hu
  rw [segmentStep_eq, segmentStep_eq]
  refine hnext.bind fun next next' place w hw hmoved => ?_
  obtain ⟨rfl, hsegment⟩ := hmoved
  cases next with
  | none =>
    refine parallel_pure hw ⟨(List.map_reverse ..).symm, fun s hs => ?_⟩
    exact hmovable s (List.mem_reverse.mp hs)
  | some segment =>
    obtain ⟨hsegment, hplace⟩ := hsegment segment rfl
    refine parallel_pure hw ⟨rfl, ?_, ?_⟩
    · exact List.forall_mem_cons.mpr ⟨hsegment, hmovable⟩
    · rw [hplace]
      cases segment <;> rfl

/-- Patterns side by side are the same. -/
theorem parallel_pattern (h : Steady f placeable) (hc : Contained placeable)
    (hu : f.Suits false u) :
    Parallel f Same (pattern placeable) (pattern placeable) false u := by
  have hloop {startsLine : Bool} {w : List Char} (hw : f.Suits startsLine w) :
      Parallel f Same
        (loop (segmentStep placeable startsLine) [] >>= fun segments =>
          pure (Pattern.ofSegments? segments))
        (loop (segmentStep placeable startsLine) [] >>= fun segments =>
          pure (Pattern.ofSegments? segments)) startsLine w := by
    have hempty : ReadMoved f startsLine [] [] startsLine w := ⟨rfl, by simp, rfl⟩
    have hsteps := Parallel.loop (advances_segmentStep hc startsLine)
      (advances_segmentStep hc startsLine)
      (fun read read' start u hu hread => parallel_segmentStep h hread hu) hw hempty
    refine hsteps.bind fun segments segments' place w hw hmoved => ?_
    obtain ⟨rfl, hmovable⟩ := hmoved
    exact parallel_pure hw (Pattern.ofSegments?_moved hmovable)
  refine (parallel_skipSpaces hu).bind fun _ _ place w hw hplace => ?_
  subst hplace
  refine (parallel_acceptLineEnd hw).bind fun startsLine startsLine' place w hw hended => ?_
  obtain ⟨rfl, hplace⟩ := hended
  rw [Bool.or_false] at hplace
  subst hplace
  cases place with
  | false => exact hloop hw
  | true =>
    refine (parallel_skipBlankLines hw).bind fun _ _ place w hw hplace => ?_
    subst hplace
    exact hloop hw

end Placeable

end Reader

end Phrasebook
