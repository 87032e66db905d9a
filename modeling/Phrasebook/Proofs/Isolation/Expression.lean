import Phrasebook.Proofs.Isolation.Segment

/-!
# Expressions before a seam

Inside braces and parentheses blanks are skipped, line ends among them, so that an expression left
open at the end of a source does read on into the entry that follows. It takes the name of a unit
for a reference and comes to the `=` behind it, where no construct goes on. Whatever is open fails
there, on the first line of the unit, or at the mark of a comment.
-/

namespace Phrasebook.Reader

open Text

variable {u v : List Char}

/-! ## What stands at the seam -/

/-- What is ahead on a line stays so when more of the line is read. -/
theorem Ahead.drop {x y : List Char} (h : Ahead v (x ++ y)) (hx : ∀ c ∈ x, isBreak c = false) :
    Ahead v y := by
  obtain ⟨front, rfl, hfront⟩ := h
  refine ⟨front ++ x, (List.append_assoc ..).symm, fun c hc => ?_⟩
  rcases List.mem_append.mp hc with hc | hc
  · exact hfront c hc
  · exact hx c hc

/-- The beginning of a text is ahead in it. -/
theorem ahead_self : Ahead v v := ⟨[], rfl, by rintro _ ⟨⟩⟩

/-- The first line of a unit up to the blanks before its `=`. -/
private theorem identifier_startsDefinition (hv : StartsDefinition v) :
    ∃ id spaces tail, identifier v = .ok (id, spaces ++ '=' :: tail) ∧
      (∀ c ∈ spaces, c = ' ') ∧ Ahead v ('=' :: tail) := by
  obtain ⟨c, name, spaces, tail, rfl, hc, hname, hspaces⟩ := hv
  have hstop : ∀ d ∈ (spaces ++ '=' :: tail).head?, isIdentifierChar d = false := by
    intro d hd
    rcases spaces with _ | ⟨e, spaces⟩
    · cases hd
      rfl
    · cases hd
      rw [hspaces d List.mem_cons_self]
      rfl
  refine ⟨String.ofList (c :: name), spaces, tail, ?_, hspaces, c :: (name ++ spaces), by simp, ?_⟩
  · simp only [identifier, if_pos hc]
    rw [takeWhile_append_of_head hstop, dropWhile_append_of_head hstop,
      List.takeWhile_eq_self_iff.mpr hname, List.dropWhile_eq_nil_iff.mpr hname, List.nil_append]
  · intro d hd
    rcases List.mem_cons.mp hd with rfl | hd
    · exact isBreak_eq_false_of_isIdentifierChar (isIdentifierChar_of_isAlpha hc)
    rcases List.mem_append.mp hd with hd | hd
    · exact isBreak_eq_false_of_isIdentifierChar (hname d hd)
    · rw [hspaces d hd]
      rfl

private theorem dropWhile_isBlank_equals {spaces : List Char} (h : ∀ c ∈ spaces, c = ' ')
    (tail : List Char) : (spaces ++ '=' :: tail).dropWhile isBlank = '=' :: tail := by
  induction spaces with
  | nil => rfl
  | cons c spaces ih =>
    obtain rfl := h c List.mem_cons_self
    exact ih fun d hd => h d (List.mem_cons_of_mem _ hd)

/-- Behind the name of a unit stands neither an accessor nor an argument list. -/
private theorem no_accessor {spaces : List Char} (h : ∀ c ∈ spaces, c = ' ') (tail : List Char) :
    accessor (spaces ++ '=' :: tail) = .ok (none, spaces ++ '=' :: tail) ∧
      reachArguments (spaces ++ '=' :: tail) = .ok (false, spaces ++ '=' :: tail) := by
  constructor
  · rcases spaces with _ | ⟨c, spaces⟩
    · rfl
    · rw [h c List.mem_cons_self]
      rfl
  · rw [reachArguments_apply, dropWhile_isBlank_equals h]
    rfl

variable (nested : Nested)

/-- A reference takes the name of a unit, and comes to the `=` of the unit. -/
private theorem reference_startsUnit (hv : StartsUnit v) :
    ∃ e y, reference nested v = .ok (e, y) ∧ BeforeEquals v y := by
  rcases hv with hdef | ⟨w, rfl, hdef⟩
  · obtain ⟨id, spaces, tail, hid, hspaces, hahead⟩ := identifier_startsDefinition hdef
    obtain ⟨haccessor, hreach⟩ := no_accessor hspaces tail
    refine ⟨.messageRef id none, spaces ++ '=' :: tail, ?_, tail,
      dropWhile_isBlank_equals hspaces tail, hahead⟩
    obtain ⟨c, name, spaces', tail', rfl, hc, -⟩ := hdef
    have hne (d : Char) (hd : d.isAlpha = false) : c ≠ d := by
      rintro rfl
      rw [hd] at hc
      contradiction
    rw [reference_cons, if_neg (hne _ rfl), if_neg (hne _ rfl), if_neg (hne _ rfl), if_pos hc,
      nameReference, bind_ok hid, bind_ok haccessor]
    dsimp only
    rw [bind_ok hreach]
    rfl
  · obtain ⟨id, spaces, tail, hid, hspaces, x, hx, hbreak⟩ := identifier_startsDefinition hdef
    obtain ⟨haccessor, hreach⟩ := no_accessor hspaces tail
    refine ⟨.termRef id none none, spaces ++ '=' :: tail, ?_, tail,
      dropWhile_isBlank_equals hspaces tail, '-' :: x, by rw [hx]; rfl, ?_⟩
    · rw [reference_cons, if_neg (by decide), if_pos rfl, termReference, bind_ok hid,
        bind_ok haccessor, bind_ok hreach]
      rfl
    · intro c hc
      rcases List.mem_cons.mp hc with rfl | hc
      · rfl
      · exact hbreak c hc

/-- An expression takes the name of a unit, and fails at the mark of a comment. -/
private theorem ensures_inlineExpression_seam (hv : OpensEntry v) :
    Ensures (inlineExpression nested) v (fun _ y => BeforeEquals v y) fun failure =>
      Ahead v failure.rest := by
  obtain ⟨hquote, hnumber⟩ := OpensEntry.no_literal hv
  rw [Ensures, inlineExpression_apply, if_neg hquote, hnumber]
  rcases hv with hv | ⟨w, rfl⟩
  · obtain ⟨e, y, hrun, hequals⟩ := reference_startsUnit nested hv
    rw [if_neg Bool.false_ne_true, hrun]
    exact hequals
  · rw [if_neg Bool.false_ne_true, reference_cons]
    exact ahead_self

/-! ## References and calls -/

/-- The readers of the next level agree. -/
structure Nested.Agrees (v : List Char) (nested : Nested) : Prop where
  placeable : Reader.Agrees v nested.placeable
  arguments : Reader.Agrees v nested.arguments
  contained : nested.Contained

variable {nested}

private theorem agree_accessor (hu : LeadsToLine u) (hne : u ≠ []) :
    Agree v SomethingLeft never accessor u := by
  refine (agree_accept (fun h => absurd h hne) (by decide) hu).bind_never
    fun accepted w hw hleft => ?_
  cases accepted
  · exact agree_pure hw (hleft ▸ hne)
  · exact (agree_identifier hw hleft).then_pure _

private theorem agree_reachArguments (hv : OpensEntry v) (hu : LeadsToLine u) (hne : u ≠ []) :
    Agree v SomethingLeft never reachArguments u := by
  have hblank := dropWhile_append_of_head hv.isBlank_eq_false u
  have hline := reachArguments_apply u
  have hlines := reachArguments_apply (u ++ v)
  rw [hblank] at hlines
  by_cases hend : u.dropWhile isBlank = []
  · have hparen : ¬ v.head? = some '(' := hv.head?_ne (by decide)
    rw [hend] at hline hlines
    rw [List.nil_append, if_neg hparen] at hlines
    exact agree_ok hline hlines hu hne
  · rw [List.head?_append_of_ne_nil _ hend] at hlines
    split_ifs at hline hlines
    · exact agree_ok hline hlines (hu.of_suffix (List.dropWhile_suffix _)) hend
    · exact agree_ok hline hlines hu hne

private theorem agree_termReference (hv : OpensEntry v) (h : nested.Agrees v) (hu : LeadsToLine u)
    (hne : u ≠ []) : Agree v SomethingLeft never (termReference nested) u := by
  refine (agree_identifier hu hne).bind_never fun _ w hw hleft =>
    (agree_accessor hw hleft).bind_never fun _ w hw hleft =>
      (agree_reachArguments hv hw hleft).bind_never fun reached w hw hleft => ?_
  split
  · exact (h.arguments hw).then_pure _
  · exact agree_pure hw hleft

private theorem agree_nameReference (hv : OpensEntry v) (h : nested.Agrees v) (hu : LeadsToLine u)
    (hne : u ≠ []) : Agree v SomethingLeft never (nameReference nested) u := by
  refine (agree_identifier hu hne).bind_never fun id w hw hleft =>
    (agree_accessor hw hleft).bind_never fun attr w hw hleft => ?_
  split
  · exact agree_pure hw hleft
  · refine (agree_reachArguments hv hw hleft).bind_never fun reached w hw hleft => ?_
    split
    · split
      · exact agree_fail_bind _ _
      · exact (h.arguments hw).then_pure _
    · exact agree_pure hw hleft

private theorem agree_reference (hv : OpensEntry v) (h : nested.Agrees v) (hu : LeadsToLine u)
    (hne : u ≠ []) : Agree v SomethingLeft never (reference nested) u := by
  obtain ⟨c, u, rfl⟩ := List.exists_cons_of_ne_nil hne
  have hrest : LeadsToLine u := hu.of_suffix (List.suffix_cons c u)
  have hleft : isBreak c = false → u ≠ [] := hu.tail_ne_nil
  have hline := reference_cons nested c u
  have hlines := reference_cons nested c (u ++ v)
  rw [← List.cons_append] at hlines
  split_ifs at hline hlines with h₁ h₂ h₃ h₄
  · refine Agree.of_eq ?_ hline hlines
    exact (agree_identifier hrest (hleft (by rw [h₁]; decide))).then_pure _
  · exact (agree_termReference hv h hrest (hleft (by rw [h₂]; decide))).of_eq hline hlines
  · refine Agree.of_eq ?_ hline hlines
    exact (h.placeable hrest).then_pure _
  · exact (agree_nameReference hv h hu hne).of_eq hline hlines
  · rw [Agree, hline]
    exact Or.inl hlines

/-- An inline expression agrees, or goes on with what stands behind the seam. -/
theorem agree_inlineExpression (hv : OpensEntry v) (h : nested.Agrees v) (hu : LeadsToLine u) :
    Agree v SomethingLeft (fun _ y => BeforeEquals v y) (inlineExpression nested) u := by
  by_cases hne : u = []
  · subst hne
    exact Or.inr ⟨rfl, ensures_inlineExpression_seam nested hv⟩
  have hline := inlineExpression_apply nested u
  have hlines := inlineExpression_apply nested (u ++ v)
  rw [List.head?_append_of_ne_nil u hne, startsNumber_append hu hne] at hlines
  split_ifs at hline hlines
  · refine Agree.of_eq ?_ hline hlines
    exact ((agree_stringLiteral hu hne).then_pure _).of_never
  · refine Agree.of_eq ?_ hline hlines
    exact ((agree_numberLiteral hu hne).then_pure _).of_never
  · exact (agree_reference hv h hu hne).of_never.of_eq hline hlines

/-! ## Arguments -/

/-- Where an `=` comes next, a reader that asks for another character fails there. -/
theorem ensures_expect_equals {y : List Char} {c : Char} (hc : c ≠ '=') (h : BeforeEquals v y)
    {β : Type} (f : Unit → Reader β) (post : β → List Char → Prop) :
    Ensures (skipBlanks >>= fun _ => expect c >>= f) y post fun failure =>
      Ahead v failure.rest := by
  obtain ⟨tail, hy, hahead⟩ := h
  have hfail : expect c ('=' :: tail) = .error ⟨.expectedToken c, '=' :: tail⟩ := by
    rw [expect_apply]
    exact if_neg (Ne.symm hc)
  rw [Ensures, bind_ok (skipBlanks_apply _), hy, bind_error hfail]
  exact hahead

private theorem beforeEquals_self {tail : List Char} (h : Ahead v ('=' :: tail)) :
    BeforeEquals v ('=' :: tail) := ⟨tail, rfl, h⟩

private theorem agree_argument (hv : OpensEntry v) (h : nested.Agrees v)
    (arguments : CallArguments) (hu : LeadsToLine u) :
    Agree v (fun _ _ => True) (fun _ y => BeforeEquals v y) (argument nested arguments) u := by
  rw [argument_eq]
  refine (agree_inlineExpression hv h hu).bind (fun expression w hw _ => ?_) ?_
  · refine (agree_skipBlanks hv hw).bind_never fun _ w hw _ => ?_
    have hcolon : w = [] → v.head? ≠ some ':' := fun _ => hv.head?_ne (by decide)
    refine (agree_accept hcolon (by decide) hw).bind_never fun accepted w hw _ => ?_
    refine Agree.of_never ?_
    cases accepted
    · rw [if_neg (by decide), positionalArgument]
      split
      · exact agree_pure hw trivial
      · exact agree_fail _
    · rw [if_pos rfl, namedArgument.eq_def]
      split
      · refine (agree_skipBlanks hv hw).bind_never fun _ w hw _ =>
          (agree_literal hv hw).bind_never fun value w hw _ => ?_
        dsimp only
        split
        · exact agree_fail_bind _ _
        · exact agree_pure hw trivial
      · exact agree_fail _
  · rintro expression y ⟨tail, hy, hahead⟩
    have haccept : accept ':' ('=' :: tail) = .ok (false, '=' :: tail) := rfl
    rw [Ensures, bind_ok (skipBlanks_apply _), hy, bind_ok haccept, if_neg (by decide),
      positionalArgument]
    by_cases hnamed : arguments.named.isEmpty
    · rw [if_pos hnamed]
      exact beforeEquals_self hahead
    · rw [if_neg hnamed]
      exact hahead

private theorem agree_argumentAndComma (hv : OpensEntry v) (h : nested.Agrees v)
    (arguments : CallArguments) (hu : LeadsToLine u) :
    Agree v (Outcome (fun _ _ => True) fun _ _ => True)
      (Outcome never fun _ y => BeforeEquals v y) (argumentAndComma nested arguments) u := by
  refine (agree_argument hv h arguments hu).bind (fun arguments w hw _ => ?_) ?_
  · refine (agree_skipBlanks hv hw).bind_never fun _ w hw _ => ?_
    have hcomma : w = [] → v.head? ≠ some ',' := fun _ => hv.head?_ne (by decide)
    refine (agree_accept hcomma (by decide) hw).bind_never fun accepted w hw _ => ?_
    cases accepted <;> exact agree_pure hw trivial
  · rintro arguments y ⟨tail, hy, hahead⟩
    have haccept : accept ',' ('=' :: tail) = .ok (false, '=' :: tail) := rfl
    rw [Ensures, bind_ok (skipBlanks_apply _), hy, bind_ok haccept]
    exact beforeEquals_self hahead

private theorem agree_argumentStep (hv : OpensEntry v) (h : nested.Agrees v)
    (arguments : CallArguments) (hu : LeadsToLine u) :
    Agree v (Outcome (fun _ _ => True) fun _ _ => True)
      (Outcome never fun _ y => BeforeEquals v y) (argumentStep nested arguments) u := by
  have hrest : LeadsToLine (u.dropWhile isBlank) := hu.of_suffix (List.dropWhile_suffix _)
  have hline := argumentStep_apply nested arguments u
  have hlines := argumentStep_apply nested arguments (u ++ v)
  rw [dropWhile_append_of_head hv.isBlank_eq_false] at hlines
  have hhead : (u.dropWhile isBlank ++ v).head? = some ')' ↔
      (u.dropWhile isBlank).head? = some ')' := by
    by_cases hend : u.dropWhile isBlank = []
    · rw [hend, List.nil_append]
      simpa using hv.head?_ne (by decide)
    · rw [List.head?_append_of_ne_nil _ hend]
  by_cases hparen : (u.dropWhile isBlank).head? = some ')'
  · rw [if_pos hparen] at hline
    rw [if_pos (hhead.mpr hparen)] at hlines
    exact agree_ok hline hlines hrest trivial
  · rw [if_neg hparen] at hline
    rw [if_neg (mt hhead.mp hparen)] at hlines
    exact (agree_argumentAndComma hv h arguments hrest).of_eq hline hlines

private theorem agree_argumentList (hv : OpensEntry v) (h : nested.Agrees v) :
    Agrees v (argumentList nested) := by
  intro u hu
  have hopen : u = [] → v.head? ≠ some '(' := fun _ => hv.head?_ne (by decide)
  refine (agree_expect hopen (by decide) hu).bind_never fun _ w hw _ => ?_
  have hloop : Agree v (fun _ _ => True) (fun _ y => BeforeEquals v y)
      (loop (argumentStep nested) ⟨[], []⟩) w :=
    Agree.loop (advances_argumentStep h.contained)
      (fun arguments _ hu _ => agree_argumentStep hv h arguments hu) hw trivial
  refine hloop.bind (fun arguments w hw _ => ?_) fun arguments y hy =>
    ensures_expect_equals (by decide) hy _ _
  refine (agree_skipBlanks hv hw).bind_never fun _ w hw _ => ?_
  have hclose : w = [] → v.head? ≠ some ')' := fun _ => hv.head?_ne (by decide)
  exact (agree_expect hclose (by decide) hw).then_pure _

/-! ## Variants -/

/-- A key takes the name of a message, and fails behind the dash of a term or at the mark of a
comment. -/
private theorem ensures_bareKey_seam (hv : OpensEntry v) :
    Ensures bareKey v (fun _ y => BeforeEquals v y) fun failure => Ahead v failure.rest := by
  rcases hv with (hdef | ⟨w, rfl, hdef⟩) | ⟨w, rfl⟩
  · obtain ⟨id, spaces, tail, hid, hspaces, hahead⟩ := identifier_startsDefinition hdef
    obtain ⟨c, name, spaces', tail', rfl, hc, -⟩ := hdef
    have hbracket : c ≠ ']' := by rintro rfl; contradiction
    have hnumber : ¬ (c.isDigit || c == '-') = true := by
      have hdash : c ≠ '-' := by rintro rfl; contradiction
      simp [isDigit_eq_false_of_isAlpha hc, hdash]
    rw [Ensures, bareKey_cons, if_neg hbracket, if_neg hnumber, map_apply, hid]
    exact ⟨tail, dropWhile_isBlank_equals hspaces tail, hahead⟩
  · obtain ⟨c, name, spaces, tail, rfl, hc, -⟩ := hdef
    have hdigits (rest : List Char) : digits (c :: rest) =
        .error ⟨.expectedCharRange .digits, c :: rest⟩ := by
      rw [digits, bind_ok (takeWhile_apply _ _), List.takeWhile_cons_of_neg,
        List.dropWhile_cons_of_neg]
      · rfl
      · simp [isDigit_eq_false_of_isAlpha hc]
      · simp [isDigit_eq_false_of_isAlpha hc]
    have hnumber (rest : List Char) : numberLiteral ('-' :: c :: rest) =
        .error ⟨.expectedCharRange .digits, c :: rest⟩ := by
      rw [numberLiteral, bind_ok (accept_cons _ _ _)]
      exact bind_error (hdigits rest)
    rw [Ensures, bareKey_cons, if_neg (by decide), if_pos (by decide), map_apply, hnumber]
    refine ⟨['-'], rfl, fun d hd => ?_⟩
    rw [List.mem_singleton.mp hd]
    rfl
  · exact ahead_self

private theorem agree_bareKey (hv : OpensEntry v) (hu : LeadsToLine u) :
    Agree v SomethingLeft (fun _ y => BeforeEquals v y) bareKey u := by
  rcases u with _ | ⟨c, u⟩
  · exact Or.inr ⟨rfl, ensures_bareKey_seam hv⟩
  have hline := bareKey_cons c u
  have hlines := bareKey_cons c (u ++ v)
  rw [← List.cons_append] at hlines
  split_ifs at hline hlines
  · rw [Agree, hline]
    exact Or.inl hlines
  · refine Agree.of_eq ?_ hline hlines
    exact ((agree_numberLiteral hu (List.cons_ne_nil c u)).then_pure _).of_never
  · refine Agree.of_eq ?_ hline hlines
    exact ((agree_identifier hu (List.cons_ne_nil c u)).then_pure _).of_never

private theorem agree_variantKey (hv : OpensEntry v) (hu : LeadsToLine u) :
    Agree v SomethingLeft never variantKey u := by
  rw [variantKey_eq]
  refine (agree_skipBlanks hv hu).bind_never fun _ w hw _ => ?_
  refine (agree_bareKey hv hw).bind (fun key w hw _ => ?_) fun key y hy =>
    ensures_expect_equals (by decide) hy _ _
  refine (agree_skipBlanks hv hw).bind_never fun _ w hw _ => ?_
  have hclose : w = [] → v.head? ≠ some ']' := fun _ => hv.head?_ne (by decide)
  exact (agree_expect hclose (by decide) hw).then_pure _

private theorem agree_variant (hv : OpensEntry v) (h : nested.Agrees v) (isDefault : Bool)
    (hu : LeadsToLine u) : Agree v (fun _ _ => True) never (variant nested isDefault) u := by
  have hopen : u = [] → v.head? ≠ some '[' := fun _ => hv.head?_ne (by decide)
  refine (agree_expect hopen (by decide) hu).bind_never fun _ w hw _ =>
    (agree_variantKey hv hw).bind_never fun key w hw hleft =>
      (agree_pattern hv h.placeable h.contained.placeable hw hleft).bind_never
        fun value w hw _ => ?_
  split
  · exact agree_fail _
  · exact (agree_skipBlanks hv hw).bind_never fun _ w hw _ => agree_pure hw trivial

private theorem agree_variantStep (hv : OpensEntry v) (h : nested.Agrees v) (read : List Variant)
    (hu : LeadsToLine u) :
    Agree v (Outcome (fun _ _ => True) fun _ _ => True) (Outcome never never)
      (variantStep nested read) u := by
  have hvariant (isDefault : Bool) {u : List Char} (hu : LeadsToLine u) :
      Agree v (Outcome (fun _ _ => True) fun _ _ => True) (Outcome never never)
        (variant nested isDefault >>= fun value =>
          pure (.again (value :: read) : Step (List Variant) (List Variant))) u :=
    (agree_variant hv h isDefault hu).bind_never fun _ w hw _ => agree_pure hw trivial
  rcases u with _ | ⟨c, u⟩
  · obtain ⟨d, w, rfl, -⟩ := hv.exists_cons
    have hstar : d ≠ '*' := fun hd =>
      hv.head?_ne (c := '*') (by decide) (by rw [hd]; rfl)
    have hbracket : d ≠ '[' := fun hd =>
      hv.head?_ne (c := '[') (by decide) (by rw [hd]; rfl)
    refine agree_ok (variantStep_nil nested read) ?_ leadsToLine_nil trivial
    rw [List.nil_append, variantStep_cons, if_neg hstar, if_neg hbracket]
  have hrest : LeadsToLine u := hu.of_suffix (List.suffix_cons c u)
  have hline := variantStep_cons nested read c u
  have hlines := variantStep_cons nested read c (u ++ v)
  rw [← List.cons_append] at hlines
  split_ifs at hline hlines
  · rw [Agree, hline]
    exact Or.inl hlines
  · exact (hvariant true hrest).of_eq hline hlines
  · exact (hvariant false hu).of_eq hline hlines
  · exact agree_ok hline hlines hu trivial

private theorem agree_variants (hv : OpensEntry v) (h : nested.Agrees v) (hu : LeadsToLine u) :
    Agree v (fun _ _ => True) never (variants nested) u := by
  refine (agree_skipBlanks hv hu).bind_never fun _ w hw _ => ?_
  have hloop : Agree v (fun _ _ => True) never (loop (variantStep nested) []) w :=
    Agree.loop (advances_variantStep h.contained)
      (fun read _ hu _ => agree_variantStep hv h read hu) hw trivial
  refine hloop.bind_never fun variants w hw _ => ?_
  dsimp only
  split
  · exact agree_fail_bind _ _
  · split
    · exact agree_fail_bind _ _
    · exact agree_pure hw trivial

/-! ## Nesting -/

private theorem agree_selection (hv : OpensEntry v) (h : nested.Agrees v) (selector : Expression)
    (hu : LeadsToLine u) : Agree v (fun _ _ => True) never (selection nested selector) u := by
  refine (agree_skipSpaces hv hu).bind_never fun _ w hw _ =>
    (agree_acceptLineEnd hv hw).bind_never fun ended w hw _ => ?_
  dsimp only
  split
  · exact agree_fail_bind _ _
  · exact (agree_variants hv h hw).bind_never fun _ w hw _ => agree_pure hw trivial

private theorem agree_standalone (selector : Expression) (hu : LeadsToLine u) :
    Agree v (fun _ _ => True) never (standalone selector) u := by
  unfold standalone
  split
  · exact agree_fail _
  · exact agree_pure hu trivial

/-- An arrow is not cut by the seam. -/
private theorem arrow_of_append (hv : OpensEntry v) (hu : LeadsToLine u) {rest : List Char}
    (h : u ++ v = '-' :: '>' :: rest) : ∃ w, u = '-' :: '>' :: w := by
  rcases u with _ | ⟨c, _ | ⟨d, w⟩⟩
  · rcases hv with (⟨c, name, spaces, tail, rfl, hc, -⟩ |
      ⟨_, rfl, c, name, spaces, tail, rfl, hc, -⟩) | ⟨w, rfl⟩
    · obtain ⟨rfl, -⟩ := List.cons.inj h
      contradiction
    · obtain ⟨rfl, -⟩ := List.cons.inj (List.cons.inj h).2
      contradiction
    · cases h
  · have hc := hu c rfl
    cases h
    cases hc
  · cases h
    exact ⟨w, rfl⟩

private theorem agree_expressionFrom (hv : OpensEntry v) (h : nested.Agrees v)
    (selector : Expression) (hu : LeadsToLine u) :
    Agree v (fun _ _ => True) never (expressionFrom nested selector) u := by
  by_cases harrow : ∃ w, u = '-' :: '>' :: w
  · obtain ⟨w, rfl⟩ := harrow
    have hline := expressionFrom_arrow nested selector w
    have hlines := expressionFrom_arrow nested selector (w ++ v)
    cases hproblem : selectorProblem? selector with
    | some problem =>
      rw [hproblem] at hline hlines
      rw [Agree, hline]
      exact Or.inl hlines
    | none =>
      rw [hproblem] at hline hlines
      exact (agree_selection hv h selector (hu.of_suffix ⟨['-', '>'], rfl⟩)).of_eq hline hlines
  · have hline := expressionFrom_of_ne nested selector fun rest hrest => harrow ⟨rest, hrest⟩
    have hlines := expressionFrom_of_ne nested selector fun rest hrest =>
      harrow (arrow_of_append hv hu hrest)
    exact (agree_standalone selector hu).of_eq hline hlines

private theorem agree_expression (hv : OpensEntry v) (h : nested.Agrees v) (hu : LeadsToLine u) :
    Agree v (fun _ _ => True) (fun _ y => BeforeEquals v y) (expression nested) u := by
  rw [expression_eq]
  refine (agree_inlineExpression hv h hu).bind (fun selector w hw _ => ?_) ?_
  · exact (agree_skipBlanks hv hw).bind_never fun _ w hw _ =>
      (agree_expressionFrom hv h selector hw).of_never
  · rintro selector y ⟨tail, hy, hahead⟩
    rw [Ensures, bind_ok (skipBlanks_apply _), hy, expressionFrom_of_ne nested selector (by simp)]
    change Ensures (standalone selector) ('=' :: tail) _ _
    unfold standalone
    split
    · exact hahead
    · exact beforeEquals_self hahead

/-- On every level of nesting, what stands between braces or parentheses agrees. -/
theorem agrees_levels (hv : OpensEntry v) (level : Nat) : (Nested.levels level).Agrees v := by
  induction level with
  | zero => exact ⟨fun _ _ => agree_fail _, fun _ _ => agree_fail _, contained_levels 0⟩
  | succ level ih =>
    refine ⟨fun u hu => ?_, agree_argumentList hv ih, contained_levels (level + 1)⟩
    refine (agree_skipBlanks hv hu).bind_never fun _ w hw _ => ?_
    refine (agree_expression hv ih hw).bind (fun e w hw _ => ?_) fun e y hy =>
      ensures_expect_equals (by decide) hy _ _
    refine (agree_skipBlanks hv hw).bind_never fun _ w hw _ => ?_
    have hclose : w = [] → v.head? ≠ some '}' := fun _ => hv.head?_ne (by decide)
    exact (agree_expect hclose (by decide) hw).then_pure _

end Phrasebook.Reader
