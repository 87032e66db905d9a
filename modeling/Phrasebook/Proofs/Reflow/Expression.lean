import Phrasebook.Proofs.Reflow.Pattern

/-!
# Expressions side by side

Between braces and parentheses blanks are skipped, line ends and indentation among them. Every
expression, call and select expression is the same in both texts, and ends inside a line.
-/

namespace Phrasebook.Reader

open Text

variable {f : Reflow} {u : List Char} {nested : Nested}

/-- The readers of the next level are steady. -/
structure Nested.Steady (f : Reflow) (nested : Nested) : Prop where
  placeable : Reader.Steady f nested.placeable
  arguments : Reader.Steady f nested.arguments
  contained : nested.Contained

/-- Skipping blanks is steady. -/
theorem steady_skipBlanks : Steady f skipBlanks := fun _ hu => parallel_skipBlanks hu

/-- Expecting a character that is no blank is steady. -/
theorem steady_expect {c : Char} (hc : isBlank c = false) : Steady f (expect c) :=
  fun _ hu => parallel_expect hc hu

/-- Reading an identifier is steady. -/
theorem steady_identifier : Steady f identifier := fun _ hu => parallel_identifier hu

/-! ## References and calls -/

private theorem steady_accessor : Steady f accessor := by
  refine (steady_accept (by decide)).bind fun accepted => ?_
  cases accepted
  · exact steady_pure none
  · exact steady_identifier.map_pure _

private theorem steady_reachArguments : Steady f reachArguments := by
  intro u hu
  have hblank : f.Suits false (u.dropWhile isBlank) := hu.of_suffix (List.dropWhile_suffix _)
  have hline := reachArguments_apply u
  have hflow := reachArguments_apply (f.flowAt false u)
  rw [f.dropWhile_isBlank, ← f.flowAt_false] at hflow
  simp only [hblank.head?_flowAt (c := '(') (by decide)] at hflow
  split_ifs at hline hflow
  · exact parallel_ok hline hflow hblank ⟨rfl, rfl⟩
  · exact parallel_ok hline hflow hu ⟨rfl, rfl⟩

private theorem steady_termReference (h : nested.Steady f) : Steady f (termReference nested) := by
  refine steady_identifier.bind fun id => steady_accessor.bind fun attr =>
    steady_reachArguments.bind fun reached => ?_
  split
  · exact h.arguments.map_pure _
  · exact steady_pure _

private theorem steady_nameReference (h : nested.Steady f) : Steady f (nameReference nested) := by
  refine steady_identifier.bind fun id => steady_accessor.bind fun attr => ?_
  split
  · exact steady_pure _
  · refine steady_reachArguments.bind fun reached => ?_
    split
    · split
      · exact steady_fail_bind _ _
      · exact h.arguments.map_pure _
    · exact steady_pure _

private theorem steady_reference (h : nested.Steady f) : Steady f (reference nested) := by
  refine steady_of_cons .expectedInlineExpression rfl (fun c u hc => ?_)
    fun c u hcons hu => ?_
  · rcases isBreak_iff.mp hc with rfl | rfl <;> rfl
  have hline := reference_cons nested c u
  have hflow := reference_cons nested c (f.flowAt false u)
  rw [← hcons] at hflow
  split_ifs at hline hflow
  · exact (steady_identifier.map_pure _ hu.tail).of_eq hline hflow
  · exact (steady_termReference h hu.tail).of_eq hline hflow
  · exact (h.placeable.map_pure _ hu.tail).of_eq hline hflow
  · exact (steady_nameReference h hu).of_eq hline hflow
  · exact parallel_error hline hflow

/-- Inline expressions are read steadily if nested ones are. -/
theorem steady_inlineExpression (h : nested.Steady f) : Steady f (inlineExpression nested) :=
  steady_of_literal (reference nested) (inlineExpression_apply nested) (steady_reference h)

/-! ## Arguments -/

private theorem steady_namedArgument (arguments : CallArguments) (e : Expression) :
    Steady f (namedArgument arguments e) := by
  rw [namedArgument.eq_def]
  split
  · refine steady_skipBlanks.bind fun _ => steady_literal.bind fun value => ?_
    dsimp only
    split
    · exact steady_fail_bind _ _
    · exact steady_pure _
  · exact steady_fail _

private theorem steady_positionalArgument (arguments : CallArguments) (e : Expression) :
    Steady f (positionalArgument arguments e) := by
  unfold positionalArgument
  split
  · exact steady_pure _
  · exact steady_fail _

private theorem steady_argumentAndComma (h : nested.Steady f) (arguments : CallArguments) :
    Steady f (argumentAndComma nested arguments) := by
  have hargument : Steady f (argument nested arguments) := by
    rw [argument_eq]
    refine (steady_inlineExpression h).bind fun e => steady_skipBlanks.bind fun _ =>
      (steady_accept (by decide)).bind fun accepted => ?_
    split
    · exact steady_namedArgument arguments e
    · exact steady_positionalArgument arguments e
  refine hargument.bind fun arguments => steady_skipBlanks.bind fun _ =>
    (steady_accept (by decide)).bind fun accepted => ?_
  split <;> exact steady_pure _

private theorem steady_argumentStep (h : nested.Steady f) (arguments : CallArguments) :
    Steady f (argumentStep nested arguments) := by
  intro u hu
  have hblank : f.Suits false (u.dropWhile isBlank) := hu.of_suffix (List.dropWhile_suffix _)
  have hline := argumentStep_apply nested arguments u
  have hflow := argumentStep_apply nested arguments (f.flowAt false u)
  rw [f.dropWhile_isBlank, ← f.flowAt_false] at hflow
  simp only [hblank.head?_flowAt (c := ')') (by decide)] at hflow
  split_ifs at hline hflow
  · exact parallel_ok hline hflow hblank ⟨rfl, rfl⟩
  · exact (steady_argumentAndComma h arguments hblank).of_eq hline hflow

private theorem steady_argumentList (h : nested.Steady f) : Steady f (argumentList nested) := by
  refine (steady_expect (by decide)).bind fun _ =>
    (Steady.loop (advances_argumentStep h.contained) (steady_argumentStep h) _).bind
      fun arguments => steady_skipBlanks.bind fun _ => ?_
  exact (steady_expect (by decide)).map_pure fun _ => arguments

/-! ## Variants -/

private theorem steady_bareKey : Steady f bareKey := by
  refine steady_of_cons (.expectedCharRange .letters) rfl (fun c u hc => ?_)
    fun c u hcons hu => ?_
  · rcases isBreak_iff.mp hc with rfl | rfl <;> rfl
  have hline := bareKey_cons c u
  have hflow := bareKey_cons c (f.flowAt false u)
  rw [← hcons] at hflow
  split_ifs at hline hflow
  · exact parallel_error hline hflow
  · exact (steady_numberLiteral.map _ hu).of_eq hline hflow
  · exact (steady_identifier.map _ hu).of_eq hline hflow

private theorem steady_variantKey : Steady f variantKey := by
  rw [variantKey_eq]
  refine steady_skipBlanks.bind fun _ => steady_bareKey.bind fun key =>
    steady_skipBlanks.bind fun _ => ?_
  exact (steady_expect (by decide)).map_pure fun _ => key

private theorem steady_variant (h : nested.Steady f) (isDefault : Bool) :
    Steady f (variant nested isDefault) := by
  refine (steady_expect (by decide)).bind fun _ => steady_variantKey.bind fun key => ?_
  intro u hu
  refine (parallel_pattern h.placeable h.contained.placeable hu).bind_same
    fun value place w hw => ?_
  split
  · exact parallel_fail _
  · exact (parallel_skipBlanks hw).map_inside _

/-- Neither a star nor a bracket is next, so that the variants end. -/
private theorem variantStep_of_ne {text : List Char} (nested : Nested) (read : List Variant)
    (hstar : text.head? ≠ some '*') (hbracket : text.head? ≠ some '[') :
    variantStep nested read text = .ok (.done read.reverse, text) := by
  rcases text with _ | ⟨c, text⟩
  · exact variantStep_nil nested read
  · rw [variantStep_cons, if_neg (by simpa using hstar), if_neg (by simpa using hbracket)]

private theorem steady_variantStep (h : nested.Steady f) (read : List Variant) :
    Steady f (variantStep nested read) := by
  intro u hu
  have hvariant (isDefault : Bool) :
      Steady f (variant nested isDefault >>= fun v =>
        pure (.again (v :: read) : Step (List Variant) (List Variant))) :=
    (steady_variant h isDefault).map_pure _
  by_cases hstar : u.head? = some '*'
  · obtain ⟨w, rfl⟩ := List.head?_eq_some_iff.mp hstar
    have hline := variantStep_cons nested read '*' w
    have hflow := variantStep_cons nested read '*' (f.flow w)
    rw [if_pos rfl] at hline hflow
    rw [← f.flow_cons (by decide), ← f.flowAt_false, ← f.flowAt_false] at hflow
    split_ifs at hline hflow
    · exact parallel_error hline hflow
    · exact (hvariant true hu.tail).of_eq hline hflow
  by_cases hbracket : u.head? = some '['
  · obtain ⟨w, rfl⟩ := List.head?_eq_some_iff.mp hbracket
    have hline := variantStep_cons nested read '[' w
    have hflow := variantStep_cons nested read '[' (f.flow w)
    rw [if_neg (by decide), if_pos rfl] at hline hflow
    rw [← f.flow_cons (by decide), ← f.flowAt_false] at hflow
    exact (hvariant false hu).of_eq hline hflow
  · refine parallel_ok (variantStep_of_ne nested read hstar hbracket)
      (variantStep_of_ne nested read ?_ ?_) hu ⟨rfl, rfl⟩
    · exact (hu.head?_flowAt (by decide)).not.mpr hstar
    · exact (hu.head?_flowAt (by decide)).not.mpr hbracket

private theorem parallel_variants {start : Bool} (h : nested.Steady f) (hu : f.Suits start u) :
    Parallel f SameInside (variants nested) (variants nested) start u := by
  refine (parallel_skipBlanks hu).bind_inside fun _ w hw => ?_
  refine ((Steady.loop (advances_variantStep h.contained) (steady_variantStep h) []).bind
    fun variants => ?_) hw
  dsimp only
  split
  · exact steady_fail_bind _ _
  · split
    · exact steady_fail_bind _ _
    · exact steady_pure _

/-! ## Nesting -/

private theorem steady_selection (h : nested.Steady f) (selector : Expression) :
    Steady f (selection nested selector) := by
  intro u hu
  refine (parallel_skipSpaces hu).bind fun _ _ place w hw hplace => ?_
  subst hplace
  refine (parallel_acceptLineEnd hw).bind fun ended ended' place w hw hended => ?_
  obtain ⟨rfl, -⟩ := hended
  dsimp only
  split
  · exact parallel_fail_bind _ _ _
  · exact (parallel_variants h hw).map_inside _

private theorem steady_standalone (selector : Expression) : Steady f (standalone selector) := by
  unfold standalone
  split
  · exact steady_fail _
  · exact steady_pure _

private theorem steady_expressionFrom (h : nested.Steady f) (selector : Expression) :
    Steady f (expressionFrom nested selector) := by
  intro u hu
  by_cases harrow : ∃ w, u = '-' :: '>' :: w
  · obtain ⟨w, rfl⟩ := harrow
    have hline := expressionFrom_arrow nested selector w
    have hflow := expressionFrom_arrow nested selector (f.flow w)
    rw [← f.flow_cons (by decide), ← f.flow_cons (by decide), ← f.flowAt_false,
      ← f.flowAt_false] at hflow
    cases hproblem : selectorProblem? selector with
    | some problem =>
      rw [hproblem] at hline hflow
      exact parallel_error hline hflow
    | none =>
      rw [hproblem] at hline hflow
      exact (steady_selection h selector hu.tail.tail).of_eq hline hflow
  · have hline := expressionFrom_of_ne nested selector fun rest hrest => harrow ⟨rest, hrest⟩
    refine (steady_standalone selector hu).of_eq hline
      (expressionFrom_of_ne nested selector fun rest hrest => harrow ?_)
    -- Both characters of an arrow stand in both texts.
    have hdash := (hu.head?_flowAt (c := '-') (by decide)).mp (by rw [hrest]; rfl)
    obtain ⟨v, rfl⟩ := List.head?_eq_some_iff.mp hdash
    rw [f.flowAt_false, f.flow_cons (by decide)] at hrest
    have hpoint := (hu.tail.head?_flowAt (c := '>') (by decide)).mp
      (by rw [f.flowAt_false, (List.cons.inj hrest).2]; rfl)
    obtain ⟨w, rfl⟩ := List.head?_eq_some_iff.mp hpoint
    exact ⟨w, rfl⟩

private theorem steady_expression (h : nested.Steady f) : Steady f (expression nested) := by
  rw [expression_eq]
  exact (steady_inlineExpression h).bind fun selector => steady_skipBlanks.bind fun _ =>
    steady_expressionFrom h selector

/-- On every level of nesting, what stands between braces or parentheses is steady. -/
theorem steady_levels (f : Reflow) (level : Nat) : (Nested.levels level).Steady f := by
  induction level with
  | zero => exact ⟨steady_fail _, steady_fail _, contained_levels 0⟩
  | succ level ih =>
    refine ⟨?_, steady_argumentList ih, contained_levels (level + 1)⟩
    refine steady_skipBlanks.bind fun _ => (steady_expression ih).bind fun e =>
      steady_skipBlanks.bind fun _ => ?_
    exact (steady_expect (by decide)).map_pure fun _ => e

end Phrasebook.Reader
