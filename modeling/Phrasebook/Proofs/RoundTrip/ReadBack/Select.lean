import Phrasebook.Proofs.RoundTrip.ReadBack.Expression

/-!
# Select expressions read back

A variant ends where the mark of the next one stands, or the brace that closes its select
expression: neither is read as a part of its pattern. With variants everything that may stand in a
level is read back, so that all levels read back what their shapes allow.
-/

namespace Phrasebook.Reader

open Text
open Shape (bracket)

variable {nested : Nested} {shape : Shape} {text rest after more : List Char} {level : Nat}

/-- A pattern ends before a mark that ends it, however far that is behind blanks. -/
theorem endsPattern_of_dropWhile {c : Char} (h : (text.dropWhile isBlank).head? = some c)
    (hc : endsPattern c) : EndsPattern text := by
  have hbrace : c ≠ '{' := by
    rintro rfl
    exact absurd hc (by decide)
  intro d tail hd
  obtain ⟨blank, -, -, hnil | ⟨-, e, tail', he, hbreak⟩⟩ := dropBlankLines_spec text
  · rw [hnil] at hd
    cases hd
  rw [he] at hd
  obtain ⟨rfl, rfl⟩ := List.cons_eq_cons.mp hd
  have hblank : isBlank e = false := by
    rw [isBlank, hbreak, Bool.or_false, beq_eq_false_iff_ne]
    exact ne_space_of_dropWhile he
  have hfirst := dropWhile_isBlank_of_spaces he hblank
  rw [dropWhile_dropBlankLines] at hfirst
  obtain rfl : e = c := by
    rw [hfirst] at h
    exact Option.some.inj h
  exact ⟨hbrace, fun _ => hc⟩

/-! ## Variants -/

private theorem bareKey_reads {key : VariantKey} (hkey : key.Sound) (rest : List Char) :
    bareKey (key.source.toList ++ ']' :: rest) = .ok (key, ']' :: rest) ∧
      (key.source.toList ++ ']' :: rest).dropWhile isBlank = key.source.toList ++ ']' :: rest := by
  have hclose : ∀ c ∈ (']' :: rest).head?, isIdentifierChar c = false ∧ c ≠ '.' := by
    rintro _ ⟨⟩
    decide
  -- Names and numbers are told apart by the first character of the key.
  cases key with
  | name id =>
    have hread := identifier_reads hkey fun c hc => (hclose c hc).1
    have ⟨c, tail, hname, hc, _⟩ := hkey
    have hsource : (VariantKey.name id).source.toList ++ ']' :: rest =
        c :: (tail ++ ']' :: rest) := by
      rw [VariantKey.source, hname, List.cons_append]
    have hne (d : Char) (hd : d.isAlpha = false) : c ≠ d := by
      rintro rfl
      rw [hc] at hd
      cases hd
    have hkind : (c.isDigit || c == '-') = false := by
      simp [isDigit_eq_false_of_isAlpha hc, hne '-' (by decide)]
    rw [hname, List.cons_append] at hread
    rw [hsource]
    refine ⟨?_, List.dropWhile_cons_of_neg (by simp [isBlank_eq_false_of_isAlpha hc])⟩
    rw [bareKey_cons, if_neg (hne _ (by decide)), hkind, if_neg (by decide), map_apply, hread]
  | number l =>
    have hread := numberLiteral_reads hkey hclose
    have hstarts := (startsNumber_raw hkey (']' :: rest)).1
    rw [VariantKey.source]
    generalize l.raw.toList ++ ']' :: rest = source at hread hstarts ⊢
    rcases source with _ | ⟨c, tail⟩
    · cases hstarts
    have hkind : c.isDigit ∨ c = '-' := by
      simp only [startsNumber, Bool.or_eq_true, Bool.and_eq_true, beq_iff_eq] at hstarts
      exact hstarts.imp_right And.left
    have hblank : isBlank c = false := by
      by_contra hblank
      rcases isBlank_iff.mp (Bool.not_eq_false _ ▸ hblank) with rfl | hbreak
      · simp at hkind
      · rcases isBreak_iff.mp hbreak with rfl | rfl <;> simp at hkind
    have hbracket : c ≠ ']' := by
      rintro rfl
      simp at hkind
    have hkind' : (c.isDigit || c == '-') = true := by
      simpa using hkind
    refine ⟨?_, List.dropWhile_cons_of_neg (by simp [hblank])⟩
    rw [bareKey_cons, if_neg hbracket, if_pos hkind', map_apply, hread]

/-- A variant is read back from its bracket on, with the blanks behind it. -/
private theorem variant_reads (h : nested.ReadsBack shape) {v : Variant} (hkey : v.key.Sound)
    (hvalue : shape.Value v.value) (level : Nat) (hends : EndsPattern more) :
    variant nested v.isDefault ('[' :: (v.key.source.toList ++
        ']' :: (Pattern.written level v.value ++ '\n' :: more))) =
      .ok (v.dedent, more.dropWhile isBlank) := by
  have hopen (line : List Char) : expect '[' ('[' :: line) = .ok ((), line) := rfl
  have hclose (line : List Char) : expect ']' (']' :: line) = .ok ((), line) := rfl
  have hblank (line : List Char) : (']' :: line).dropWhile isBlank = ']' :: line := rfl
  have hread (line : List Char) :
      variantKey (v.key.source.toList ++ ']' :: line) = .ok (v.key, line) := by
    obtain ⟨hbare, hstart⟩ := bareKey_reads hkey line
    rw [variantKey_eq, bind_ok (skipBlanks_apply _), hstart, bind_ok hbare,
      bind_ok (skipBlanks_apply _), hblank, bind_ok (hclose _)]
    rfl
  rw [variant, bind_ok (hopen _), bind_ok (hread _), bind_ok (value_reads h hvalue level hends)]
  simp only
  rw [bind_ok (skipBlanks_apply _), dropWhile_dropBlankLines, Variant.dedent_eq]
  rfl

/-- The text of a variant, from the first character behind its blanks on. -/
private theorem variant_written {v : Variant} (hkey : v.key.Sound) (level : Nat)
    (more : List Char) :
    ∃ blank, Blank blank ∧ v.written level ++ more =
      blank ++ ((if v.isDefault then ['*'] else []) ++ '[' :: (v.key.source.toList ++
        ']' :: (Pattern.written level v.value ++ '\n' :: more))) := by
  obtain ⟨blank, hblank, hbracket⟩ : ∃ blank, Blank blank ∧ bracket level v.isDefault =
      blank ++ ((if v.isDefault then ['*'] else []) ++ ['[']) := by
    rw [bracket]
    split
    · exact ⟨_, blank_replicate _, rfl⟩
    · exact ⟨_, blank_replicate _, rfl⟩
  refine ⟨blank, hblank, ?_⟩
  rw [Variant.written, (Shape.writes_variant hkey level).layout, hbracket]
  simp

variable (h : nested.ReadsBack shape)
include h

omit h in
/-- What follows a variant ends its pattern: the mark of the next one, or the closing brace. -/
private theorem endsPattern_variants {variants : List Variant} (hkeys : ∀ v ∈ variants, v.key.Sound)
    (level : Nat) (hrest : rest.dropWhile isBlank = '}' :: after) :
    EndsPattern (variants.flatMap (·.written level) ++ rest) := by
  cases variants with
  | nil =>
    refine endsPattern_of_dropWhile (c := '}') ?_ (by decide)
    rw [List.flatMap_nil, List.nil_append, hrest]
    rfl
  | cons v others =>
    obtain ⟨blank, hblank, hwritten⟩ := variant_written (hkeys v List.mem_cons_self)
      level (others.flatMap (·.written level) ++ rest)
    rw [List.flatMap_cons, List.append_assoc, hwritten]
    cases v.isDefault with
    | true =>
      refine endsPattern_of_dropWhile (c := '*') ?_ (by decide)
      rw [List.dropWhile_append_of_pos hblank]
      rfl
    | false =>
      refine endsPattern_of_dropWhile (c := '[') ?_ (by decide)
      rw [List.dropWhile_append_of_pos hblank]
      rfl

/-- A variant is read back from its mark on, when at most one of the variants up to it is a
default. -/
private theorem variantStep_reads {v : Variant} (hkey : v.key.Sound) (hvalue : shape.Value v.value)
    (level : Nat) {read : List Variant} (hdefault : (v :: read).countP (·.isDefault) ≤ 1)
    (hends : EndsPattern more) :
    variantStep nested read ((if v.isDefault then ['*'] else []) ++ '[' :: (v.key.source.toList ++
        ']' :: (Pattern.written level v.value ++ '\n' :: more))) =
      .ok (.again (v.dedent :: read), more.dropWhile isBlank) := by
  have hread := variant_reads h hkey hvalue level hends
  cases hd : v.isDefault with
  | true =>
    rw [hd] at hread
    have hnone : ¬read.any (·.isDefault) := by
      have hzero : read.countP (·.isDefault) = 0 := by
        rw [List.countP_cons, if_pos hd] at hdefault
        exact Nat.le_zero.mp (Nat.le_of_succ_le_succ hdefault)
      rw [List.any_eq_true]
      rintro ⟨w, hw, hwd⟩
      exact List.countP_eq_zero.mp hzero w hw hwd
    change variantStep nested read ('*' :: '[' :: _) = _
    rw [variantStep_cons, if_pos rfl, if_neg hnone, bind_ok hread]
    rfl
  | false =>
    rw [hd] at hread
    change variantStep nested read ('[' :: _) = _
    rw [variantStep_cons, if_neg (by decide), if_pos rfl, bind_ok hread]
    rfl

omit h in
/-- No blank stands before the mark of a variant. -/
private theorem dropWhile_mark (isDefault : Bool) (line : List Char) :
    ((if isDefault then ['*'] else []) ++ '[' :: line).dropWhile isBlank =
      (if isDefault then ['*'] else []) ++ '[' :: line := by
  cases isDefault <;> rfl

/-- Variants are read back one after the other, up to the closing brace. -/
private theorem variants_loop {variants : List Variant} (hkeys : ∀ v ∈ variants, v.key.Sound)
    (hvalues : ∀ v ∈ variants, shape.Value v.value) (level : Nat) {read : List Variant}
    (hdefault : read.countP (·.isDefault) + variants.countP (·.isDefault) ≤ 1)
    (hrest : rest.dropWhile isBlank = '}' :: after) :
    loop (variantStep nested) read
        ((variants.flatMap (·.written level) ++ rest).dropWhile isBlank) =
      .ok (read.reverse ++ variants.map Variant.dedent, '}' :: after) := by
  have hadvances := advances_variantStep h.contained
  induction variants generalizing read with
  | nil =>
    rw [List.flatMap_nil, List.nil_append, hrest, List.map_nil, List.append_nil]
    exact loop_done hadvances rfl
  | cons v others ih =>
    obtain ⟨hkey, hkeys⟩ := List.forall_mem_cons.mp hkeys
    obtain ⟨hvalue, hvalues⟩ := List.forall_mem_cons.mp hvalues
    obtain ⟨blank, hblank, hwritten⟩ := variant_written hkey level
      (others.flatMap (·.written level) ++ rest)
    have hsame : v.dedent.isDefault = v.isDefault := by rw [Variant.dedent_eq]
    have hfirst : (v :: read).countP (·.isDefault) ≤ 1 := by
      simp only [List.countP_cons] at hdefault ⊢
      omega
    have hcount : (v.dedent :: read).countP (·.isDefault) + others.countP (·.isDefault) ≤ 1 := by
      simp only [List.countP_cons, hsame] at hdefault ⊢
      omega
    have hstep := variantStep_reads h hkey hvalue level hfirst
      (endsPattern_variants hkeys level hrest)
    rw [List.flatMap_cons, List.append_assoc, hwritten, List.dropWhile_append_of_pos hblank,
      dropWhile_mark, loop_again hadvances hstep, ih hkeys hvalues hcount, List.reverse_cons,
      List.map_cons, List.append_assoc, List.singleton_append]

/-- The variants of a select expression are read back. -/
private theorem variants_reads {arms : List Variant} (harms : shape.Arms arms) (level : Nat)
    (hrest : rest.dropWhile isBlank = '}' :: after) :
    variants nested (arms.flatMap (·.written level) ++ rest) =
      .ok (arms.map Variant.dedent, '}' :: after) := by
  have hdefault : ([] : List Variant).countP (·.isDefault) + arms.countP (·.isDefault) ≤ 1 := by
    simp [harms.default]
  have hloop := variants_loop h harms.keys harms.values level hdefault hrest
  have hempty : (arms.map Variant.dedent).isEmpty = false := by simpa using harms.ne_nil
  have hany : (arms.map Variant.dedent).any (·.isDefault) = true := by
    have hpos : 0 < arms.countP (·.isDefault) := by rw [harms.default]; exact Nat.one_pos
    obtain ⟨v, hv, hdefault⟩ := List.countP_pos_iff.mp hpos
    refine List.any_eq_true.mpr ⟨_, List.mem_map_of_mem hv, ?_⟩
    rwa [Variant.dedent_eq]
  rw [variants, bind_ok (skipBlanks_apply _), bind_ok hloop]
  simp [hempty, hany]

/-! ## Expressions between braces -/

omit h in
/-- Dedenting makes no expression fit or unfit to be a selector. -/
@[simp] theorem selectorProblem?_dedent (e : Expression) :
    selectorProblem? e.dedent = selectorProblem? e := by
  cases e with
  | messageRef id attr => cases attr <;> rfl
  | termRef id attr arguments => cases attr <;> cases arguments <;> rfl
  | _ => rfl

omit h in
private theorem standalone_dedent {e : Expression}
    (he : ∀ id attr arguments, e ≠ .termRef id (some attr) arguments) (text : List Char) :
    standalone e.dedent text = .ok (e.dedent, text) := by
  cases e with
  | termRef id attr arguments =>
    cases attr with
    | none => cases arguments <;> rfl
    | some attr => exact absurd rfl (he id attr arguments)
  | _ => rfl

/-- An expression is read back before the brace that closes it. -/
private theorem expression_reads {e : Expression} (he : shape.Full e) (level : Nat)
    (hrest : rest.dropWhile isBlank = '}' :: after) :
    expression nested (e.written level ++ rest) = .ok (e.dedent, '}' :: after) ∧
      (e.written level ++ rest).dropWhile isBlank = e.written level ++ rest := by
  have hbegins {selector : Expression} {text after : List Char}
      (hread : inlineExpression nested text = .ok (selector, after)) :
      text.dropWhile isBlank = text := by
    obtain ⟨c, tail, rfl, hc, -⟩ := inlineExpression_begins hread
    exact List.dropWhile_cons_of_neg (by simp [hc])
  -- A selector is read first in either case; the arrow behind it decides which one it is.
  rcases he.select_or_inline with
    ⟨selector, arms, rfl, hselector, hproblem, harms⟩ | ⟨hinline, hattr⟩
  · have hwritten : (Expression.select selector arms).written level ++ rest =
        selector.written level ++ (' ' :: '-' :: '>' :: '\n' ::
          (arms.flatMap (·.written (level + 1)) ++ rest)) := by
      rw [Expression.written, (Shape.writes_select h.tidy hselector harms level).layout]
      simp
    have harrow : Bounded (' ' :: '-' :: '>' :: '\n' ::
        (arms.flatMap (·.written (level + 1)) ++ rest)) := by
      refine ⟨?_, by simp [isBlank, isBreak]⟩
      rintro _ ⟨⟩
      decide
    have hread := inlineExpression_reads h hselector level harrow
    have hspace (line : List Char) : (' ' :: '-' :: line).dropWhile isBlank = '-' :: line := rfl
    have hline (line : List Char) : skipSpaces ('\n' :: line) = .ok (0, '\n' :: line) := rfl
    have hnext (line : List Char) : acceptLineEnd ('\n' :: line) = .ok (true, line) := rfl
    have hvariants := variants_reads h harms (level + 1) hrest
    rw [hwritten]
    refine ⟨?_, hbegins hread⟩
    rw [expression_eq, bind_ok hread, bind_ok (skipBlanks_apply _), hspace, expressionFrom_arrow,
      selectorProblem?_dedent, hproblem]
    simp only
    rw [selection, bind_ok (hline _), bind_ok (hnext _)]
    simp only [Bool.not_true, Bool.false_eq_true, if_false]
    rw [bind_ok hvariants, Expression.dedent, Variant.dedentAll_eq_map]
    rfl
  · have hbounded : Bounded rest := by
      have hsplit := List.takeWhile_append_dropWhile (p := isBlank) (l := rest)
      rw [← hsplit, hrest]
      refine bounded_append (fun c hc => List.mem_takeWhile_imp hc) ?_
      exact bounded_cons (by decide) (by decide) (by decide) (by decide) _
    have hread := inlineExpression_reads h hinline level hbounded
    refine ⟨?_, hbegins hread⟩
    rw [expression_eq, bind_ok hread, bind_ok (skipBlanks_apply _), hrest,
      expressionFrom_of_ne _ _ (by rintro _ ⟨⟩), standalone_dedent hattr]

omit h in
/-- Each level of the grammar reads back what the shape of that level allows. -/
theorem readsBack_levels (Q : Pattern → Prop) (level : Nat) :
    (Nested.levels level).ReadsBack (Shape.levels Q level) := by
  induction level with
  | zero =>
    exact
      { contained := contained_levels 0
        tidy := Shape.tidy_levels Q 0
        placeable := fun e he => he.elim
        arguments := fun a ha => ha.elim }
  | succ level ih =>
    refine
      { contained := contained_levels (level + 1)
        tidy := Shape.tidy_levels Q (level + 1)
        placeable := fun e he column before behind rest hbefore hbehind => ?_
        arguments := fun a ha column rest => argumentList_reads ih ha column rest }
    have hrest : (behind ++ '}' :: rest).dropWhile isBlank = '}' :: rest := by
      rw [List.dropWhile_append_of_pos hbehind]
      rfl
    have hclose (line : List Char) : expect '}' ('}' :: line) = .ok ((), line) := rfl
    have hblank (line : List Char) : ('}' :: line).dropWhile isBlank = '}' :: line := rfl
    obtain ⟨hread, hbegins⟩ := expression_reads ih he column hrest
    rw [Nested.levels, List.append_assoc, List.append_assoc]
    simp only
    rw [bind_ok (skipBlanks_apply _), List.dropWhile_append_of_pos hbefore, hbegins, bind_ok hread,
      bind_ok (skipBlanks_apply _), hblank, bind_ok (hclose _)]
    rfl

omit h in
/-- What may stand between braces is read with one space on either side. -/
theorem placeable_reads {e : Expression}
    (he : (Shape.levels (fun _ => True) maxNesting).placeable e) (rest : List Char) :
    (Nested.levels maxNesting).placeable (' ' :: (e.written 0 ++ ' ' :: '}' :: rest)) =
      .ok (e.dedent, rest) := by
  simpa using (readsBack_levels (fun _ => True) maxNesting).placeable e he 0 [' '] [' '] rest
    (blank_replicate 1) (blank_replicate 1)

end Phrasebook.Reader
