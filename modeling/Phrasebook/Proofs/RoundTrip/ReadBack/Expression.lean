import Phrasebook.Proofs.RoundTrip.ReadBack.Pattern

/-!
# Expressions read back

Level by level, the text of an expression is read back as that expression with all its patterns
dedented. Arguments and variants are read back one by one: each of them is told from what follows it
by its own first character.
-/

namespace Phrasebook.Reader

open Text
open Shape (argumentTexts)

variable {nested : Nested} {shape : Shape} {text rest after more : List Char} {level : Nat}

/-! ## First characters -/

/-- What an inline expression is read from begins neither with a blank nor with a parenthesis. -/
theorem inlineExpression_begins {e : Expression}
    (h : inlineExpression nested text = .ok (e, after)) :
    ∃ c rest, text = c :: rest ∧ isBlank c = false ∧ c ≠ ')' := by
  rw [inlineExpression_apply] at h
  rcases text with _ | ⟨c, rest⟩
  · cases h
  refine ⟨c, rest, rfl, ?_⟩
  by_cases hbad : isBlank c = false ∧ c ≠ ')'
  · exact hbad
  have hnot : c = ' ' ∨ c = '\n' ∨ c = '\r' ∨ c = ')' := by
    by_contra hgood
    simp only [not_or] at hgood
    refine hbad ⟨?_, hgood.2.2.2⟩
    simp [isBlank, isBreak, hgood]
  rcases hnot with rfl | rfl | rfl | rfl <;> cases h

/-- A literal does not begin with a blank. -/
theorem literal_begins {l : Literal} (h : literal text = .ok (l, after)) :
    text.dropWhile isBlank = text := by
  rcases text with _ | ⟨c, rest⟩
  · rfl
  by_cases hblank : isBlank c
  · rcases isBlank_iff.mp hblank with rfl | hbreak
    · cases h
    · rcases isBreak_iff.mp hbreak with rfl | rfl <;> cases h
  · exact List.dropWhile_cons_of_neg hblank

/-- An expression is read as a reference if it begins like neither a string nor a number. -/
theorem inlineExpression_eq_reference {c : Char} (hquote : c ≠ '"') (hdigit : c.isDigit = false)
    (hminus : c = '-' → rest.head?.any Char.isDigit = false) :
    inlineExpression nested (c :: rest) = reference nested (c :: rest) := by
  have hnumber : startsNumber (c :: rest) = false := by
    by_cases hc : c = '-'
    · simp [startsNumber, hdigit, hminus hc]
    · simp [startsNumber, hdigit, hc]
  rw [inlineExpression_apply]
  simp [hquote, hnumber]

/-! ## References -/

/-- A name and the attribute behind its point are read back one after the other. -/
private theorem referenceName_reads {id : String} {attr : Option String} (hid : IsIdentifier id)
    (hattr : ∀ a ∈ attr, IsIdentifier a)
    (hrest : ∀ c ∈ rest.head?, isIdentifierChar c = false ∧ c ≠ '.') :
    ∃ mid, identifier ((referenceName id attr).toList ++ rest) = .ok (id, mid) ∧
      accessor mid = .ok (attr, rest) := by
  cases attr with
  | none =>
    refine ⟨rest, identifier_reads hid fun c hc => (hrest c hc).1, ?_⟩
    rw [accessor, bind_apply]
    rcases rest with _ | ⟨c, rest⟩
    · rfl
    · simp [(hrest c rfl).2]
  | some a =>
    have hname : (referenceName id (some a)).toList ++ rest =
        id.toList ++ '.' :: (a.toList ++ rest) := by
      simp [referenceName]
    have hpoint : ∀ c ∈ ('.' :: (a.toList ++ rest)).head?, isIdentifierChar c = false := by
      rintro _ ⟨⟩
      decide
    refine ⟨_, hname ▸ identifier_reads hid hpoint, ?_⟩
    have haccept : accept '.' ('.' :: (a.toList ++ rest)) = .ok (true, a.toList ++ rest) := rfl
    have hread : identifier (a.toList ++ rest) = .ok (a, rest) :=
      identifier_reads (hattr a rfl) fun c hc => (hrest c hc).1
    rw [accessor, bind_ok haccept]
    simp only [if_true, map_apply, hread, bind_pure_comp]

/-- Call arguments begin with their parenthesis. -/
theorem reachArguments_written (hcontents : ∃ contents, text = '(' :: contents) :
    reachArguments text = .ok (true, text) := by
  obtain ⟨contents, rfl⟩ := hcontents
  rw [reachArguments_apply]
  rfl

/-- Behind a reference that ends without arguments none are reached, and nothing is passed over. -/
theorem reachArguments_none (h : Bounded rest) : reachArguments rest = .ok (false, rest) := by
  rw [reachArguments_apply, if_neg h.noArguments]

private theorem bounded_open (contents : List Char) :
    ∀ c ∈ ('(' :: contents).head?, isIdentifierChar c = false ∧ c ≠ '.' := by
  rintro _ ⟨⟩
  decide

/-- Arguments are written with a parenthesis in front, whatever they hold. -/
theorem arguments_begin (a : CallArguments) (level : Nat) (rest : List Char) :
    ∃ contents, a.written level ++ rest = '(' :: contents := by
  obtain ⟨_ | ⟨first, others⟩, named⟩ := a <;>
    exact ⟨_, by simp [CallArguments.written, CallArguments.pieces, Piece.layout, Piece.at]; rfl⟩

variable (h : nested.ReadsBack shape)
include h

private theorem termReference_reads {id : String} {attr : Option String}
    {arguments : Option CallArguments} (he : shape.Inline (.termRef id attr arguments))
    (level : Nat) (hrest : Bounded rest) :
    inlineExpression nested ((Expression.termRef id attr arguments).written level ++ rest) =
      .ok ((Expression.termRef id attr arguments).dedent, rest) := by
  obtain ⟨hid, hattr, harguments⟩ := he
  have ⟨c, tail, hname, hc, _⟩ := hid
  have hreference (after : List Char) :
      inlineExpression nested ('-' :: ((referenceName id attr).toList ++ after)) =
        termReference nested ((referenceName id attr).toList ++ after) := by
    -- A minus with a digit behind it would be read as a number.
    have hdigit : (((referenceName id attr).toList ++ after).head?).any Char.isDigit = false := by
      cases attr <;> simp [referenceName, hname, isDigit_eq_false_of_isAlpha hc]
    rw [inlineExpression_eq_reference (by decide) (by decide) fun _ => hdigit, reference_cons]
    rfl
  have hline : '\n' ∉ ("-" ++ referenceName id attr).toList := by
    simpa using inline_referenceName hid hattr
  cases arguments with
  | none =>
    have hwritten : (Expression.termRef id attr none).written level =
        '-' :: (referenceName id attr).toList := by
      rw [Expression.written, Expression.pieces, (Piece.writes_at hline).layout]
      simp
    obtain ⟨mid, hidentifier, haccessor⟩ := referenceName_reads hid hattr hrest.head
    rw [hwritten, List.cons_append, hreference, termReference, bind_ok hidentifier,
      bind_ok haccessor, bind_ok (reachArguments_none hrest)]
    rfl
  | some a =>
    have hwritten : (Expression.termRef id attr (some a)).written level =
        '-' :: ((referenceName id attr).toList ++ a.written level) := by
      rw [Expression.written, Expression.pieces,
        (Shape.writes_before_arguments hline level a).layout]
      simp
    obtain ⟨contents, hcontents⟩ := arguments_begin a level rest
    obtain ⟨mid, hidentifier, haccessor⟩ := referenceName_reads hid hattr (bounded_open contents)
    have harguments := h.arguments a (harguments a rfl) level rest
    rw [hwritten, List.cons_append, List.append_assoc, hreference, termReference]
    rw [hcontents] at harguments ⊢
    rw [bind_ok hidentifier, bind_ok haccessor, bind_ok (reachArguments_written ⟨contents, rfl⟩)]
    simp only [if_true]
    rw [bind_ok harguments]
    rfl

omit h in
private theorem nameReference_begins {name : String} (hname : IsIdentifier name)
    (after : List Char) :
    inlineExpression nested (name.toList ++ after) =
      nameReference nested (name.toList ++ after) := by
  obtain ⟨c, tail, hlist, hc, -⟩ := hname
  have hne (d : Char) (hd : d.isAlpha = false) : c ≠ d := by
    rintro rfl
    rw [hc] at hd
    cases hd
  rw [hlist, List.cons_append, inlineExpression_eq_reference (hne _ (by decide))
    (isDigit_eq_false_of_isAlpha hc) fun hminus => absurd hminus (hne _ (by decide)),
    reference_cons, if_neg (hne _ (by decide)), if_neg (hne _ (by decide)),
    if_neg (hne _ (by decide)), if_pos hc]

omit h in
private theorem messageReference_reads {id : String} {attr : Option String}
    (hid : IsIdentifier id) (hattr : ∀ a ∈ attr, IsIdentifier a) (hrest : Bounded rest) :
    inlineExpression nested ((referenceName id attr).toList ++ rest) =
      .ok (.messageRef id attr, rest) := by
  have hbegins : inlineExpression nested ((referenceName id attr).toList ++ rest) =
      nameReference nested ((referenceName id attr).toList ++ rest) := by
    cases attr with
    | none => exact nameReference_begins hid rest
    | some a =>
      have hname : (referenceName id (some a)).toList ++ rest =
          id.toList ++ '.' :: (a.toList ++ rest) := by
        simp [referenceName]
      rw [hname]
      exact nameReference_begins hid _
  obtain ⟨mid, hidentifier, haccessor⟩ := referenceName_reads hid hattr hrest.head
  rw [hbegins, nameReference, bind_ok hidentifier, bind_ok haccessor]
  cases attr with
  | none =>
    simp only
    rw [bind_ok (reachArguments_none hrest)]
    rfl
  | some a => rfl

private theorem call_reads {name : String} {a : CallArguments} (he : shape.Inline (.call name a))
    (level : Nat) :
    inlineExpression nested ((Expression.call name a).written level ++ rest) =
      .ok ((Expression.call name a).dedent, rest) := by
  obtain ⟨hname, hcallee, harguments⟩ := he
  have hwritten : (Expression.call name a).written level = name.toList ++ a.written level := by
    rw [Expression.written, Expression.pieces,
      (Shape.writes_before_arguments hname.inline level a).layout]
  obtain ⟨contents, hcontents⟩ := arguments_begin a level rest
  have hnone : ∀ b ∈ (none : Option String), IsIdentifier b := by rintro _ ⟨⟩
  obtain ⟨mid, hidentifier, haccessor⟩ := referenceName_reads hname hnone (bounded_open contents)
  have hread := h.arguments a harguments level rest
  rw [hwritten, List.append_assoc, nameReference_begins hname, nameReference]
  rw [hcontents] at hread ⊢
  rw [bind_ok (show identifier (name.toList ++ '(' :: contents) = .ok (name, mid) from hidentifier),
    bind_ok haccessor]
  simp only
  rw [bind_ok (reachArguments_written ⟨contents, rfl⟩)]
  simp only [if_true, hcallee, Bool.not_true, Bool.false_eq_true, if_false]
  rw [bind_ok hread]
  rfl

/-- An inline expression is read back before anything that does not go on with it. -/
theorem inlineExpression_reads {e : Expression} (he : shape.Inline e) (level : Nat)
    (hrest : Bounded rest) :
    inlineExpression nested (e.written level ++ rest) = .ok (e.dedent, rest) := by
  -- One case for each constructor: what is written is put in the form that reading takes apart.
  cases e with
  | string l =>
    have hwritten : (Expression.string l).written level = l.source.toList :=
      (Piece.writes_at (StringLiteral.Sound.inline he)).layout
    have hquote : (l.source.toList ++ rest).head? = some '"' := by simp [StringLiteral.source]
    rw [hwritten, inlineExpression_apply, if_pos hquote,
      bind_ok (StringLiteral.Sound.reads he rest)]
    rfl
  | number l =>
    have hwritten : (Expression.number l).written level = l.raw.toList :=
      (Piece.writes_at (NumberLiteral.Sound.inline he)).layout
    obtain ⟨hstarts, hquote⟩ := startsNumber_raw he rest
    rw [hwritten, inlineExpression_apply, if_neg hquote, if_pos hstarts,
      bind_ok (numberLiteral_reads he hrest.head)]
    rfl
  | variableRef name =>
    have hline : '\n' ∉ ("$" ++ name).toList := by simpa using IsIdentifier.inline he
    have hwritten : (Expression.variableRef name).written level = '$' :: name.toList := by
      rw [Expression.written, Expression.pieces, (Piece.writes_at hline).layout]
      simp
    rw [hwritten, List.cons_append,
      inlineExpression_eq_reference (by decide) (by decide) (by rintro ⟨⟩),
      reference_cons, if_pos rfl, bind_ok (identifier_reads he fun c hc => (hrest.head c hc).1)]
    rfl
  | messageRef id attr =>
    have hwritten : (Expression.messageRef id attr).written level =
        (referenceName id attr).toList := by
      rw [Expression.written, Expression.pieces,
        (Piece.writes_at (inline_referenceName he.1 he.2)).layout]
    rw [hwritten]
    exact messageReference_reads he.1 he.2 hrest
  | termRef id attr arguments => exact termReference_reads h he level hrest
  | call name arguments => exact call_reads h he level
  | select selector variants => exact he.elim
  -- The braces of a nested placeable stand one space off what they hold.
  | placeable inner =>
    have hread := h.placeable inner he level [' '] (inner.gap level ++ [' ']) rest
      (blank_replicate 1) ((blank_gap level inner).append (blank_replicate 1))
    have hwritten : (Expression.placeable inner).written level ++ rest =
        '{' :: ([' '] ++ inner.written level ++ (inner.gap level ++ [' ']) ++ '}' :: rest) := by
      rw [Expression.written, (Shape.writes_placeable h.tidy he level).layout]
      simp
    rw [hwritten, inlineExpression_eq_reference (by decide) (by decide) (by rintro ⟨⟩),
      reference_cons, if_neg (by decide), if_neg (by decide), if_pos rfl, bind_ok hread]
    rfl

/-! ## Arguments -/

/-- What follows an argument: a comma, or the parenthesis that closes the list. -/
def EndsArgument (rest : List Char) : Prop :=
  ∃ c tail, rest = c :: tail ∧ (c = ',' ∨ c = ')')

omit h in
private theorem EndsArgument.bounded (hends : EndsArgument rest) : Bounded rest := by
  obtain ⟨c, tail, rfl, rfl | rfl⟩ := hends <;>
    exact bounded_cons (by decide) (by decide) (by decide) (by decide) tail

/-- From its text an argument is added to those before it, up to a comma or the end of the list. -/
private def Adds (nested : Nested) (text : List Char) (before after : CallArguments) : Prop :=
  ∀ rest, EndsArgument rest →
    argument nested before (text ++ rest) = .ok (after, rest) ∧
      ∃ c tail, text ++ rest = c :: tail ∧ isBlank c = false ∧ c ≠ ')'

private theorem positional_adds {e : Expression} (he : shape.Inline e) (level : Nat)
    (positional : List Expression) :
    Adds nested (e.written level) ⟨positional, []⟩ ⟨positional ++ [e.dedent], []⟩ := by
  intro rest hends
  have hread := inlineExpression_reads h he level hends.bounded
  refine ⟨?_, inlineExpression_begins hread⟩
  obtain ⟨c, tail, rfl, hc⟩ := hends
  have hblank : (c :: tail).dropWhile isBlank = c :: tail := by
    rcases hc with rfl | rfl <;> rfl
  have hcolon : accept ':' (c :: tail) = .ok (false, c :: tail) := by
    rcases hc with rfl | rfl <;> rfl
  rw [argument_eq, bind_ok hread, bind_ok (skipBlanks_apply _), hblank, bind_ok hcolon]
  rfl

omit h in
private theorem named_adds {n : NamedArgument} (hn : n.Sound) (positional : List Expression)
    {named : List NamedArgument} (hnew : ∀ m ∈ named, m.name ≠ n.name) :
    Adds nested n.source.toList ⟨positional, named⟩ ⟨positional, named ++ [n]⟩ := by
  intro rest hends
  have hsource : n.source.toList ++ rest =
      n.name.toList ++ ':' :: ' ' :: (n.value.source.toList ++ rest) := by
    simp [NamedArgument.source_eq]
  have hbounded : Bounded (':' :: ' ' :: (n.value.source.toList ++ rest)) :=
    bounded_cons (by decide) (by decide) (by decide) (by decide) _
  have hread : inlineExpression nested (n.source.toList ++ rest) =
      .ok (.messageRef n.name none, ':' :: ' ' :: (n.value.source.toList ++ rest)) := by
    have hnone : ∀ a ∈ (none : Option String), IsIdentifier a := by rintro _ ⟨⟩
    have hname : inlineExpression nested ((referenceName n.name none).toList ++ _) = _ :=
      messageReference_reads hn.1 hnone hbounded
    rw [hsource]
    exact hname
  refine ⟨?_, inlineExpression_begins hread⟩
  have hcolon (line : List Char) : accept ':' (':' :: line) = .ok (true, line) := rfl
  have hvalue := literal_reads hn.2 hends.bounded.head
  have hnone : named.any (·.name == n.name) = false := by
    rw [List.any_eq_false]
    intro m hm
    simpa using hnew m hm
  have hblank (line : List Char) : (':' :: line).dropWhile isBlank = ':' :: line := rfl
  have hspace : (' ' :: (n.value.source.toList ++ rest)).dropWhile isBlank =
      n.value.source.toList ++ rest := by
    rw [List.dropWhile_cons_of_pos rfl, literal_begins hvalue]
  rw [argument_eq, bind_ok hread, bind_ok (skipBlanks_apply _), hblank, bind_ok (hcolon _)]
  simp only [if_true, namedArgument]
  rw [bind_ok (skipBlanks_apply _), hspace, bind_ok hvalue]
  simp only [hnone, Bool.false_eq_true, if_false]
  rfl

/-- Arguments that are added one after the other. -/
private def AddsAll (nested : Nested) : CallArguments → List (List Char) → CallArguments → Prop
  | before, [], after => before = after
  | before, text :: rest, after =>
    ∃ mid, Adds nested text before mid ∧ AddsAll nested mid rest after

omit h in
private theorem AddsAll.append {texts others : List (List Char)} {before mid after : CallArguments}
    (hfirst : AddsAll nested before texts mid) (hothers : AddsAll nested mid others after) :
    AddsAll nested before (texts ++ others) after := by
  induction texts generalizing before with
  | nil =>
    obtain rfl : before = mid := hfirst
    exact hothers
  | cons text texts ih =>
    obtain ⟨next, hadds, hrest⟩ := hfirst
    exact ⟨next, hadds, ih hrest⟩

private theorem positional_addsAll {expressions : List Expression}
    (he : ∀ e ∈ expressions, shape.Inline e) (level : Nat) (positional : List Expression) :
    AddsAll nested ⟨positional, []⟩ (expressions.map (Expression.written level))
      ⟨positional ++ expressions.map Expression.dedent, []⟩ := by
  induction expressions generalizing positional with
  | nil =>
    rw [List.map_nil, List.map_nil, List.append_nil]
    rfl
  | cons e rest ih =>
    refine ⟨_, positional_adds h (he e List.mem_cons_self) level positional, ?_⟩
    have hrest := ih (fun e he' => he e (List.mem_cons_of_mem _ he')) (positional ++ [e.dedent])
    rwa [List.append_assoc, List.singleton_append] at hrest

omit h in
private theorem named_addsAll {arguments : List NamedArgument} (hn : ∀ n ∈ arguments, n.Sound)
    (positional : List Expression) {named : List NamedArgument}
    (hdistinct : ((named ++ arguments).map (·.name)).Nodup) :
    AddsAll nested ⟨positional, named⟩ (arguments.map (·.source.toList))
      ⟨positional, named ++ arguments⟩ := by
  induction arguments generalizing named with
  | nil =>
    rw [List.append_nil]
    rfl
  | cons n rest ih =>
    rw [← List.singleton_append, ← List.append_assoc] at hdistinct
    have hnew : ∀ m ∈ named, m.name ≠ n.name := by
      intro m hm heq
      rw [List.map_append, List.map_append, List.append_assoc] at hdistinct
      refine (List.nodup_append.mp hdistinct).2.2 _ (List.mem_map_of_mem hm) n.name ?_ heq
      simp
    refine ⟨_, named_adds (hn n List.mem_cons_self) positional hnew, ?_⟩
    have hrest := ih (fun m hm => hn m (List.mem_cons_of_mem _ hm)) hdistinct
    rwa [List.append_assoc, List.singleton_append] at hrest

omit h in
/-- A step of a list of arguments reads one of them and then looks for a comma. -/
private theorem argumentStep_reads {before after : CallArguments}
    (hadds : Adds nested text before after) {blank : List Char} (hblank : Blank blank)
    (hends : EndsArgument rest) :
    argumentStep nested before (blank ++ (text ++ rest)) =
      (accept ',' >>= fun comma => pure (if comma then .again after else .done after)) rest := by
  obtain ⟨hread, c, tail, htext, hc, hclose⟩ := hadds rest hends
  have hstart : (blank ++ (text ++ rest)).dropWhile isBlank = text ++ rest := by
    rw [List.dropWhile_append_of_pos hblank, htext, List.dropWhile_cons_of_neg (by simp [hc])]
  have hhead : (text ++ rest).head? ≠ some ')' := by
    rw [htext]
    simpa using hclose
  have hrest : rest.dropWhile isBlank = rest := by
    obtain ⟨d, tail, rfl, rfl | rfl⟩ := hends <;> rfl
  rw [argumentStep_apply, hstart, if_neg hhead, argumentAndComma, bind_ok hread,
    bind_ok (skipBlanks_apply _), hrest]

omit h in
/-- Arguments are read one after the other, with a comma and a space between them. -/
private theorem arguments_loop (hcontained : nested.Contained) {texts : List (List Char)}
    {before after : CallArguments} (hadds : AddsAll nested before texts after)
    {blank : List Char} (hblank : Blank blank) (rest : List Char) :
    loop (argumentStep nested) before (blank ++ ([',', ' '].intercalate texts ++ ')' :: rest)) =
      .ok (after, ')' :: rest) := by
  have hadvances := advances_argumentStep hcontained
  -- The induction is on the texts; what has been added to the arguments so far is carried along.
  induction texts generalizing before blank with
  | nil =>
    obtain rfl : before = after := hadds
    have hclose : (blank ++ ')' :: rest).dropWhile isBlank = ')' :: rest := by
      rw [List.dropWhile_append_of_pos hblank]
      rfl
    refine loop_done hadvances ?_
    rw [argumentStep_apply, List.intercalate_nil, List.nil_append, hclose]
    rfl
  | cons text texts ih =>
    obtain ⟨mid, hadd, hothers⟩ := hadds
    cases texts with
    | nil =>
      obtain rfl : mid = after := hothers
      have hends : EndsArgument (')' :: rest) := ⟨')', rest, rfl, Or.inr rfl⟩
      refine loop_done hadvances ?_
      rw [List.intercalate_singleton, argumentStep_reads hadd hblank hends]
      rfl
    -- Behind the comma the loop goes on with one space before the next argument.
    | cons next texts =>
      have hends : EndsArgument
          (',' :: ([' '] ++ ([',', ' '].intercalate (next :: texts) ++ ')' :: rest))) :=
        ⟨',', _, rfl, Or.inl rfl⟩
      have hcomma (line : List Char) : accept ',' (',' :: line) = .ok (true, line) := rfl
      have hspace : Blank [' '] := blank_replicate 1
      have hstep := argumentStep_reads hadd hblank hends
      rw [bind_ok (hcomma _)] at hstep
      have htext : [',', ' '].intercalate (text :: next :: texts) ++ ')' :: rest =
          text ++ ',' :: ([' '] ++ ([',', ' '].intercalate (next :: texts) ++ ')' :: rest)) := by
        simp [List.intercalate_cons_cons]
      rw [htext, loop_again hadvances hstep, ih hothers hspace]

/-- Call arguments are read back, whatever follows them. -/
theorem argumentList_reads {a : CallArguments} (ha : shape.Listed a) (level : Nat)
    (rest : List Char) :
    argumentList nested (a.written level ++ rest) = .ok (a.dedent, rest) := by
  obtain ⟨positional, named⟩ := a
  have hadds : AddsAll nested ⟨[], []⟩ (argumentTexts level ⟨positional, named⟩)
      ⟨positional.map Expression.dedent, named⟩ := by
    have hpositional := positional_addsAll h ha.positional level []
    have hnamed : AddsAll nested ⟨positional.map Expression.dedent, []⟩ _ _ :=
      named_addsAll ha.named _ ha.distinct
    exact hpositional.append hnamed
  have hloop := arguments_loop h.contained hadds blank_nil rest
  have hopen (line : List Char) : expect '(' ('(' :: line) = .ok ((), line) := rfl
  have hclose (line : List Char) : expect ')' (')' :: line) = .ok ((), line) := rfl
  have hblank (line : List Char) : (')' :: line).dropWhile isBlank = ')' :: line := rfl
  rw [List.nil_append] at hloop
  rw [ha.written_eq h.tidy level, argumentList, List.cons_append, List.cons_append,
    List.append_assoc, List.singleton_append, bind_ok (hopen _), bind_ok hloop,
    bind_ok (skipBlanks_apply _), hblank, bind_ok (hclose _), CallArguments.dedent,
    Expression.dedentAll_eq_map]
  rfl


end Phrasebook.Reader
