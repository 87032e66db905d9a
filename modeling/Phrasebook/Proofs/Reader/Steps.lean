import Phrasebook.Proofs.Reader.Run

/-!
# Steps by their next character

What the steps of the grammar do, told by the character they meet. Each equation lists all the
branches of one reader; what follows a mark that decides the branch is named as a reader of its own.
-/

namespace Phrasebook.Reader

variable {α : Type}

/-- Nothing is done after a failure. -/
@[simp] theorem fail_bind {β : Type} (problem : Problem) (f : α → Reader β) :
    (fail problem >>= f) = fail problem := rfl

/-! ## Strings and numbers -/

/-- The character behind a backslash tells the escape. -/
theorem escape_cons (c : Char) (rest : List Char) :
    escape (c :: rest) =
      if c = '\\' then .ok ('\\', rest)
      else if c = '"' then .ok ('"', rest)
      else if c = 'u' then codePoint 'u' 4 rest
      else if c = 'U' then codePoint 'U' 6 rest
      else .error ⟨if Text.isBreak c then .unterminatedString else .unknownEscape c,
        c :: rest⟩ := by
  by_cases h₁ : c = '\\'
  · subst h₁; rfl
  by_cases h₂ : c = '"'
  · subst h₂; rfl
  by_cases h₃ : c = 'u'
  · subst h₃; rfl
  by_cases h₄ : c = 'U'
  · subst h₄; rfl
  simp [escape, bind_apply, h₁, h₂, h₃, h₄]

/-- A step of a string meets its end, an escape, a break or a plain character. -/
theorem stringStep_cons (read : List Char) (c : Char) (rest : List Char) :
    stringStep read (c :: rest) =
      if c = '"' then .ok (.done read.reverse, c :: rest)
      else if c = '\\' then (escape >>= fun d => pure (.again (d :: read))) rest
      else if Text.isBreak c then .error ⟨.unterminatedString, c :: rest⟩
      else .ok (.again (c :: read), rest) := by
  by_cases h₁ : c = '"'
  · subst h₁; rfl
  by_cases h₂ : c = '\\'
  · subst h₂; rfl
  by_cases h₃ : Text.isBreak c <;> simp [stringStep, bind_apply, map_apply, h₁, h₂, h₃]

/-! ## Segments -/

/-- A character that may stand in the text of a pattern. -/
def isTextChar (c : Char) : Bool := !Text.isBreak c && c != '{' && c != '}'

/-- Text is made of anything but breaks and braces. -/
theorem isTextChar_iff {c : Char} :
    isTextChar c = true ↔ Text.isBreak c = false ∧ c ≠ '{' ∧ c ≠ '}' := by
  simp only [isTextChar, Bool.and_eq_true, Bool.not_eq_true', bne_iff_ne, and_assoc]

/-- A segment of text goes up to a break or a brace, and a closing brace is a failure. -/
theorem textSegment_apply (indent : Option Nat) (text : List Char) :
    textSegment indent text =
      if (text.dropWhile isTextChar).head? = some '}' then
        .error ⟨.unbalancedClosingBrace, text.dropWhile isTextChar⟩
      else
        match Text.afterLineEnd? (text.dropWhile isTextChar) with
        | some rest => .ok (.text indent (text.takeWhile isTextChar) true, rest)
        | none =>
          .ok (.text indent (text.takeWhile isTextChar) false, text.dropWhile isTextChar) := by
  unfold textSegment
  rw [bind_ok (takeWhile_apply _ _), bind_ok (peek_apply _)]
  have hchar : (fun c => !Text.isBreak c && c != '{' && c != '}') = isTextChar := rfl
  rw [hchar]
  generalize text.dropWhile isTextChar = rest
  have hend : (acceptLineEnd >>= fun newline =>
      pure (Segment.text indent (text.takeWhile isTextChar) newline)) rest =
      match Text.afterLineEnd? rest with
      | some after => .ok (.text indent (text.takeWhile isTextChar) true, after)
      | none => .ok (.text indent (text.takeWhile isTextChar) false, rest) := by
    rw [bind_apply, acceptLineEnd]
    cases Text.afterLineEnd? rest <;> rfl
  rcases rest with _ | ⟨c, rest⟩
  · exact hend
  by_cases h : c = '}'
  · subst h; rfl
  · rw [if_neg (by simpa using h), ← hend]
    simp [h]

section Placeable

variable (placeable : Reader Expression)

/-- No segment follows at the end of the text. -/
@[simp] theorem inLine_nil : inLine placeable [] = .ok (none, []) := rfl

/-- Within a line a segment is a placeable after a brace, and text otherwise. -/
theorem inLine_cons (c : Char) (rest : List Char) :
    inLine placeable (c :: rest) =
      if c = '{' then (placeable >>= fun e => pure (some (.placeable false e))) rest
      else (textSegment none >>= fun segment => pure (some segment)) (c :: rest) := by
  unfold inLine
  rw [bind_ok (peek_apply _)]
  by_cases h : c = '{'
  · subst h; rfl
  · simp only [List.head?_cons, h, if_false]

/-- A line is told by its indentation and by the character behind it. -/
theorem atLine_apply (text : List Char) :
    atLine placeable text =
      match text.dropWhile (· == ' ') with
      | [] => .ok (none, [])
      | c :: rest =>
        let indent := (text.takeWhile (· == ' ')).length
        if c = '{' then
          (placeable >>= fun e => pure (some (.placeable (indent = 0) e))) rest
        else if indent = 0 then
          if Text.isBreak c then
            (textSegment (some 0) >>= fun segment => pure (some segment)) (c :: rest)
          else .ok (none, c :: rest)
        else if endsPattern c then .ok (none, text)
        else (textSegment (some indent) >>= fun segment => pure (some segment)) (c :: rest) := by
  unfold atLine
  rw [bind_ok (get_apply _), bind_ok (skipSpaces_apply _), bind_ok (peek_apply _)]
  cases hd : text.dropWhile (· == ' ') with
  | nil => rfl
  | cons c rest =>
    by_cases h₁ : c = '{'
    · subst h₁; rfl
    simp only [List.head?_cons, h₁, if_false]
    split
    · split <;> rfl
    · split <;> rfl

/-- The next segment of a pattern, if there is one. -/
def nextSegment (startsLine : Bool) (read : List Segment) : Reader (Option Segment) :=
  if atLineStart startsLine read then atLine placeable else inLine placeable

/-- A pattern goes on with a segment, and ends without one. -/
def segmentOutcome (read : List Segment) : Option Segment → Step (List Segment) (List Segment)
  | some segment => .again (segment :: read)
  | none => .done read.reverse

/-- A step of a pattern reads the next segment and goes on if there was one. -/
theorem segmentStep_eq (startsLine : Bool) (read : List Segment) :
    segmentStep placeable startsLine read =
      (nextSegment placeable startsLine read >>= fun next =>
        pure (segmentOutcome read next)) := by
  have hnext (r : Reader (Option Segment)) :
      (r >>= fun next =>
        match next with
        | some segment => pure (.again (segment :: read))
        | none => pure (.done read.reverse)) =
      r >>= fun next => pure (segmentOutcome read next) := by
    refine bind_congr fun next => ?_
    cases next <;> rfl
  rw [nextSegment, ← hnext]
  unfold segmentStep
  split <;> rfl

end Placeable

/-! ## Expressions -/

variable (nested : Nested)

/-- What follows the `-` of a term reference. -/
def termReference : Reader Expression := do
  let id ← identifier
  let attr ← accessor
  if ← reachArguments then return .termRef id attr (some (← nested.arguments))
  return .termRef id attr none

/-- A message reference or a call, from its name on. -/
def nameReference : Reader Expression := do
  let id ← identifier
  match ← accessor with
  | some attr => return .messageRef id (some attr)
  | none =>
    if ← reachArguments then
      if !isCallee id then fail .forbiddenCallee
      return .call id (← nested.arguments)
    return .messageRef id none

/-- No reference follows at the end of the text. -/
@[simp] theorem reference_nil : reference nested [] = .error ⟨.expectedInlineExpression, []⟩ := rfl

/-- The first character of a reference tells its kind. -/
theorem reference_cons (c : Char) (rest : List Char) :
    reference nested (c :: rest) =
      if c = '$' then (identifier >>= fun name => pure (.variableRef name)) rest
      else if c = '-' then termReference nested rest
      else if c = '{' then (nested.placeable >>= fun e => pure (.placeable e)) rest
      else if c.isAlpha then nameReference nested (c :: rest)
      else .error ⟨.expectedInlineExpression, c :: rest⟩ := by
  unfold reference
  rw [bind_ok (peek_apply _)]
  by_cases h₁ : c = '$'
  · subst h₁; rfl
  by_cases h₂ : c = '-'
  · subst h₂; rfl
  by_cases h₃ : c = '{'
  · subst h₃; rfl
  by_cases h₄ : c.isAlpha
  · simp only [List.head?_cons, h₁, h₂, h₃, h₄, if_true, if_false]
    rfl
  · simp only [List.head?_cons, h₁, h₂, h₃, h₄, if_false]
    rfl

/-- A number begins with a digit, or with a minus before a digit. -/
def startsNumber : List Char → Bool
  | [] => false
  | c :: rest => c.isDigit || c == '-' && rest.head?.any Char.isDigit

/-- A literal begins with a quote or as a number does; else none is read. -/
theorem literal?_apply (text : List Char) :
    literal? text =
      if text.head? = some '"' then (stringLiteral >>= fun l => pure (some (.string l))) text
      else if startsNumber text then (numberLiteral >>= fun l => pure (some (.number l))) text
      else .ok (none, text) := by
  unfold literal?
  rw [bind_ok (get_apply _)]
  rcases text with _ | ⟨c, rest⟩
  · rfl
  by_cases h₁ : c = '"'
  · subst h₁; rfl
  by_cases h₂ : c = '-'
  · subst h₂
    rcases rest with _ | ⟨d, rest⟩
    · rfl
    · by_cases h₃ : d.isDigit <;> simp [startsNumber, h₃]
  · by_cases h₃ : c.isDigit <;> simp [startsNumber, h₁, h₂, h₃]

/-- What goes on behind a literal is told by the way the literal begins, if there is one. -/
private theorem literal?_bind {α : Type} (f : Option Literal → Reader α) (text : List Char) :
    (literal? >>= f) text =
      if text.head? = some '"' then (stringLiteral >>= fun l => f (some (.string l))) text
      else if startsNumber text then (numberLiteral >>= fun l => f (some (.number l))) text
      else f none text := by
  rw [bind_apply, literal?_apply]
  by_cases h₁ : text.head? = some '"'
  · simp only [if_pos h₁, bind_apply]
    rcases stringLiteral text with failure | ⟨l, rest⟩ <;> rfl
  · simp only [if_neg h₁]
    by_cases h₂ : startsNumber text
    · simp only [if_pos h₂, bind_apply]
      rcases numberLiteral text with failure | ⟨l, rest⟩ <;> rfl
    · simp only [if_neg h₂]

/-- An inline expression is a literal if it begins as one, and else a reference. -/
theorem inlineExpression_apply (text : List Char) :
    inlineExpression nested text =
      if text.head? = some '"' then (stringLiteral >>= fun l => pure (.string l)) text
      else if startsNumber text then (numberLiteral >>= fun l => pure (.number l)) text
      else reference nested text :=
  literal?_bind _ text

/-- Where a literal has to follow, it is a failure if none does. -/
theorem literal_apply (text : List Char) :
    literal text =
      if text.head? = some '"' then (stringLiteral >>= fun l => pure (.string l)) text
      else if startsNumber text then (numberLiteral >>= fun l => pure (.number l)) text
      else .error ⟨.missingLiteral, text⟩ :=
  literal?_bind _ text

/-- The search for a parenthesis goes back to where it began if it finds none. -/
theorem reachArguments_apply (text : List Char) :
    reachArguments text =
      .ok (if (text.dropWhile Text.isBlank).head? = some '(' then
        (true, text.dropWhile Text.isBlank) else (false, text)) := by
  by_cases h : (text.dropWhile Text.isBlank).head? = some '(' <;>
    simp [reachArguments, bind_apply, map_apply, h]

/-- What becomes of an argument behind a colon. -/
def namedArgument (arguments : CallArguments) : Expression → Reader CallArguments
  | .messageRef name none => do
    skipBlanks
    let value ← literal
    if arguments.named.any (·.name == name) then fail (.duplicatedNamedArgument name)
    return { arguments with named := arguments.named ++ [⟨name, value⟩] }
  | _ => fail .forbiddenKey

/-- What becomes of an argument without a colon. -/
def positionalArgument (arguments : CallArguments) (expression : Expression) :
    Reader CallArguments :=
  if arguments.named.isEmpty then
    return { arguments with positional := arguments.positional ++ [expression] }
  else fail .positionalAfterNamed

/-- An argument is named if a colon follows its expression. -/
theorem argument_eq (arguments : CallArguments) :
    argument nested arguments = (do
      let expression ← inlineExpression nested
      skipBlanks
      if ← accept ':' then namedArgument arguments expression
      else positionalArgument arguments expression) := by
  unfold argument
  refine bind_congr fun expression => bind_congr fun _ => bind_congr fun accepted => ?_
  cases accepted
  · rfl
  · rcases expression with _ | _ | _ | ⟨id, _ | attr⟩ | _ | _ | _ | _ <;> rfl

/-- An argument, and whether a comma asks for another one. -/
def argumentAndComma (arguments : CallArguments) : Reader (Step CallArguments CallArguments) := do
  let arguments ← argument nested arguments
  skipBlanks
  return if ← accept ',' then .again arguments else .done arguments

/-- The arguments end at a closing parenthesis; before it one more is read. -/
theorem argumentStep_apply (arguments : CallArguments) (text : List Char) :
    argumentStep nested arguments text =
      if (text.dropWhile Text.isBlank).head? = some ')' then
        .ok (.done arguments, text.dropWhile Text.isBlank)
      else argumentAndComma nested arguments (text.dropWhile Text.isBlank) := by
  unfold argumentStep
  rw [bind_ok (skipBlanks_apply _), bind_ok (peek_apply _)]
  by_cases h : (text.dropWhile Text.isBlank).head? = some ')'
  · simp only [h, beq_self_eq_true, if_true]
    rfl
  · simp only [beq_iff_eq, if_neg h]
    rfl

/-- The key of a variant without the blanks around it. -/
def bareKey : Reader VariantKey := do
  match ← peek with
  | none => fail .missingVariantKey
  | some ']' => fail .missingVariantKey
  | some c => if c.isDigit || c == '-' then .number <$> numberLiteral else .name <$> identifier

/-- The key of a variant stands between blanks before a closing bracket. -/
theorem variantKey_eq : variantKey = (do
    skipBlanks
    let key ← bareKey
    skipBlanks
    expect ']'
    return key) := by
  unfold variantKey bareKey
  refine bind_congr fun _ => ?_
  rw [bind_assoc]
  refine bind_congr fun c => ?_
  rcases c with _ | c
  · rfl
  · by_cases h : c = ']'
    · subst h
      rfl
    · simp only
      split <;> rfl

/-- No key follows at the end of the text. -/
@[simp] theorem bareKey_nil : bareKey [] = .error ⟨.missingVariantKey, []⟩ := rfl

/-- A key begins as a number or as an identifier. -/
theorem bareKey_cons (c : Char) (rest : List Char) :
    bareKey (c :: rest) =
      if c = ']' then .error ⟨.missingVariantKey, c :: rest⟩
      else if c.isDigit || c == '-' then (VariantKey.number <$> numberLiteral) (c :: rest)
      else (VariantKey.name <$> identifier) (c :: rest) := by
  unfold bareKey
  rw [bind_ok (peek_apply _)]
  by_cases h : c = ']'
  · subst h
    rfl
  · simp only [List.head?_cons, h, if_false]
    split <;> rfl

/-- A variant from its opening bracket on, and the blanks behind it. -/
def variant (isDefault : Bool) : Reader Variant := do
  expect '['
  let key ← variantKey
  match ← pattern nested.placeable with
  | none => fail .missingValue
  | some value =>
    skipBlanks
    return ⟨key, value, isDefault⟩

/-- The variants end with the text. -/
@[simp] theorem variantStep_nil (read : List Variant) :
    variantStep nested read [] = .ok (.done read.reverse, []) := rfl

/-- A variant begins with an asterisk or a bracket; with anything else the variants end. There is
one asterisk at most. -/
theorem variantStep_cons (read : List Variant) (c : Char) (rest : List Char) :
    variantStep nested read (c :: rest) =
      if c = '*' then
        if read.any (·.isDefault) then .error ⟨.multipleDefaultVariants, rest⟩
        else (variant nested true >>= fun v => pure (.again (v :: read))) rest
      else if c = '[' then (variant nested false >>= fun v => pure (.again (v :: read))) (c :: rest)
      else .ok (.done read.reverse, c :: rest) := by
  -- Behind the asterisk, or without one, the rest of the step is the reader of one variant.
  have hbody (isDefault : Bool) : (do
      expect '['
      let key ← variantKey
      match ← pattern nested.placeable with
      | none => fail .missingValue
      | some value =>
        skipBlanks
        return Step.again (⟨key, value, isDefault⟩ :: read) :
        Reader (Step (List Variant) (List Variant))) =
      (variant nested isDefault >>= fun v => pure (.again (v :: read))) := by
    unfold variant
    simp only [bind_assoc]
    refine bind_congr fun _ => bind_congr fun key => bind_congr fun value => ?_
    cases value
    · rfl
    · simp
  unfold variantStep
  rw [bind_ok (peek_apply _), bind_ok (peek_apply _)]
  by_cases h₁ : c = '*'
  · subst h₁
    rw [if_pos rfl]
    by_cases hd : read.any (·.isDefault)
    · rw [if_pos hd]
      simp [hd, bind_apply]
    · rw [if_neg hd]
      simp only [List.head?_cons, bne_self_eq_false, Bool.false_and, Bool.false_eq_true, if_false]
      rw [bind_ok (accept_cons ..)]
      simp only [hd, Bool.and_false, Bool.false_eq_true, if_false]
      exact congrFun (hbody true) rest
  by_cases h₂ : c = '['
  · subst h₂
    rw [if_neg h₁, if_pos rfl]
    simp only [List.head?_cons, bne_self_eq_false, Bool.and_false, Bool.false_eq_true, if_false]
    rw [bind_ok (accept_cons ..)]
    exact congrFun (hbody false) ('[' :: rest)
  · simp [h₁, h₂]

/-- What follows an arrow behind a selector. -/
def selection (selector : Expression) : Reader Expression := do
  let _ ← skipSpaces
  if !(← acceptLineEnd) then fail (.expectedToken '⏎')
  return .select selector (← variants nested)

/-- An expression that is no selector stands for itself unless it is an attribute of a term. -/
def standalone : Expression → Reader Expression
  | .termRef _ (some _) _ => fail .termAttributeAsPlaceable
  | selector => return selector

/-- An expression from the blanks behind its first part on. -/
def expressionFrom (selector : Expression) : Reader Expression := do
  match ← get with
  | '-' :: '>' :: rest =>
    match selectorProblem? selector with
    | some problem => fail problem
    | none =>
      set rest
      selection nested selector
  | _ => standalone selector

/-- An arrow asks for variants, if the expression before it may select one. -/
theorem expressionFrom_arrow (selector : Expression) (rest : List Char) :
    expressionFrom nested selector ('-' :: '>' :: rest) =
      match selectorProblem? selector with
      | some problem => .error ⟨problem, '-' :: '>' :: rest⟩
      | none => selection nested selector rest := by
  unfold expressionFrom
  rw [bind_ok (get_apply _)]
  cases selectorProblem? selector <;> rfl

/-- Without an arrow, what was read is the whole expression. -/
theorem expressionFrom_of_ne (selector : Expression) {text : List Char}
    (h : ∀ rest, text ≠ '-' :: '>' :: rest) :
    expressionFrom nested selector text = standalone selector text := by
  unfold expressionFrom
  rw [bind_ok (get_apply _)]
  split
  · exact absurd rfl (h _)
  · rfl

/-- An expression is an inline expression and what follows it. -/
theorem expression_eq : expression nested = (do
    let selector ← inlineExpression nested
    skipBlanks
    expressionFrom nested selector) := by
  unfold expression expressionFrom selection
  refine bind_congr fun selector => bind_congr fun _ => bind_congr fun line => ?_
  rcases line with _ | ⟨c, _ | ⟨d, rest⟩⟩
  · rfl
  · by_cases h : c = '-'
    · subst h
      rfl
    · simp only
      rfl
  · by_cases h₁ : c = '-'
    · by_cases h₂ : d = '>'
      · subst h₁ h₂
        cases selectorProblem? selector <;> simp
      · simp only [h₁, h₂, List.cons.injEq, false_and, and_false, imp_self, implies_true]
        rfl
    · simp only [h₁, List.cons.injEq, false_and, imp_self, implies_true]
      rfl

/-! ## Entries -/

/-- An attribute behind its point. -/
def attributeBody : Reader Attribute := do
  match ← definition with
  | (id, some value) => return ⟨id, value⟩
  | (_, none) => fail .missingValue

/-- An attribute begins with a point behind spaces; with anything else the attributes end. -/
theorem attributeStep_apply (read : List Attribute) (text : List Char) :
    attributeStep read text =
      match text.dropWhile (· == ' ') with
      | '.' :: rest => (attributeBody >>= fun a => pure (.again (a :: read))) rest
      | _ => .ok (.done read.reverse, text) := by
  unfold attributeStep
  rw [bind_ok (get_apply _), bind_ok (skipSpaces_apply _)]
  rcases text.dropWhile (· == ' ') with _ | ⟨c, rest⟩
  · rfl
  by_cases h : c = '.'
  · subst h
    rw [bind_ok (accept_cons _ _ _)]
    have hbody : (attributeBody >>= fun a => pure (Step.again (a :: read))) = (do
        match ← definition with
        | (id, some value) => return Step.again (⟨id, value⟩ :: read)
        | (_, none) => fail .missingValue : Reader (Step (List Attribute) (List Attribute))) := by
      rw [attributeBody, bind_assoc]
      refine bind_congr fun ⟨id, value⟩ => ?_
      cases value <;> rfl
    simp only [hbody]
    rfl
  · simp [h, bind_apply, map_apply]

/-- Behind a point an attribute is read. -/
theorem attributeStep_point {text rest : List Char} (read : List Attribute)
    (h : text.dropWhile (· == ' ') = '.' :: rest) :
    attributeStep read text = (attributeBody >>= fun a => pure (.again (a :: read))) rest := by
  rw [attributeStep_apply, h]
  rfl

/-- Without a point the attributes end, and the spaces stay to be read. -/
theorem attributeStep_of_ne {text : List Char} (read : List Attribute)
    (h : ∀ rest, text.dropWhile (· == ' ') ≠ '.' :: rest) :
    attributeStep read text = .ok (.done read.reverse, text) := by
  rw [attributeStep_apply]
  split
  · next rest hrest => exact absurd hrest (h rest)
  · rfl

/-- The parts of a message. -/
def messageBody : Reader (String × Option Pattern × List Attribute) := do
  let (id, value) ← definition
  let attributes ← attributes
  if value.isNone && attributes.isEmpty then fail (.expectedMessageField id)
  return (id, value, attributes)

/-- A message is its parts with the span of the text that they were read from. -/
theorem message_eq (offset : Nat) : message offset = (do
    let ((id, value, attributes), text) ← withText messageBody
    return { id, value, attributes, comment := none, span := spanOf offset text }) := rfl

/-- The parts of a term. -/
def termBody : Reader (String × Pattern × List Attribute) := do
  expect '-'
  match ← definition with
  | (id, none) => fail (.expectedTermField id)
  | (id, some value) => return (id, value, ← attributes)

/-- A term is its parts with the span of the text that they were read from. -/
theorem term_eq (offset : Nat) : term offset = (do
    let ((id, value, attributes), text) ← withText termBody
    return { id, value, attributes, comment := none, span := spanOf offset text }) := rfl

/-- What follows the mark of a comment line of a level, where a text begins with one. -/
def afterSigil? (level : CommentLevel) (text : List Char) : Option (List Char) :=
  (level.sigil.toList.isPrefixOf? text).filter fun rest =>
    rest.head?.all fun c => c == ' ' || Text.isBreak c

/-- A comment goes on if the next line begins with its sigil. -/
theorem commentStep_apply (level : CommentLevel) (read : List String) (text : List Char) :
    commentStep level read text =
      match afterSigil? level text with
      | some rest => (commentLine >>= fun line => pure (.again (line :: read))) rest
      | none => .ok (.done read.reverse, text) := by
  rw [commentStep, bind_apply, acceptSigil, afterSigil?]
  cases hp : level.sigil.toList.isPrefixOf? text with
  | none => rfl
  | some rest =>
    by_cases hm : rest.head?.all fun c => c == ' ' || Text.isBreak c
    · simp only [Option.filter_some, if_pos hm]
      rfl
    · simp only [Option.filter_some, if_neg hm]
      rfl

/-- The first character of an entry tells its kind. -/
theorem entry_apply (offset : Nat) (text : List Char) :
    entry offset text =
      if text.head? = some '#' then (comment >>= fun c => pure (.comment c)) text
      else if text.head? = some '-' then (term offset >>= fun t => pure (.term t)) text
      else (message offset >>= fun m => pure (.message m)) text := by
  unfold entry
  rw [bind_ok (peek_apply _)]
  rcases text with _ | ⟨c, rest⟩
  · rfl
  by_cases h₁ : c = '#'
  · subst h₁; rfl
  by_cases h₂ : c = '-'
  · subst h₂; rfl
  · simp [h₁, h₂]

/-- A character of a line. -/
def isLineChar (c : Char) : Bool := !Text.isBreak c

/-- A line of a comment goes up to a line end, which is not part of it. -/
theorem commentLine_apply (text : List Char) :
    commentLine text =
      match Text.afterLineEnd? text with
      | some rest => .ok ("", rest)
      | none =>
        match text with
        | [] => .ok ("", [])
        | c :: rest =>
          if c = ' ' then
            .ok (String.ofList (rest.takeWhile isLineChar),
              (Text.afterLineEnd? (rest.dropWhile isLineChar)).getD (rest.dropWhile isLineChar))
          else .error ⟨.expectedToken ' ', c :: rest⟩ := by
  rw [commentLine, bind_apply, acceptLineEnd]
  cases he : Text.afterLineEnd? text with
  | some rest => rfl
  | none =>
    cases text with
    | nil => rfl
    | cons c rest =>
      by_cases hc : c = ' '
      · subst hc
        have hend : acceptLineEnd (rest.dropWhile isLineChar) =
            .ok ((Text.afterLineEnd? (rest.dropWhile isLineChar)).isSome,
              (Text.afterLineEnd? (rest.dropWhile isLineChar)).getD
                (rest.dropWhile isLineChar)) := by
          unfold acceptLineEnd
          cases Text.afterLineEnd? (rest.dropWhile isLineChar) <;> rfl
        dsimp only
        rw [if_pos rfl]
        exact bind_ok (f := fun _ => pure (String.ofList (rest.takeWhile isLineChar))) hend
      · simp [bind_apply, hc, expect_apply]

end Phrasebook.Reader
