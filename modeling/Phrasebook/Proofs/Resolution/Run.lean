import Mathlib.Data.Option.Basic
import Phrasebook.Resolution.Resolver

/-!
# Running resolutions

What the steps of a resolution do to their context, and the equations of the resolver in terms of
them. A frame is opened or not for one of three reasons, told by the stack and the room left.
-/

namespace Phrasebook

/-- The error tells that a limit of resolution was met. -/
def ResolutionError.isLimit : ResolutionError → Bool
  | cyclicReference _ => true
  | tooDeep _ => true
  | tooManyPlaceables _ => true
  | _ => false

/-- The value of a message, or an attribute of it. -/
def Message.part? (m : Message) : Option String → Option Pattern
  | none => m.value
  | some name => (Attribute.find? m.attributes name).map fun a => a.value

/-- The value of a term, or an attribute of it. -/
def Term.part? (t : Term) : Option String → Option Pattern
  | none => some t.value
  | some name => (Attribute.find? t.attributes name).map fun a => a.value

namespace Variant

variable {α β : Type} {locale : String} {variants : List Variant} {selector : Option Value}

/-- The variant for a selector, whatever the variants are paired with. -/
def chosen? (locale : String) (variants : List Variant) (selector : Option Value) :
    Option Variant :=
  (choose? locale (variants.map fun v => (v, ())) selector).map (·.1)

private theorem default?_map (g : Variant → β) (pairs : List (Variant × α)) :
    default? (pairs.map fun v => (v.1, g v.1)) = (default? pairs).map fun v => (v.1, g v.1) := by
  have hdefault : ((fun v : Variant × β => v.1.isDefault) ∘ fun v : Variant × α => (v.1, g v.1)) =
      fun v => v.1.isDefault := rfl
  rw [default?, default?, List.find?_map, List.head?_map, hdefault]
  cases pairs.find? fun v => v.1.isDefault <;> rfl

private theorem matching?_map (g : Variant → β) (pairs : List (Variant × α)) (value : Value) :
    matching? locale (pairs.map fun v => (v.1, g v.1)) value =
      (matching? locale pairs value).map fun v => (v.1, g v.1) := by
  simp only [matching?, List.find?_map, Function.comp_def]
  cases pairs.find? fun v => v.1.key.isValue value <;> cases value.asNumber? <;> simp

private theorem choose?_map (g : Variant → β) (pairs : List (Variant × α)) :
    choose? locale (pairs.map fun v => (v.1, g v.1)) selector =
      (choose? locale pairs selector).map fun v => (v.1, g v.1) := by
  rw [choose?, choose?, default?_map]
  cases selector with
  | none => rfl
  | some value =>
    rw [Option.bind_some, Option.bind_some, matching?_map]
    cases matching? locale pairs value <;> simp

/-- What is kept for each variant is chosen with the variant. -/
theorem choose?_eq_chosen? (f : Variant → α) :
    choose? locale (variants.map fun v => (v, f v)) selector =
      (chosen? locale variants selector).map fun v => (v, f v) := by
  have h := @choose?_map Unit α locale selector f (variants.map fun v => (v, ()))
  simp only [List.map_map, Function.comp_def] at h
  rw [h, chosen?, Option.map_map]
  rfl

private theorem mem_of_default? {pairs : List (Variant × α)} {pair : Variant × α}
    (h : default? pairs = some pair) : pair ∈ pairs := by
  rcases (Option.orElse_eq_some _ _ _).mp h with h | ⟨-, h⟩
  · exact List.mem_of_find?_eq_some h
  · exact List.mem_of_head? h

private theorem mem_of_matching? {pairs : List (Variant × α)} {pair : Variant × α} {value : Value}
    (h : matching? locale pairs value = some pair) : pair ∈ pairs := by
  rcases (Option.orElse_eq_some _ _ _).mp h with h | ⟨-, h⟩
  · exact List.mem_of_find?_eq_some h
  · obtain ⟨n, -, hfind⟩ := Option.bind_eq_some_iff.mp h
    exact List.mem_of_find?_eq_some hfind

/-- The variant that is chosen is one of those to choose from. -/
theorem mem_of_chosen? {v : Variant} (h : chosen? locale variants selector = some v) :
    v ∈ variants := by
  obtain ⟨pair, hchoose, rfl⟩ := Option.map_eq_some_iff.mp h
  have hpair : pair ∈ variants.map fun v => (v, ()) := by
    rcases (Option.orElse_eq_some _ _ _).mp hchoose with h | ⟨-, h⟩
    · obtain ⟨value, -, hmatching⟩ := Option.bind_eq_some_iff.mp h
      exact mem_of_matching? hmatching
    · exact mem_of_default? h
  obtain ⟨v, hv, rfl⟩ := List.mem_map.mp hpair
  exact hv

/-- The three stages of the choice: by key, by plural category, by default. -/
theorem chosen?_eq (locale : String) (variants : List Variant) (selector : Option Value) :
    chosen? locale variants selector =
      ((selector.bind fun value =>
          (variants.find? fun v => v.key.isValue value) <|>
            value.asNumber?.bind fun n =>
              variants.find? fun v => v.key.isName (n.category locale).name) <|>
        (variants.find? fun v => v.isDefault) <|> variants.head?) := by
  simp [chosen?, choose?, matching?, default?, List.find?_map, Function.comp_def, Option.map_or,
    Option.map_bind]

/-- Of at least one variant, one is chosen. -/
theorem exists_chosen? (h : variants ≠ []) (locale : String) (selector : Option Value) :
    ∃ v, chosen? locale variants selector = some v := by
  rw [← Option.isSome_iff_exists, chosen?_eq]
  simp [h]

end Variant

namespace Context

variable {c : Context}

/-- Once the limit is exceeded, nothing is counted. -/
theorem countPlaceable_of_exhausted (h : c.exhausted = true) : c.countPlaceable = c := by
  rw [countPlaceable, if_pos h]

/-- Below the limit a placeable is counted. -/
theorem countPlaceable_of_lt (h : c.exhausted = false) (hlt : c.placeables < c.maxPlaceables) :
    c.countPlaceable = { c with placeables := c.placeables + 1 } := by
  rw [countPlaceable, if_neg (by simp [h]), if_pos hlt]

/-- The first placeable beyond the limit is recorded as an error. -/
theorem countPlaceable_of_le (h : c.exhausted = false) (hle : c.maxPlaceables ≤ c.placeables) :
    c.countPlaceable = { c with
      placeables := c.placeables + 1
      exhausted := true
      errors := c.errors ++ [.tooManyPlaceables c.maxPlaceables] } := by
  rw [countPlaceable, if_neg (by simp [h]), if_neg (by omega)]
  rfl

/-- Counting does one of three things: nothing, counting, or recording that the limit is
exceeded. -/
theorem countPlaceable_cases (c : Context) :
    c.countPlaceable = c ∨ c.countPlaceable = { c with placeables := c.placeables + 1 } ∨
      c.countPlaceable = { c with
        placeables := c.placeables + 1
        exhausted := true
        errors := c.errors ++ [.tooManyPlaceables c.maxPlaceables] } := by
  by_cases h : c.exhausted = true
  · exact .inl (countPlaceable_of_exhausted h)
  · rw [Bool.not_eq_true] at h
    rcases Nat.lt_or_ge c.placeables c.maxPlaceables with hlt | hle
    · exact .inr (.inl (countPlaceable_of_lt h hlt))
    · exact .inr (.inr (countPlaceable_of_le h hle))

end Context

namespace Resolution

variable {α β : Type}

/-- Whether the limit of placeables has been exceeded. -/
def exhausted : Resolution Bool := return (← get).exhausted

/-- Counts a placeable. -/
def count : Resolution Unit := modify (·.countPlaceable)

/-- Runs a step that may fail, and replaces its error by a fallback. -/
def reaching (fallback : String) (step : Resolution (Except ResolutionError α)) :
    Resolution (Except String α) := do
  orFallback fallback (← step)

/-- A sequence of steps runs them one after the other. -/
theorem run_bind (m : Resolution α) (f : α → Resolution β) (c : Context) :
    (m >>= f).run c = (f (m.run c).1).run (m.run c).2 := rfl

/-- Asking whether the limit is exceeded changes nothing. -/
@[simp] theorem run_exhausted (c : Context) : exhausted.run c = (c.exhausted, c) := rfl

/-- Counting a placeable changes the context only. -/
@[simp] theorem run_count (c : Context) : count.run c = ((), c.countPlaceable) := rfl

/-- A step with a scope runs in the child of a context, and what is left absorbs that. -/
theorem run_withScope (scope : Arguments) (m : Resolution α) (c : Context) :
    (withScope scope m).run c =
      ((m.run (c.child scope)).1, c.emptied.absorb (m.run (c.child scope)).2) := rfl

/-- The stack has one more frame during a step, and after it the frames it had before. -/
theorem run_inFrame (frame : Frame) (m : Resolution α) (c : Context) :
    (inFrame frame m).run c =
      ((m.run { c with stack := frame :: c.stack }).1,
        { (m.run { c with stack := frame :: c.stack }).2 with
          stack := (m.run { c with stack := frame :: c.stack }).2.stack.tail }) := rfl

/-- A reference is written by its fallback where the step comes to an error. -/
theorem run_reaching (fallback : String) (m : Resolution (Except ResolutionError α))
    (c : Context) :
    (reaching fallback m).run c = (orFallback fallback (m.run c).1).run (m.run c).2 := rfl

/-- A fallback is written for an error that is recorded. -/
theorem run_report_error (e : ResolutionError) (fallback : String) (c : Context) :
    (do report e; return .error fallback : Resolution (Except String α)).run c =
      (.error fallback, c.report e) := rfl

/-- What is recorded does not depend on the variables in sight. -/
theorem reaching_withScope (fallback : String) (scope : Arguments)
    (m : Resolution (Except ResolutionError α)) :
    reaching fallback (withScope scope m) = withScope scope (reaching fallback m) := by
  funext c
  change (reaching fallback (withScope scope m)).run c =
    (withScope scope (reaching fallback m)).run c
  rw [run_reaching, run_withScope, run_withScope, run_reaching]
  cases (m.run (c.child scope)).1 <;> rfl

end Resolution

namespace Resolver

open Resolution

variable {r : Resolver} {o : Opening} {id : String} {attr : Option String} {p : Pattern}
  {e : ResolutionError}

/-- The text of an expression: that of its value, or the fallback for it. -/
def writeResult (r : Resolver) : Except String Value → Resolution String
  | .ok value => r.writeValue value
  | .error fallback => pure fallback

/-- Text is written unless the limit is exceeded. -/
theorem elements_text (isolating : Bool) (value : String) (rest : Pattern) :
    elements r o isolating (.text value :: rest) = do
      if ← exhausted then return ""
      return value ++ (← elements r o isolating rest) := by
  rw [elements]
  rfl

/-- A placeable is counted, and written unless the limit is exceeded. -/
theorem elements_placeable (isolating : Bool) (inner : Expression) (rest : Pattern) :
    elements r o isolating (.placeable inner :: rest) = do
      count
      if ← exhausted then return ""
      let text ← r.writeResult (← expression r o inner)
      return (if isolating && inner.isIsolated then isolate text else text) ++
        (← elements r o isolating rest) := by
  rw [elements, exhausted, count]
  simp only [bind_assoc, pure_bind]
  refine bind_congr fun _ => bind_congr fun c => ?_
  split
  · rfl
  · refine bind_congr fun result => ?_
    cases result <;> simp [writeResult]

section Elements

variable {isolating : Bool} {c : Context} {inner : Expression} {rest : Pattern}

/-- Once the limit is exceeded, nothing is written. -/
theorem run_elements_of_exhausted (h : c.exhausted = true) :
    (elements r o isolating p).run c = ("", c) := by
  cases p with
  | nil => rw [elements]; rfl
  | cons element rest =>
    cases element with
    | text value =>
      rw [elements_text, run_bind, run_exhausted]
      simp only [h]
      rfl
    | placeable inner =>
      rw [elements_placeable, run_bind, run_count, Context.countPlaceable_of_exhausted h, run_bind,
        run_exhausted]
      simp only [h]
      rfl

/-- Below the limit, text stands before what follows it. -/
theorem run_elements_text {value : String} (h : c.exhausted = false) :
    (elements r o isolating (.text value :: rest)).run c =
      (value ++ ((elements r o isolating rest).run c).1,
        ((elements r o isolating rest).run c).2) := by
  rw [elements_text, run_bind, run_exhausted]
  simp only [h]
  rfl

/-- A placeable that exceeds the limit is not written, and nothing after it. -/
theorem run_elements_full (h : c.countPlaceable.exhausted = true) :
    (elements r o isolating (.placeable inner :: rest)).run c = ("", c.countPlaceable) := by
  rw [elements_placeable, run_bind, run_count, run_bind, run_exhausted]
  simp only [h]
  rfl

/-- Below the limit, what a placeable writes, isolated or not, stands before what follows it. -/
theorem run_elements_placeable (h : c.countPlaceable.exhausted = false) :
    (elements r o isolating (.placeable inner :: rest)).run c =
      let result := (expression r o inner).run c.countPlaceable
      let text := (r.writeResult result.1).run result.2
      let more := (elements r o isolating rest).run text.2
      ((if isolating && inner.isIsolated then isolate text.1 else text.1) ++ more.1, more.2) := by
  rw [elements_placeable, run_bind, run_count, run_bind, run_exhausted]
  simp only [h]
  rfl

end Elements

/-- What a function comes to, or why it comes to nothing. -/
def applied (r : Resolver) (name : String) (positional : List Value) (named : Arguments) :
    Except ResolutionError Value :=
  match r.functions.find? name with
  | none => .error (.unknownFunction name)
  | some function => (function positional named r.locale).mapError (.functionFailed name)

/-- A call is written by its fallback where it fails. -/
theorem call_some (name : String) (positional : List Value) (named : Arguments) :
    r.call name (some positional) named =
      orFallback (braced (name ++ "()")) (r.applied name positional named) := rfl

/-- The text of a variant. -/
def variantText (r : Resolver) (o : Opening) (v : Variant) : Resolution String :=
  elements r o (r.useIsolating && 1 < v.value.length) v.value

/-- What is kept for each variant is its text, still to be resolved. -/
theorem variantTexts_eq_map (r : Resolver) (o : Opening) (variants : List Variant) :
    variantTexts r o variants = variants.map fun v => (v, r.variantText o v) := by
  induction variants with
  | nil => rfl
  | cons v rest ih =>
    obtain ⟨key, value, isDefault⟩ := v
    rw [variantTexts, ih, List.map_cons, variantText]

/-- A select expression resolves its selector and then the variant that is chosen. -/
theorem expression_select (r : Resolver) (o : Opening) (selector : Expression)
    (variants : List Variant) :
    expression r o (.select selector variants) = do
      let selected ← expression r o selector
      match Variant.chosen? r.locale variants selected.toOption with
      | none => orFallback (braced "???") (.error .noVariants)
      | some v => return .ok (.string (← r.variantText o v)) := by
  rw [expression, variantTexts_eq_map]
  refine bind_congr fun selected => ?_
  rw [Variant.choose?_eq_chosen?]
  cases Variant.chosen? r.locale variants selected.toOption <;> rfl

/-- A name stands for the value of the last argument that has it. -/
theorem lookup_values (named : List NamedArgument) (name : String) :
    (NamedArgument.values named).lookup name =
      (named.reverse.find? fun a => a.name = name).map fun a => a.value.toValue := by
  induction named with
  | nil => rfl
  | cons a rest ih =>
    rw [NamedArgument.values, List.reverse_cons, List.find?_append]
    by_cases hname : a.name = name
    · subst hname
      by_cases hagain : rest.any fun other => other.name = a.name
      · have hfound : (rest.reverse.find? fun other => other.name = a.name).isSome := by
          simpa using hagain
        obtain ⟨other, hother⟩ := Option.isSome_iff_exists.mp hfound
        rw [if_pos hagain, ih, hother]
        rfl
      · have hnone : (rest.reverse.find? fun other => other.name = a.name) = none := by
          simpa using hagain
        rw [if_neg hagain, hnone]
        simp
    · have hlookup : (NamedArgument.values (a :: rest)).lookup name =
          (NamedArgument.values rest).lookup name := by
        have hne : (name == a.name) = false := by simpa using Ne.symm hname
        rw [NamedArgument.values]
        split
        · rfl
        · rw [List.lookup_cons, hne]
      rw [← NamedArgument.values, hlookup, ih]
      simp [hname]

/-- The variables that a term sees: its named arguments. -/
def termScope : Option CallArguments → Arguments
  | none => []
  | some arguments => NamedArgument.values arguments.named

/-- A term is opened with the named arguments of the reference for its variables. -/
theorem expression_termRef (r : Resolver) (o : Opening) (id : String) (attr : Option String)
    (arguments : Option CallArguments) :
    expression r o (.termRef id attr arguments) =
      return (← r.openTerm o id attr (termScope arguments)).map .string := by
  rcases arguments with _ | ⟨positional, named⟩ <;> rw [expression] <;> rfl

/-- A pattern that a message reference finds is a part of the message. -/
theorem messagePattern_ok (h : r.messagePattern id attr = .ok p) :
    ∃ m, r.entries.message? id = some m ∧ m.part? attr = some p := by
  rw [messagePattern] at h
  cases hmessage : r.entries.message? id with
  | none => simp [hmessage] at h
  | some m =>
    refine ⟨m, rfl, ?_⟩
    cases attr with
    | none => cases hvalue : m.value <;> simp_all [Message.part?]
    | some name => cases hfind : Attribute.find? m.attributes name <;> simp_all [Message.part?]

/-- A pattern that a term reference finds is a part of the term. -/
theorem termPattern_ok (h : r.termPattern id attr = .ok p) :
    ∃ t, r.entries.term? id = some t ∧ t.part? attr = some p := by
  rw [termPattern] at h
  cases hterm : r.entries.term? id with
  | none => simp [hterm] at h
  | some t =>
    refine ⟨t, rfl, ?_⟩
    cases attr with
    | none => simp_all [Term.part?]
    | some name => cases hfind : Attribute.find? t.attributes name <;> simp_all [Term.part?]

/-- A message whose pattern is found is reached. -/
theorem openMessage_of_ok (h : r.messagePattern id attr = .ok p) :
    r.openMessage o id attr =
      reaching (braced (referenceName id attr)) (o (.message id attr) p) := by
  rw [openMessage, h]
  rfl

/-- A message whose pattern is not found is an error, and written by its fallback. -/
theorem openMessage_of_error (h : r.messagePattern id attr = .error e) :
    r.openMessage o id attr = do
      report e
      return .error (braced (referenceName id attr)) := by
  rw [openMessage, h]
  rfl

/-- A term whose pattern is found is reached with variables of its own. -/
theorem openTerm_of_ok (h : r.termPattern id attr = .ok p) (scope : Arguments) :
    r.openTerm o id attr scope =
      withScope scope
        (reaching (braced ("-" ++ referenceName id attr)) (o (.term id attr) p)) := by
  rw [openTerm, h, ← reaching_withScope]
  rfl

/-- A term whose pattern is not found is an error, and written by its fallback. -/
theorem openTerm_of_error (h : r.termPattern id attr = .error e) (scope : Arguments) :
    r.openTerm o id attr scope = do
      report e
      return .error (braced ("-" ++ referenceName id attr)) := by
  rw [openTerm, h]
  rfl

section Opens

variable {r' : Resolver} {o' : Opening}
  {Rel : Resolution (Except String String) → Resolution (Except String String) → Prop}

/-- Two ways to follow a reference to the same pattern are related if the two ways to open its frame
are, and what is left where there is no pattern is related to itself. -/
theorem openMessage_rel (hsame : r'.messagePattern id attr = r.messagePattern id attr)
    (hopen : ∀ p, r.messagePattern id attr = .ok p →
      Rel (reaching (braced (referenceName id attr)) (o (.message id attr) p))
        (reaching (braced (referenceName id attr)) (o' (.message id attr) p)))
    (hmissing : ∀ e, r.messagePattern id attr = .error e →
      Rel (do report e; return .error (braced (referenceName id attr)))
        (do report e; return .error (braced (referenceName id attr)))) :
    Rel (r.openMessage o id attr) (r'.openMessage o' id attr) := by
  cases hp : r.messagePattern id attr with
  | ok p =>
    rw [openMessage_of_ok hp, openMessage_of_ok (hsame.trans hp)]
    exact hopen p hp
  | error e =>
    rw [openMessage_of_error hp, openMessage_of_error (hsame.trans hp)]
    exact hmissing e hp

/-- The same for terms, whose frames are opened with their own variables in sight. -/
theorem openTerm_rel {scope : Arguments}
    (hsame : r'.termPattern id attr = r.termPattern id attr)
    (hopen : ∀ p, r.termPattern id attr = .ok p →
      Rel (withScope scope (reaching (braced ("-" ++ referenceName id attr)) (o (.term id attr) p)))
        (withScope scope (reaching (braced ("-" ++ referenceName id attr)) (o' (.term id attr) p))))
    (hmissing : ∀ e, r.termPattern id attr = .error e →
      Rel (do report e; return .error (braced ("-" ++ referenceName id attr)))
        (do report e; return .error (braced ("-" ++ referenceName id attr)))) :
    Rel (r.openTerm o id attr scope) (r'.openTerm o' id attr scope) := by
  cases hp : r.termPattern id attr with
  | ok p =>
    rw [openTerm_of_ok hp, openTerm_of_ok (hsame.trans hp)]
    exact hopen p hp
  | error e =>
    rw [openTerm_of_error hp, openTerm_of_error (hsame.trans hp)]
    exact hmissing e hp

end Opens

private theorem run_variableValue (name : String) (c : Context) :
    (variableValue name).run c =
      (match c.lookup? name with
        | some value => pure (.ok value)
        | none => orFallback (braced ("$" ++ name)) (.error (.unknownVariable name)) :
        Resolution (Except String Value)).run c := rfl

/-- A variable that is known has its value. -/
theorem run_variableValue_some {name : String} {value : Value} {c : Context}
    (h : c.lookup? name = some value) : (variableValue name).run c = (.ok value, c) := by
  rw [run_variableValue, h]
  rfl

/-- A variable that is not known is an error, and written by its fallback. -/
theorem run_variableValue_none {name : String} {c : Context} (h : c.lookup? name = none) :
    (variableValue name).run c =
      (.error (braced ("$" ++ name)), c.report (.unknownVariable name)) := by
  rw [run_variableValue, h]
  rfl

section Opening

variable {frame : Frame} {room : Nat} {c : Context} {fallback : String}

private theorem run_opening :
    (opening r room frame p).run c =
      (if frame ∈ c.stack then pure (.error (.cyclicReference frame.text)) else
        match room with
        | 0 => pure (.error (.tooDeep c.maxDepth))
        | room + 1 => return .ok (← inFrame frame (pattern r (opening r room) p)) :
        Resolution (Except ResolutionError String)).run c := by
  cases room <;> rw [opening] <;> rfl

/-- A frame that is open is not opened again. -/
theorem run_reaching_cyclic (h : frame ∈ c.stack) :
    (reaching fallback (opening r room frame p)).run c =
      (.error fallback, c.report (.cyclicReference frame.text)) := by
  rw [run_reaching, run_opening, if_pos h]
  rfl

/-- Where there is no room, no frame is opened. -/
theorem run_reaching_full (h : frame ∉ c.stack) :
    (reaching fallback (opening r 0 frame p)).run c =
      (.error fallback, c.report (.tooDeep c.maxDepth)) := by
  rw [run_reaching, run_opening, if_neg h]
  rfl

/-- A frame that is not open is opened if there is room. -/
theorem run_reaching_free (h : frame ∉ c.stack) :
    (reaching fallback (opening r (room + 1) frame p)).run c =
      (.ok ((inFrame frame (pattern r (opening r room) p)).run c).1,
        ((inFrame frame (pattern r (opening r room) p)).run c).2) := by
  rw [run_reaching, run_opening, if_neg h]
  rfl

end Opening

/-- The text of a message, or the fallback for it. -/
def shown : Except String String → String
  | .ok text => text
  | .error fallback => fallback

/-- A message is resolved as a reference to it is, from the start. -/
theorem resolve_eq (r : Resolver) (id : String) (attr : Option String) (args : Option Arguments) :
    r.resolve id attr args =
      (shown ((r.openMessage (r.opening r.maxDepth) id attr).run (r.start args)).1,
        ((r.openMessage (r.opening r.maxDepth) id attr).run (r.start args)).2.errors) := by
  have hroom : (r.start args).room = r.maxDepth := rfl
  simp only [resolve, hroom]
  rcases (r.openMessage (r.opening r.maxDepth) id attr).run (r.start args) with ⟨result, context⟩
  cases result <;> rfl

end Resolver

end Phrasebook
