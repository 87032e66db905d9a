import Phrasebook.Proofs.Resolution.Course
import Phrasebook.Proofs.Resolution.Lockstep

/-!
# A record tells the truth

A resolution that keeps a record comes to the same text and the same errors as one that keeps none,
and the moments of the record lead by single steps from the first to the last. What is known of a
moment is passed along a sequence of steps as in a logic of programs: between two placeables, the
expressions of all that were counted have been started, but for one beyond the limit.
-/

namespace Phrasebook

namespace Resolution

variable {α : Type} {m : Resolution α}

/-- The step changes nothing but that it may record an error, and not the one about placeables. -/
def Notes (m : Resolution α) : Prop :=
  ∀ c, (m.run c).2 = c ∨ ∃ e, e.isOverBudget = false ∧ (m.run c).2 = c.report e

/-- Looking up a variable may record that it is not known. -/
theorem notes_variableValue (name : String) : Notes (Resolver.variableValue name) := by
  intro c
  cases h : c.lookup? name with
  | some value => exact .inl (by rw [Resolver.run_variableValue_some h])
  | none => exact .inr ⟨.unknownVariable name, rfl, by rw [Resolver.run_variableValue_none h]⟩

/-- A fallback records its error. -/
theorem notes_orFallback (fallback : String) {result : Except ResolutionError α}
    (h : ∀ e, result = .error e → e.isOverBudget = false) :
    Notes (orFallback fallback result) := by
  intro c
  cases result with
  | ok a => exact .inl rfl
  | error e => exact .inr ⟨e, h e rfl, rfl⟩

/-- Writing a value may record that it cannot be written. -/
theorem notes_writeResult (r : Resolver) (result : Except String Value) :
    Notes (r.writeResult result) := by
  intro c
  cases result with
  | error fallback => exact .inl rfl
  | ok value =>
    rw [Resolver.writeResult, Resolver.writeValue]
    cases value.format r.locale with
    | some text => exact .inl rfl
    | none => exact .inr ⟨.notWritable value.typeName, rfl, rfl⟩

/-- A call may record that it fails. -/
theorem notes_call (r : Resolver) (name : String) (positional : Option (List Value))
    (named : Arguments) : Notes (r.call name positional named) := by
  cases positional with
  | none => exact fun c => .inl rfl
  | some positional =>
    rw [Resolver.call_some]
    apply notes_orFallback
    intro e he
    exact ResolutionError.isOverBudget_of_isLimit (Resolver.isLimit_of_applied he)

end Resolution

namespace Moment

/-- Between two placeables: the frames of `S` are open, of which there may be `depth`, and the
expression of every placeable that was counted has been started, but for one beyond the limit. -/
structure Ready (S : List Frame) (depth limit : Nat) (m : Moment) : Prop where
  stack : m.context.stack = S
  maxDepth : m.context.maxDepth = depth
  maxPlaceables : m.context.maxPlaceables = limit
  counted : m.context.placeables = m.started.length + m.context.exhausted.toNat

/-- A placeable was counted, and its expression has not been started. -/
structure Due (S : List Frame) (depth limit : Nat) (m : Moment) : Prop where
  stack : m.context.stack = S
  maxDepth : m.context.maxDepth = depth
  maxPlaceables : m.context.maxPlaceables = limit
  counted : m.context.placeables = m.started.length + 1

variable {S : List Frame} {depth limit : Nat} {m : Moment}

/-- An error is recorded between two placeables. -/
theorem Ready.report (h : m.Ready S depth limit) (e : ResolutionError) :
    (m.within (m.context.report e)).Ready S depth limit where
  stack := h.stack
  maxDepth := h.maxDepth
  maxPlaceables := h.maxPlaceables
  counted := h.counted

/-- Whether or not the limit is exceeded, a placeable has then been counted that was not started. -/
theorem Ready.count (h : m.Ready S depth limit) :
    (m.within m.context.countPlaceable).Due S depth limit := by
  have hcounted := h.counted
  cases hexhausted : m.context.exhausted with
  | true =>
    rw [Context.countPlaceable_of_exhausted hexhausted]
    rw [hexhausted] at hcounted
    exact ⟨h.stack, h.maxDepth, h.maxPlaceables, hcounted⟩
  | false =>
    rw [hexhausted] at hcounted
    rcases Nat.lt_or_ge m.context.placeables m.context.maxPlaceables with hlt | hle
    · rw [Context.countPlaceable_of_lt hexhausted hlt]
      exact ⟨h.stack, h.maxDepth, h.maxPlaceables, congrArg (· + 1) hcounted⟩
    · rw [Context.countPlaceable_of_le hexhausted hle]
      exact ⟨h.stack, h.maxDepth, h.maxPlaceables, congrArg (· + 1) hcounted⟩

/-- Once its expression is started, a placeable is no longer due. -/
theorem Due.start (h : m.Due S depth limit) (hgoing : m.context.exhausted = false)
    (e : Expression) :
    (m.start e).Ready S depth limit where
  stack := h.stack
  maxDepth := h.maxDepth
  maxPlaceables := h.maxPlaceables
  counted := by
    rw [Moment.start, List.length_append, hgoing]
    exact h.counted

/-- Beyond the limit, the placeable that was counted is not started. -/
theorem Due.ready (h : m.Due S depth limit) (hexhausted : m.context.exhausted = true) :
    m.Ready S depth limit where
  stack := h.stack
  maxDepth := h.maxDepth
  maxPlaceables := h.maxPlaceables
  counted := by
    rw [hexhausted]
    exact h.counted

end Moment

open Resolution

namespace Recorded

variable {α β : Type}

/-- The record of a run comes to the same as the run, its moments lead by steps from the first one
to the last, and `Q` holds of what it comes to and the last moment. -/
structure Retraced (first : Moment) (Q : α → Moment → Prop) (run : α × Context)
    (record : α × Course) : Prop where
  result : record.1 = run.1
  context : record.2.now.context = run.2
  course : record.2.From first
  holds : Q record.1 record.2.now

/-- From a moment of which `P` holds, `w` retraces `m`, and then `Q` holds. -/
def Retraces (P : Moment → Prop) (w : Recorded α) (m : Resolution α) (Q : α → Moment → Prop) :
    Prop :=
  ∀ (first : Moment) (course : Course), course.From first → P course.now →
    Retraced first Q (m.run course.now.context) (w.run course)

section Retraces

variable {P P' : Moment → Prop} {w : Recorded α} {m : Resolution α} {Q : α → Moment → Prop}
  {R : β → Moment → Prop}

/-- Returning a value takes no step. -/
theorem retraces_pure (a : α) (h : ∀ moment, P moment → Q a moment) :
    Retraces P (pure a) (pure a) Q := fun _ _ hcourse hP =>
  ⟨rfl, rfl, hcourse, h _ hP⟩

/-- Two records are kept one after the other. -/
theorem Retraces.bind {f : α → Recorded β} {g : α → Resolution β} (hw : Retraces P w m Q)
    (hf : ∀ a, Retraces (Q a) (f a) (g a) R) : Retraces P (w >>= f) (m >>= g) R := by
  intro first course hcourse hP
  have hfirst := hw first course hcourse hP
  rw [run_bind, ← hfirst.result, ← hfirst.context]
  exact hf _ first _ hfirst.course hfirst.holds

/-- What is made of the result takes no step. -/
theorem Retraces.map (hw : Retraces P w m Q) (f : α → β)
    (h : ∀ a moment, Q a moment → R (f a) moment) :
    Retraces P (return f (← w)) (return f (← m)) R :=
  hw.bind fun a => retraces_pure (f a) (h a)

/-- What is known in a moment where `P` holds may be used. -/
theorem Retraces.of_imp {φ : Prop} (h : φ → Retraces P w m Q) :
    Retraces (fun moment => P moment ∧ φ) w m Q := fun first course hcourse hP =>
  h hP.2 first course hcourse hP.1

/-- A step is retraced if it is one of those that lead from moment to moment. -/
theorem retraces_step
    (hstep : ∀ moment, P moment → moment.Step (moment.within (m.run moment.context).2))
    (hQ : ∀ moment, P moment →
      Q (m.run moment.context).1 (moment.within (m.run moment.context).2)) :
    Retraces P (step m) m Q := fun _ _ hcourse hP =>
  ⟨rfl, rfl, hcourse.step (hstep _ hP), hQ _ hP⟩

/-- The plain resolution takes no step where an expression is started. -/
theorem Retraces.start {e : Expression}
    (hstep : ∀ moment, P' moment → moment.Step (moment.start e))
    (hP : ∀ moment, P' moment → P (moment.start e)) (hw : Retraces P w m Q) :
    Retraces P' (do start e; w) m Q := fun first _ hcourse h =>
  hw first _ (hcourse.step (hstep _ h)) (hP _ h)

end Retraces

variable {S : List Frame} {depth limit : Nat} {w : Recorded α} {m : Resolution α}

/-- From one moment between two placeables, `w` retraces `m` to another. -/
def Keeps (S : List Frame) (depth limit : Nat) (w : Recorded α) (m : Resolution α) : Prop :=
  Retraces (Moment.Ready S depth limit) w m fun _ => Moment.Ready S depth limit

/-- The same of what may fail, but not by the limit of placeables. -/
def Opens (S : List Frame) (depth limit : Nat) (w : Recorded (Except ResolutionError α))
    (m : Resolution (Except ResolutionError α)) : Prop :=
  Retraces (Moment.Ready S depth limit) w m fun result moment =>
    moment.Ready S depth limit ∧ ∀ e, result = .error e → e.isOverBudget = false

/-- Returning a value is retraced. -/
theorem keeps_pure (a : α) : Keeps S depth limit (pure a) (pure a) := retraces_pure a fun _ h => h

/-- Two resolutions are retraced one after the other. -/
theorem Keeps.bind {f : α → Recorded β} {g : α → Resolution β} (hw : Keeps S depth limit w m)
    (hf : ∀ a, Keeps S depth limit (f a) (g a)) : Keeps S depth limit (w >>= f) (m >>= g) :=
  Retraces.bind hw hf

/-- What is made of a result is retraced. -/
theorem Keeps.map (hw : Keeps S depth limit w m) (f : α → β) :
    Keeps S depth limit (return f (← w)) (return f (← m)) :=
  hw.bind fun a => keeps_pure (f a)

/-- A step that only records an error is retraced. -/
theorem keeps_step (h : Notes m) : Keeps S depth limit (step m) m := by
  apply retraces_step
  · intro moment _
    rcases h moment.context with hrun | ⟨e, he, hrun⟩ <;> rw [hrun]
    · exact .rest moment
    · exact .report moment he
  · intro moment hready
    rcases h moment.context with hrun | ⟨e, -, hrun⟩ <;> rw [hrun]
    · exact hready
    · exact hready.report e

/-- What cannot be opened is written by its fallback. -/
theorem Opens.orFallback {w : Recorded (Except ResolutionError α)}
    {m : Resolution (Except ResolutionError α)} (hw : Opens S depth limit w m) (fallback : String) :
    Keeps S depth limit (w >>= fun result => step (orFallback fallback result))
      (m >>= fun result => orFallback fallback result) :=
  Retraces.bind hw fun _ => .of_imp fun hbudget => keeps_step (notes_orFallback fallback hbudget)

/-- An error that is not about placeables may stand for what cannot be opened. -/
theorem opens_error {e : ResolutionError} (h : e.isOverBudget = false) :
    Opens S depth limit (pure (.error e) : Recorded (Except ResolutionError α))
      (pure (.error e)) := by
  apply retraces_pure
  intro moment hready
  refine ⟨hready, ?_⟩
  rintro _ ⟨⟩
  exact h

/-- A context is handed over to a term in one step and taken back in another, with the same
limits. -/
theorem Opens.withScope {w : Recorded (Except ResolutionError α)}
    {m : Resolution (Except ResolutionError α)} (hw : Opens S depth limit w m) (scope : Arguments) :
    Opens S depth limit (withScope scope w) (Resolution.withScope scope m) := by
  have hread : Retraces (Moment.Ready S depth limit) (step get) get fun outer moment =>
      (moment.Ready S depth limit ∧ moment.context = outer) ∧
        outer.maxDepth = depth ∧ outer.maxPlaceables = limit := by
    apply retraces_step
    · intro moment _
      exact .rest moment
    · intro moment hready
      exact ⟨⟨hready, rfl⟩, hready.maxDepth, hready.maxPlaceables⟩
  refine Retraces.bind hread fun outer => .of_imp fun ⟨hdepth, hlimit⟩ => ?_
  have hlend : Retraces (fun moment => moment.Ready S depth limit ∧ moment.context = outer)
      (step (set (outer.child scope))) (set (outer.child scope))
      fun _ => Moment.Ready S depth limit := by
    apply retraces_step
    · rintro moment ⟨-, rfl⟩
      exact .lend moment scope
    · rintro moment ⟨hready, rfl⟩
      exact ⟨hready.stack, hready.maxDepth, hready.maxPlaceables, hready.counted⟩
  have habsorb : Keeps S depth limit
      (step (modify outer.emptied.absorb)) (modify outer.emptied.absorb) := by
    apply retraces_step
    · intro moment hready
      exact .absorb moment outer (hdepth.trans hready.maxDepth.symm)
        (hlimit.trans hready.maxPlaceables.symm)
    · intro moment hready
      exact ⟨hready.stack, hdepth, hlimit, hready.counted⟩
  refine Retraces.bind hlend fun _ => Retraces.bind hw fun result => ?_
  exact .of_imp fun hbudget => Retraces.bind habsorb fun _ =>
    retraces_pure result fun _ hready => ⟨hready, hbudget⟩

/-- A frame that is not open is opened where there is room, and closed again. -/
theorem Keeps.inFrame {frame : Frame} (hw : Keeps (frame :: S) depth limit w m) (hnew : frame ∉ S)
    (hroom : S.length < depth) :
    Keeps S depth limit (inFrame frame w) (Resolution.inFrame frame m) := by
  refine Retraces.bind (Q := fun _ => Moment.Ready (frame :: S) depth limit) (retraces_step ?_ ?_)
    fun _ => Retraces.bind hw fun result =>
      Retraces.bind (Q := fun _ => Moment.Ready S depth limit) (retraces_step ?_ ?_)
        fun _ => keeps_pure result
  · intro moment h
    apply Moment.Step.enter
    · rwa [h.stack]
    · rwa [h.stack, h.maxDepth]
  · intro moment h
    exact ⟨congrArg (frame :: ·) h.stack, h.maxDepth, h.maxPlaceables, h.counted⟩
  · intro moment _
    exact .leave moment
  · intro moment h
    exact ⟨congrArg List.tail h.stack, h.maxDepth, h.maxPlaceables, h.counted⟩

section Resolver

variable {r : Resolver} {o : Opening} {o' : Resolver.Opening}

/-- A message is retraced if its pattern is. -/
theorem keeps_openMessage {id : String} {attr : Option String}
    (h : ∀ p, Opens S depth limit (o (.message id attr) p) (o' (.message id attr) p)) :
    Keeps S depth limit (openMessage r o id attr) (r.openMessage o' id attr) := by
  rw [openMessage, Resolver.openMessage]
  cases hp : r.messagePattern id attr with
  | ok p => exact (h p).orFallback _
  | error e =>
    have hbudget := ResolutionError.isOverBudget_of_isLimit (Resolver.isLimit_of_messagePattern hp)
    exact (opens_error hbudget).orFallback _

/-- A term is retraced if its pattern is. -/
theorem keeps_openTerm {id : String} {attr : Option String}
    (h : ∀ p, Opens S depth limit (o (.term id attr) p) (o' (.term id attr) p))
      (scope : Arguments) :
    Keeps S depth limit (openTerm r o id attr scope) (r.openTerm o' id attr scope) := by
  rw [openTerm, Resolver.openTerm]
  cases hp : r.termPattern id attr with
  | ok p => exact ((h p).withScope scope).orFallback _
  | error e =>
    have hbudget := ResolutionError.isOverBudget_of_isLimit (Resolver.isLimit_of_termPattern hp)
    exact (opens_error hbudget).orFallback _

/-- The text of a variant. -/
def variantText (r : Resolver) (o : Opening) (v : Variant) : Recorded String :=
  elements r o (r.useIsolating && 1 < v.value.length) v.value

/-- What is kept for each variant is its record, still to be made. -/
theorem variantTexts_eq_map (r : Resolver) (o : Opening) (variants : List Variant) :
    variantTexts r o variants = variants.map fun v => (v, variantText r o v) := by
  induction variants with
  | nil => rfl
  | cons v rest ih =>
    obtain ⟨key, value, isDefault⟩ := v
    rw [variantTexts, ih, List.map_cons, variantText]

/-- The record of a select expression is that of its selector and of the variant that is chosen. -/
theorem expression_select (r : Resolver) (o : Opening) (selector : Expression)
    (variants : List Variant) :
    expression r o (.select selector variants) = do
      let selected ← expression r o selector
      match Variant.chosen? r.locale variants selected.toOption with
      | none => step (orFallback (braced "???") (.error .noVariants))
      | some v => return .ok (.string (← variantText r o v)) := by
  rw [expression, variantTexts_eq_map]
  refine bind_congr fun selected => ?_
  rw [Variant.choose?_eq_chosen?]
  cases Variant.chosen? r.locale variants selected.toOption <;> rfl

mutual

/-- An expression is retraced if every reference in it is. -/
theorem keeps_expression (h : ∀ frame p, Opens S depth limit (o frame p) (o' frame p)) :
    ∀ e : Expression, Keeps S depth limit (expression r o e) (r.expression o' e)
  | .string l => by
    rw [expression, Resolver.expression]
    exact keeps_pure _
  | .number l => by
    rw [expression, Resolver.expression]
    exact keeps_pure _
  | .variableRef name => by
    rw [expression, Resolver.expression]
    exact keeps_step (notes_variableValue name)
  | .messageRef id attr => by
    rw [expression, Resolver.expression]
    exact (keeps_openMessage fun p => h _ p).map _
  | .termRef id attr arguments => by
    rw [expression, Resolver.expression_termRef]
    exact (keeps_openTerm (fun p => h _ p) _).map _
  | .call name ⟨positional, named⟩ => by
    rw [expression, Resolver.expression]
    apply (keeps_values h positional).bind
    intro positional
    exact keeps_step (notes_call r name positional _)
  | .select selector variants => by
    rw [expression_select, Resolver.expression_select]
    apply (keeps_expression h selector).bind
    intro selected
    cases hchosen : Variant.chosen? r.locale variants selected.toOption with
    | none => exact keeps_step (notes_orFallback _ fun e he => by cases he; rfl)
    | some v => exact (keeps_variantText h variants v (Variant.mem_of_chosen? hchosen)).map _
  | .placeable inner => by
    rw [expression, Resolver.expression]
    exact keeps_expression h inner

/-- Arguments are retraced one by one. -/
theorem keeps_values (h : ∀ frame p, Opens S depth limit (o frame p) (o' frame p)) :
    ∀ expressions : List Expression,
      Keeps S depth limit (values r o expressions) (r.values o' expressions)
  | [] => by
    rw [values, Resolver.values]
    exact keeps_pure _
  | first :: rest => by
    rw [values, Resolver.values]
    apply (keeps_expression h first).bind
    intro result
    cases result with
    | ok value => exact (keeps_values h rest).map _
    | error _ => exact keeps_pure _

/-- Variants are retraced if the references in them are. -/
theorem keeps_variantText (h : ∀ frame p, Opens S depth limit (o frame p) (o' frame p)) :
    ∀ variants : List Variant, ∀ v ∈ variants,
      Keeps S depth limit (variantText r o v) (r.variantText o' v)
  | ⟨key, value, isDefault⟩ :: rest, v, hv => by
    rcases List.mem_cons.mp hv with rfl | hv
    · exact keeps_elements h _ value
    · exact keeps_variantText h rest v hv

/-- The elements of a pattern are retraced one by one; each placeable is counted, then started. -/
theorem keeps_elements (h : ∀ frame p, Opens S depth limit (o frame p) (o' frame p))
    (isolating : Bool) :
    ∀ p : Pattern, Keeps S depth limit (elements r o isolating p) (r.elements o' isolating p)
  | [] => by
    rw [elements, Resolver.elements]
    exact keeps_pure _
  | .text value :: rest => by
    rw [elements, Resolver.elements_text]
    have hseen : Keeps S depth limit (step exhausted) exhausted := keeps_step fun _ => .inl rfl
    apply hseen.bind
    intro exhausted
    cases exhausted with
    | true => exact keeps_pure _
    | false => exact (keeps_elements h isolating rest).map _
  | .placeable inner :: rest => by
    rw [elements, Resolver.elements_placeable]
    -- Between its count and its start a placeable is due; only then may the moment be one at which
    -- the limit ends everything.
    have hcount :
        Retraces (Moment.Ready S depth limit) (step count) count fun _ =>
          Moment.Due S depth limit := by
      apply retraces_step
      · intro moment hready
        exact .count moment hready.counted
      · intro moment hready
        exact hready.count
    have hseen : Retraces (Moment.Due S depth limit) (step exhausted) exhausted fun seen moment =>
        moment.Due S depth limit ∧ moment.context.exhausted = seen := by
      apply retraces_step
      · intro moment _
        exact .rest moment
      · intro moment hdue
        exact ⟨hdue, rfl⟩
    refine Retraces.bind hcount fun _ => Retraces.bind hseen fun exhausted => ?_
    cases exhausted with
    | true => exact retraces_pure _ fun _ hfull => hfull.1.ready hfull.2
    | false =>
      refine Retraces.start (fun moment hdue => .start moment inner hdue.2 hdue.1.counted)
        (fun _ hdue => hdue.1.start hdue.2 inner) ?_
      apply (keeps_expression h inner).bind
      intro result
      apply (keeps_step (notes_writeResult r result)).bind
      intro text
      exact (keeps_elements h isolating rest).map _

end

end Resolver

/-- The frames that are looked at are those that are open. -/
theorem retraces_get : Retraces (Moment.Ready S depth limit) (step get) get fun c moment =>
    moment.Ready S depth limit ∧ c.stack = S := by
  apply retraces_step
  · intro moment _
    exact .rest moment
  · intro moment hready
    exact ⟨hready, hready.stack⟩

/-- What is done unless a frame is open is retraced if it is where the frame is not. -/
private theorem opens_unless_open {frame : Frame}
    {w : Context → Recorded (Except ResolutionError α)}
    {m : Context → Resolution (Except ResolutionError α)}
    (h : frame ∉ S → ∀ c, Opens S depth limit (w c) (m c)) :
    Opens S depth limit
      (step get >>= fun c =>
        if frame ∈ c.stack then pure (.error (.cyclicReference frame.text)) else w c)
      (get >>= fun c =>
        if frame ∈ c.stack then pure (.error (.cyclicReference frame.text)) else m c) := by
  refine Retraces.bind retraces_get fun c => .of_imp fun hstack => ?_
  by_cases hopen : frame ∈ c.stack
  · rw [if_pos hopen, if_pos hopen]
    exact opens_error rfl
  · rw [if_neg hopen, if_neg hopen]
    exact h (hstack ▸ hopen) c

/-- Opening a frame is recorded as the steps that are taken inside it, if it may be opened. -/
theorem opens_opening (r : Resolver) {room : Nat} (hroom : room + S.length = depth) (frame : Frame)
    (p : Pattern) : Opens S depth limit (opening r room frame p) (r.opening room frame p) := by
  induction room generalizing S frame p with
  | zero =>
    rw [opening, Resolver.opening]
    exact opens_unless_open fun _ _ => opens_error rfl
  | succ room ih =>
    rw [opening, Resolver.opening]
    refine opens_unless_open fun hnew _ => ?_
    -- Inside the frame there is room for one frame less, and one more is open.
    have hinner : Keeps (frame :: S) depth limit (pattern r (opening r room) p)
        (r.pattern (r.opening room) p) :=
      keeps_elements (fun frame p => ih (by simp; omega) frame p) _ p
    exact Retraces.map (hinner.inFrame hnew (by omega)) _ fun _ _ hready =>
      ⟨hready, by rintro _ ⟨⟩⟩

end Recorded

namespace Resolver

/-- The text for a request, without a record. -/
def respond (r : Resolver) (room : Nat) : Request → Resolution String
  | .message id attr => return shown (← r.openMessage (r.opening room) id attr)
  | .pattern p => r.pattern (r.opening room) p

variable (r : Resolver) (args : Option Arguments) (request : Request)

/-- An answer is the text and the errors of a plain resolution from the start. -/
theorem answer_eq : r.answer args request =
    (((r.respond r.maxDepth request).run (r.start args)).1,
      ((r.respond r.maxDepth request).run (r.start args)).2.errors) := by
  cases request with
  | message id attr => exact r.resolve_eq id attr args
  | pattern p => rfl

/-- The record of a request retraces its plain resolution. -/
theorem retraced_record :
    Recorded.Retraced (r.outset args) (fun _ => Moment.Ready [] r.maxDepth r.maxPlaceables)
      ((r.respond r.maxDepth request).run (r.start args)) (r.record args request) := by
  have hopens : ∀ frame p, Recorded.Opens [] r.maxDepth r.maxPlaceables
      (Recorded.opening r r.maxDepth frame p)
      (r.opening r.maxDepth frame p) := Recorded.opens_opening r (Nat.add_zero _)
  have hresponds : Recorded.Keeps [] r.maxDepth r.maxPlaceables
      (Recorded.respond r r.maxDepth request)
      (r.respond r.maxDepth request) := by
    cases request with
    | message id attr => exact (Recorded.keeps_openMessage fun p => hopens _ p).map shown
    | pattern p => exact Recorded.keeps_elements hopens _ p
  have hready : (r.outset args).Ready [] r.maxDepth r.maxPlaceables := ⟨rfl, rfl, rfl, rfl⟩
  exact hresponds _ _ .start hready

/-- The record of a resolution comes to what the resolution comes to. -/
theorem record_answer :
    ((r.record args request).1, (r.record args request).2.now.context.errors) =
      r.answer args request := by
  have h := r.retraced_record args request
  rw [answer_eq, h.result, h.context]

/-- The moments of a record lead by steps from the outset to the end. -/
theorem from_record : (r.record args request).2.From (r.outset args) :=
  (r.retraced_record args request).course

end Resolver

end Phrasebook
