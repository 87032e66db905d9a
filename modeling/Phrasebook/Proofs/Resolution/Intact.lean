import Mathlib.Data.List.Infix
import Phrasebook.Proofs.Resolution.Lockstep
import Phrasebook.Proofs.TreeInduction

/-!
# The context is handed back

Every resolution closes the frames it opens and takes back the variables it put out of sight. It
leaves the limits alone, and it loses neither an error nor a placeable that was counted, also where
they are handed over to the context of a term. Where an expression falls back, an error was
recorded.
-/

namespace Phrasebook

namespace Resolution

variable {α β : Type} {m : Resolution α} {c : Context}

/-- The frames, the variables and the limits are as they were, errors were only added, placeables
were only counted, and what was exhausted still is. -/
structure HandsBack (m : Resolution α) (c : Context) : Prop where
  stack : (m.run c).2.stack = c.stack
  scope : (m.run c).2.scope = c.scope
  maxDepth : (m.run c).2.maxDepth = c.maxDepth
  maxPlaceables : (m.run c).2.maxPlaceables = c.maxPlaceables
  errors : c.errors <+: (m.run c).2.errors
  placeables : c.placeables ≤ (m.run c).2.placeables
  exhausted : c.exhausted = true → (m.run c).2.exhausted = true

/-- Every context is handed back. -/
def Intact (m : Resolution α) : Prop := ∀ c, HandsBack m c

/-- A step that leaves the same context as another hands back what that hands back. -/
theorem HandsBack.of_context {m' : Resolution β} (h : HandsBack m c)
    (hcontext : (m'.run c).2 = (m.run c).2) : HandsBack m' c := by
  constructor <;> rw [hcontext]
  exacts [h.stack, h.scope, h.maxDepth, h.maxPlaceables, h.errors, h.placeables, h.exhausted]

/-- A step that leaves its context alone hands it back. -/
theorem HandsBack.of_eq (h : (m.run c).2 = c) : HandsBack m c := by
  constructor <;> simp [h]

/-- A step that only records an error hands its context back. -/
theorem HandsBack.of_report {e : ResolutionError} (h : (m.run c).2 = c.report e) :
    HandsBack m c := by
  constructor <;> simp [h, Context.report]

/-- Returning a value hands the context back. -/
theorem intact_pure (a : α) : Intact (pure a : Resolution α) := fun _ => .of_eq rfl

/-- A sequence of steps hands back what its steps do. -/
theorem Intact.bind {f : α → Resolution β} (hm : Intact m) (hf : ∀ a, Intact (f a)) :
    Intact (m >>= f) := fun c =>
  have hfirst := hm c
  have hrest := hf (m.run c).1 (m.run c).2
  { stack := hrest.stack.trans hfirst.stack
    scope := hrest.scope.trans hfirst.scope
    maxDepth := hrest.maxDepth.trans hfirst.maxDepth
    maxPlaceables := hrest.maxPlaceables.trans hfirst.maxPlaceables
    errors := hfirst.errors.trans hrest.errors
    placeables := hfirst.placeables.trans hrest.placeables
    exhausted := fun h => hrest.exhausted (hfirst.exhausted h) }

/-- Recording an error hands the context back. -/
theorem intact_report (e : ResolutionError) : Intact (report e) := fun _ => .of_report rfl

/-- Counting a placeable hands the context back. -/
theorem intact_count : Intact count := fun c => by
  rcases c.countPlaceable_cases with h | h | h
  · exact .of_eq h
  · constructor <;> simp [h]
  · constructor <;> simp [h]

/-- Looking up a variable hands the context back. -/
theorem intact_variableValue (name : String) : Intact (Resolver.variableValue name) := fun c => by
  cases h : c.lookup? name with
  | some value => exact .of_eq (by rw [Resolver.run_variableValue_some h])
  | none => exact .of_report (by rw [Resolver.run_variableValue_none h])

/-- That the context is handed back passes along sequences. -/
theorem congruent_intact : Resolver.Congruent fun m _ => Intact m where
  pure := intact_pure
  bind := Intact.bind
  report _ := intact_report _
  exhausted _ := .of_eq rfl
  count := intact_count

/-- Where the limits are left alone, nothing tells the context of a term from the one around it but
the variables in sight. -/
theorem Intact.run_withScope (hm : Intact m) (scope : Arguments) (c : Context) :
    (withScope scope m).run c =
      ((m.run (c.child scope)).1, { (m.run (c.child scope)).2 with scope := c.scope }) := by
  have h := hm (c.child scope)
  have hdepth : (m.run (c.child scope)).2.maxDepth = c.maxDepth := h.maxDepth
  have hlimit : (m.run (c.child scope)).2.maxPlaceables = c.maxPlaceables := h.maxPlaceables
  rw [Resolution.run_withScope, Context.absorb, Context.emptied, ← hdepth, ← hlimit]

/-- What is left of a context gets back all that it handed over. -/
theorem Intact.withScope (hm : Intact m) (scope : Arguments) : Intact (withScope scope m) :=
  fun c =>
  have h := hm (c.child scope)
  { stack := h.stack
    scope := rfl
    maxDepth := rfl
    maxPlaceables := rfl
    errors := h.errors
    placeables := h.placeables
    exhausted := h.exhausted }

/-- A frame is closed again. -/
theorem Intact.inFrame (hm : Intact m) (frame : Frame) : Intact (inFrame frame m) := fun c =>
  have h := hm { c with stack := frame :: c.stack }
  { h with stack := by rw [run_inFrame, h.stack]; rfl }

end Resolution

namespace Resolver

open Resolution

variable {r : Resolver} {o : Opening}

/-- An expression hands the context back if every reference in it does. -/
theorem lockstep_intact (h : ∀ fallback frame p, Intact (reaching fallback (o frame p))) :
    Lockstep r o o (fun _ => True) fun m _ => Intact m where
  toCongruent := congruent_intact
  variableValue _ := intact_variableValue _
  openMessage _ := congruent_intact.openMessage o o fun p fallback _ => h fallback _ p
  openTerm _ scope :=
    congruent_intact.openTerm o o fun p fallback _ => (h fallback _ p).withScope scope

/-- A reference hands the context back, by induction on the depth that is left. -/
theorem intact_reaching (room : Nat) (fallback : String) (frame : Frame) (p : Pattern) :
    Intact (reaching fallback (opening r room frame p)) := by
  induction room generalizing fallback frame p with
  | zero =>
    intro c
    by_cases h : frame ∈ c.stack
    · exact .of_report (by rw [run_reaching_cyclic h])
    · exact .of_report (by rw [run_reaching_full h])
  | succ room ih =>
    have hpattern : Intact (pattern r (opening r room) p) :=
      (lockstep_intact ih).pattern p fun _ _ => trivial
    intro c
    by_cases h : frame ∈ c.stack
    · exact .of_report (by rw [run_reaching_cyclic h])
    · have hframe := hpattern.inFrame frame c
      have hcontext : ((reaching fallback (opening r (room + 1) frame p)).run c).2 =
          ((inFrame frame (pattern r (opening r room) p)).run c).2 := by
        rw [run_reaching_free h]
      exact hframe.of_context hcontext

/-- Resolving an expression hands every context back. -/
theorem intact_expression (room : Nat) (e : Expression) :
    Intact (r.expression (r.opening room) e) :=
  (lockstep_intact (intact_reaching room)).expression e fun _ _ => trivial

/-- Resolving a pattern hands every context back. -/
theorem intact_pattern (room : Nat) (p : Pattern) : Intact (r.pattern (r.opening room) p) :=
  (lockstep_intact (intact_reaching room)).pattern p fun _ _ => trivial

end Resolver

/-! ## Fallbacks are told -/

/-- Recording an error makes one more. -/
theorem Context.length_errors_report (c : Context) (e : ResolutionError) :
    (c.report e).errors.length = c.errors.length + 1 := by
  rw [Context.report, List.length_append, List.length_singleton]

namespace Resolution

variable {α β : Type}

/-- Where the step falls back, it has recorded an error. -/
def Reports (m : Resolution (Except String α)) : Prop :=
  ∀ c fallback, (m.run c).1 = .error fallback → c.errors.length < (m.run c).2.errors.length

/-- Where there is a result, no error is needed. -/
theorem reports_ok (a : α) : Reports (pure (.ok a)) := by
  rintro c fallback ⟨⟩

/-- A fallback comes with an error. -/
theorem reports_orFallback (fallback : String) (result : Except ResolutionError α) :
    Reports (orFallback fallback result) := by
  intro c fallback' h
  cases result with
  | ok a => cases h
  | error e =>
    have hrun : (orFallback (α := α) fallback (.error e)).run c =
        (.error fallback, c.report e) := rfl
    rw [hrun, Context.length_errors_report]
    exact Nat.lt_succ_self _

/-- What is recorded after an intact step is recorded by the two together. -/
theorem Intact.reports_bind {m : Resolution α} {f : α → Resolution (Except String β)}
    (hm : Intact m) (hf : ∀ a, Reports (f a)) : Reports (m >>= f) := by
  intro c fallback h
  have hfirst := (hm c).errors.length_le
  have hrest := hf _ _ fallback h
  exact Nat.lt_of_le_of_lt hfirst hrest

/-- What is made of a result that is reported is reported. -/
theorem Reports.map {m : Resolution (Except String α)} (hm : Reports m) (f : α → β) :
    Reports (return (← m).map f) := by
  intro c fallback h
  apply hm c fallback
  rw [run_bind] at h
  cases hresult : (m.run c).1 with
  | ok a =>
    rw [hresult] at h
    cases h
  | error fallback' =>
    rw [hresult] at h
    cases h
    rfl

/-- Errors inside a term are reported outside of it. -/
theorem Reports.withScope {m : Resolution (Except String α)} (hm : Reports m)
    (scope : Arguments) : Reports (withScope scope m) := fun c =>
  hm (c.child scope)

end Resolution

namespace Resolver

open Resolution

variable {r : Resolver} {room : Nat} {id : String} {attr : Option String}

/-- A variable that is not known is reported. -/
theorem reports_variableValue (name : String) : Reports (variableValue name) := by
  intro c fallback h
  cases hlookup : c.lookup? name with
  | some value =>
    rw [run_variableValue_some hlookup] at h
    cases h
  | none =>
    rw [run_variableValue_none hlookup, Context.length_errors_report]
    exact Nat.lt_succ_self _

/-- A reference that cannot be followed is reported. -/
theorem reports_reaching (room : Nat) (fallback : String) (frame : Frame) (p : Pattern) :
    Reports (reaching fallback (r.opening room frame p)) := by
  intro c fallback' h
  by_cases hopen : frame ∈ c.stack
  · rw [run_reaching_cyclic hopen, Context.length_errors_report]
    exact Nat.lt_succ_self _
  · cases room with
    | zero =>
      rw [run_reaching_full hopen, Context.length_errors_report]
      exact Nat.lt_succ_self _
    | succ room =>
      rw [run_reaching_free hopen] at h
      cases h

/-- A message that cannot be opened is reported. -/
theorem reports_openMessage : Reports (r.openMessage (r.opening room) id attr) := by
  cases hp : r.messagePattern id attr with
  | ok p =>
    rw [openMessage_of_ok hp]
    exact reports_reaching room _ _ p
  | error e =>
    rw [openMessage_of_error hp]
    exact reports_orFallback _ (.error e)

/-- A term that cannot be opened is reported. -/
theorem reports_openTerm (scope : Arguments) :
    Reports (r.openTerm (r.opening room) id attr scope) := by
  cases hp : r.termPattern id attr with
  | ok p =>
    rw [openTerm_of_ok hp]
    exact (reports_reaching room _ _ p).withScope scope
  | error e =>
    rw [openTerm_of_error hp]
    exact reports_orFallback _ (.error e)

/-- Arguments are missing only where one of them fell back. -/
theorem length_errors_values {expressions : List Expression}
    (h : ∀ e ∈ expressions, Reports (r.expression (r.opening room) e)) (c : Context)
    (hnone : ((r.values (r.opening room) expressions).run c).1 = none) :
    c.errors.length < ((r.values (r.opening room) expressions).run c).2.errors.length := by
  induction expressions generalizing c with
  | nil =>
    rw [values] at hnone
    cases hnone
  | cons first rest ih =>
    have hfirst := h first List.mem_cons_self c
    have hintact := (intact_expression (r := r) room first c).errors.length_le
    rw [values, run_bind] at hnone ⊢
    cases hresult : ((r.expression (r.opening room) first).run c).1 with
    | error fallback =>
      exact hfirst fallback hresult
    | ok value =>
      simp only [hresult, run_bind] at hnone ⊢
      apply Nat.lt_of_le_of_lt hintact
      apply ih fun e he => h e (List.mem_cons_of_mem _ he)
      exact Option.map_eq_none_iff.mp hnone

/-- A call that fails, or an argument of it, is reported. -/
theorem reports_call (name : String) {arguments : CallArguments}
    (h : ∀ e ∈ arguments.positional, Reports (r.expression (r.opening room) e)) :
    Reports (r.expression (r.opening room) (.call name arguments)) := by
  obtain ⟨positional, named⟩ := arguments
  have hintact : Intact (r.values (r.opening room) positional) :=
    (lockstep_intact (intact_reaching room)).values positional fun _ _ => trivial
  intro c fallback hfallback
  have hmissing := length_errors_values h c
  rw [expression, run_bind] at hfallback ⊢
  cases hvalues : ((r.values (r.opening room) positional).run c).1 with
  | none =>
    rw [call]
    exact hmissing hvalues
  | some given =>
    rw [hvalues] at hfallback
    apply Nat.lt_of_le_of_lt (hintact c).errors.length_le
    exact reports_orFallback _ _ _ fallback hfallback

/-- A selection always has a result. -/
theorem reports_select {selector : Expression} (variants : List Variant) :
    Reports (r.expression (r.opening room) (.select selector variants)) := by
  rw [expression_select]
  apply (intact_expression room selector).reports_bind
  intro selected
  cases Variant.chosen? r.locale variants selected.toOption with
  | none => exact reports_orFallback _ _
  | some v =>
    intro c fallback h
    cases h

/-- Where an expression falls back, an error was recorded. -/
theorem reports_expression (room : Nat) (e : Expression) :
    Reports (r.expression (r.opening room) e) := by
  have hsteps : Ascends (fun _ => True) (fun e => Reports (r.expression (r.opening room) e))
      fun _ => True :=
    { string := fun l => by
        rw [expression]
        exact reports_ok _
      number := fun l => by
        rw [expression]
        exact reports_ok _
      variableRef := fun name _ _ => by
        rw [expression]
        exact reports_variableValue name
      messageRef := fun id attr _ _ _ => by
        rw [expression]
        exact reports_openMessage.map _
      termRef := fun id attr arguments _ _ _ => by
        rw [expression_termRef]
        exact (reports_openTerm _).map _
      call := fun name arguments _ => reports_call name
      select := fun selector variants _ _ _ => reports_select variants
      placeable := fun inner hinner => by
        rw [expression]
        exact hinner
      pattern := fun _ _ _ => trivial }
  exact hsteps.of_expression e fun _ _ => trivial

end Resolver

end Phrasebook
