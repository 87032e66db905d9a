import Mathlib.Data.List.Basic
import Phrasebook.Proofs.Resolution.Intact

/-!
# Resolution is compositional

What an expression or pattern comes to does not depend on how it was reached, unless a limit is met
on the way. Where one context has no more frames open than another and leaves at least as many
placeables, whatever comes to an end without a limit in the other does so in it, in the same way.
Two contexts that show the same variables are both above a third, which compares them.
-/

namespace Phrasebook

namespace Resolution

variable {α β : Type}

/-- No limit was met. -/
def LimitFree (errors : List ResolutionError) : Prop := ∀ e ∈ errors, e.isLimit = false

instance (errors : List ResolutionError) : Decidable (LimitFree errors) :=
  inferInstanceAs (Decidable (∀ e ∈ errors, e.isLimit = false))

/-- Errors are free of limits if all parts of them are. -/
theorem limitFree_append {front back : List ResolutionError} :
    LimitFree (front ++ back) ↔ LimitFree front ∧ LimitFree back := by
  simp only [LimitFree, List.forall_mem_append]

/-- After a limit was met, the errors are not free of limits. -/
theorem not_limitFree_of_report {c : Context} {e : ResolutionError} {new : List ResolutionError}
    (hlimit : e.isLimit = true) (hnew : (c.report e).errors = c.errors ++ new) :
    ¬LimitFree new := by
  obtain rfl : [e] = new := List.append_cancel_left hnew
  intro hfree
  rw [hfree e List.mem_cons_self] at hlimit
  cases hlimit

/-- `c'` shows the same variables as `c`, has no frame open that `c` has not, and leaves at least as
many placeables. -/
structure Looser (c c' : Context) : Prop where
  lookup : c.lookup? = c'.lookup?
  stack : c'.stack ⊆ c.stack
  placeables : c.maxPlaceables - c.placeables ≤ c'.maxPlaceables - c'.placeables
  going : c.exhausted = false
  going' : c'.exhausted = false

/-- What `m` does in `c` without meeting a limit, `m'` does in `c'`: it comes to the same and
records the same errors. -/
structure Matches (m m' : Resolution α) (c c' : Context) (new : List ResolutionError) : Prop where
  result : (m'.run c').1 = (m.run c).1
  errors : (m'.run c').2.errors = c'.errors ++ new
  looser : Looser (m.run c).2 (m'.run c').2

/-- `m'` does in a looser context what `m` does if it meets no limit. -/
structure Follows (m m' : Resolution α) : Prop where
  intact : Intact m
  follows {c c' : Context} {new : List ResolutionError} : Looser c c' →
    (m.run c).2.errors = c.errors ++ new → LimitFree new → Matches m m' c c' new

/-- Returning a value follows itself. -/
theorem follows_pure (a : α) : Follows (pure a) (pure a) where
  intact := intact_pure a
  follows {c c' new} hlooser hnew _ := by
    obtain rfl : new = [] := List.self_eq_append_right.mp hnew
    exact ⟨rfl, (List.append_nil _).symm, hlooser⟩

/-- The errors of a sequence are those of the first step and then those of the rest, so that neither
meets a limit if both together do not. -/
theorem Follows.bind {m m' : Resolution α} {f f' : α → Resolution β} (hm : Follows m m')
    (hf : ∀ a, Follows (f a) (f' a)) : Follows (m >>= f) (m' >>= f') where
  intact := hm.intact.bind fun a => (hf a).intact
  follows {c c' new} hlooser hnew hfree := by
    obtain ⟨front, hfront⟩ := (hm.intact c).errors
    obtain ⟨back, hback⟩ := ((hf (m.run c).1).intact (m.run c).2).errors
    obtain rfl : front ++ back = new := by
      rw [run_bind, ← hback, ← hfront, List.append_assoc] at hnew
      exact List.append_cancel_left hnew
    have hfirst := hm.follows hlooser hfront.symm (limitFree_append.mp hfree).1
    have hrest := (hf (m.run c).1).follows hfirst.looser hback.symm (limitFree_append.mp hfree).2
    have hrun : (m' >>= f').run c' = (f' (m.run c).1).run (m'.run c').2 := by
      rw [run_bind, hfirst.result]
    exact
      { result := by rw [hrun, hrest.result, run_bind]
        errors := by rw [hrun, hrest.errors, hfirst.errors, List.append_assoc]
        looser := by
          rw [hrun]
          exact hrest.looser }

/-- Recording an error follows itself. -/
theorem follows_report {e : ResolutionError} : Follows (report e) (report e) where
  intact := intact_report e
  follows {c c' new} hlooser hnew _ := by
    obtain rfl : [e] = new := List.append_cancel_left hnew
    exact ⟨rfl, rfl, ⟨hlooser.lookup, hlooser.stack, hlooser.placeables, hlooser.going,
      hlooser.going'⟩⟩

/-- Where the tighter run has not exceeded its limit, neither has the looser one. -/
theorem follows_exhausted : Follows exhausted exhausted where
  intact _ := .of_eq rfl
  follows {c c' new} hlooser hnew _ := by
    obtain rfl : new = [] := List.self_eq_append_right.mp hnew
    exact ⟨hlooser.going'.trans hlooser.going.symm, (List.append_nil _).symm, hlooser⟩

/-- Where a placeable is left, one is left in a looser context. -/
theorem follows_count : Follows count count where
  intact := intact_count
  follows {c c' new} hlooser hnew hfree := by
    have hbudget := hlooser.placeables
    rcases Nat.lt_or_ge c.placeables c.maxPlaceables with hlt | hle
    · have hcount := Context.countPlaceable_of_lt hlooser.going hlt
      have hcount' := Context.countPlaceable_of_lt hlooser.going' (by omega)
      obtain rfl : new = [] := by simpa [hcount] using hnew
      refine ⟨rfl, by simp [hcount'], ?_⟩
      rw [run_count, run_count, hcount, hcount']
      exact ⟨hlooser.lookup, hlooser.stack, by simp only; omega, hlooser.going, hlooser.going'⟩
    · have hcount := Context.countPlaceable_of_le hlooser.going hle
      obtain rfl : [.tooManyPlaceables c.maxPlaceables] = new := by simpa [hcount] using hnew
      cases hfree _ List.mem_cons_self

/-- What follows passes along sequences. -/
theorem congruent_follows : Resolver.Congruent Follows where
  pure := follows_pure
  bind := Follows.bind
  report _ := follows_report
  exhausted := follows_exhausted
  count := follows_count

/-- Looking up a variable follows itself. -/
theorem follows_variableValue (name : String) :
    Follows (Resolver.variableValue name) (Resolver.variableValue name) where
  intact := intact_variableValue name
  follows {c c' new} hlooser hnew hfree := by
    have hlookup := congrFun hlooser.lookup name
    cases h : c.lookup? name with
    | some value =>
      have hrun := Resolver.run_variableValue_some h
      have hrun' := Resolver.run_variableValue_some (hlookup.symm.trans h)
      obtain rfl : new = [] := by simpa [hrun] using hnew
      refine ⟨by rw [hrun, hrun'], by rw [hrun', List.append_nil], ?_⟩
      rw [hrun, hrun']
      exact hlooser
    | none =>
      have hrun := Resolver.run_variableValue_none h
      have hrun' := Resolver.run_variableValue_none (hlookup.symm.trans h)
      rw [hrun] at hnew
      have hreport := (@follows_report (.unknownVariable name)).follows hlooser hnew hfree
      exact
        { result := by rw [hrun, hrun']
          errors := by
            rw [hrun']
            exact hreport.errors
          looser := by
            rw [hrun, hrun']
            exact hreport.looser }

/-- The context of a term is looser where the one around it is, and is handed back as such. -/
theorem Follows.withScope {m m' : Resolution α} (hm : Follows m m') (hm' : Intact m')
    (scope : Arguments) : Follows (withScope scope m) (withScope scope m') where
  intact := hm.intact.withScope scope
  follows {c c' new} hlooser hnew hfree := by
    have hinner : Looser (c.child scope) (c'.child scope) :=
      ⟨rfl, hlooser.stack, hlooser.placeables, hlooser.going, hlooser.going'⟩
    have h := hm.follows hinner hnew hfree
    refine ⟨h.result, h.errors, ?_⟩
    rw [hm.intact.run_withScope, hm'.run_withScope]
    exact ⟨hlooser.lookup, h.looser.stack, h.looser.placeables, h.looser.going, h.looser.going'⟩

/-- A frame follows if its inside does. -/
theorem Follows.inFrame {m m' : Resolution α} (hm : Follows m m') (hm' : Intact m')
    (frame : Frame) : Follows (inFrame frame m) (inFrame frame m') where
  intact := hm.intact.inFrame frame
  follows {c c' new} hlooser hnew hfree := by
    have hinner : Looser { c with stack := frame :: c.stack }
        { c' with stack := frame :: c'.stack } :=
      ⟨hlooser.lookup, List.cons_subset_cons frame hlooser.stack, hlooser.placeables, hlooser.going,
        hlooser.going'⟩
    have h := hm.follows hinner hnew hfree
    refine ⟨h.result, h.errors, ⟨h.looser.lookup, ?_, h.looser.placeables, h.looser.going,
      h.looser.going'⟩⟩
    rw [(hm.intact.inFrame frame c).stack, (hm'.inFrame frame c').stack]
    exact hlooser.stack

end Resolution

namespace Resolver

open Resolution

variable {r : Resolver} {o o' : Opening} {room room' : Nat}

/-- An expression follows if every reference in it does. -/
theorem lockstep_follows (h : ∀ fallback frame p,
    Follows (reaching fallback (o frame p)) (reaching fallback (o' frame p)))
    (hintact : ∀ fallback frame p, Intact (reaching fallback (o' frame p))) :
    Lockstep r o o' (fun _ => True) Follows where
  toCongruent := congruent_follows
  variableValue _ := follows_variableValue _
  openMessage _ := congruent_follows.openMessage o o' fun p fallback _ => h fallback _ p
  openTerm _ scope :=
    congruent_follows.openTerm o o' fun p fallback _ =>
      (h fallback _ p).withScope (hintact fallback _ p) scope

/-- A frame that was opened where there was less room can be opened where there is more. -/
theorem follows_reaching (hroom : room ≤ room') (fallback : String) (frame : Frame) (p : Pattern) :
    Follows (reaching fallback (opening r room frame p))
      (reaching fallback (opening r room' frame p)) := by
  -- Both rooms shrink by one inside a frame; the smaller one runs out first, and that is a limit.
  induction room generalizing room' fallback frame p with
  | zero =>
    refine ⟨intact_reaching 0 fallback frame p, fun {c c' new} _ hnew hfree => ?_⟩
    by_cases hopen : frame ∈ c.stack
    · rw [run_reaching_cyclic hopen] at hnew
      exact absurd hfree (not_limitFree_of_report rfl hnew)
    · rw [run_reaching_full hopen] at hnew
      exact absurd hfree (not_limitFree_of_report rfl hnew)
  | succ room ih =>
    obtain ⟨room', rfl⟩ : ∃ n, room' = n + 1 := ⟨room' - 1, by omega⟩
    have hpattern : Follows (pattern r (opening r room) p) (pattern r (opening r room') p) :=
      (lockstep_follows (ih (by omega)) (intact_reaching room')).pattern p fun _ _ => trivial
    have hframe := hpattern.inFrame (intact_pattern room' p) frame
    refine ⟨intact_reaching (room + 1) fallback frame p, fun {c c' new} hlooser hnew hfree => ?_⟩
    by_cases hopen : frame ∈ c.stack
    · rw [run_reaching_cyclic hopen] at hnew
      exact absurd hfree (not_limitFree_of_report rfl hnew)
    · have hopen' : frame ∉ c'.stack := fun hmem => hopen (hlooser.stack hmem)
      rw [run_reaching_free hopen] at hnew
      have h := hframe.follows hlooser hnew hfree
      exact
        { result := by rw [run_reaching_free hopen, run_reaching_free hopen', h.result]
          errors := by rw [run_reaching_free hopen', h.errors]
          looser := by
            rw [run_reaching_free hopen, run_reaching_free hopen']
            exact h.looser }

/-- With more depth left, references follow those with less. -/
theorem lockstep_opening (hroom : room ≤ room') :
    Lockstep r (opening r room) (opening r room') (fun _ => True) Follows :=
  lockstep_follows (follows_reaching hroom) (intact_reaching room')

/-- What an expression comes to in a context, and the context afterwards. -/
def expressionIn (r : Resolver) (e : Expression) (c : Context) : Except String Value × Context :=
  (r.expression (r.opening c.room) e).run c

/-- What a pattern comes to in a context, and the context afterwards. -/
def patternIn (r : Resolver) (p : Pattern) (c : Context) : String × Context :=
  (r.pattern (r.opening c.room) p).run c

end Resolver

/-- Two runs only add errors, and if neither adds one that tells of a limit, they come to the same
and add the same errors. -/
def AlikeBelowLimits {α : Type} (c c' : Context) (run run' : α × Context) : Prop :=
  ∃ new new', run.2.errors = c.errors ++ new ∧ run'.2.errors = c'.errors ++ new' ∧
    (Resolution.LimitFree new → Resolution.LimitFree new' → run.1 = run'.1 ∧ new = new')

/-- A context without open frames that leaves as many placeables as either of two. -/
def Context.above (c c' : Context) : Context where
  scope := c.scope
  stack := []
  maxDepth := max c.room c'.room
  placeables := 0
  maxPlaceables := max (c.maxPlaceables - c.placeables) (c'.maxPlaceables - c'.placeables)
  exhausted := false
  errors := []

namespace Resolution

variable {α : Type} {c c' : Context}

/-- What is above two contexts is looser than the one. -/
theorem looser_above_left (c' : Context) (h : c.exhausted = false) : Looser c (c.above c') where
  lookup := rfl
  stack := List.nil_subset _
  placeables := Nat.le_max_left _ _
  going := h
  going' := rfl

/-- What is above two contexts is looser than the other, if they look up the same. -/
theorem looser_above_right (hlookup : c.lookup? = c'.lookup?) (h : c'.exhausted = false) :
    Looser c' (c.above c') where
  lookup := hlookup.symm
  stack := List.nil_subset _
  placeables := Nat.le_max_right _ _
  going := h
  going' := rfl

/-- Two resolutions that a third one follows are alike. -/
theorem Follows.alike {m m' m'' : Resolution α} (h : Follows m m'') (h' : Follows m' m'')
    (hlookup : c.lookup? = c'.lookup?) (hgoing : c.exhausted = false)
    (hgoing' : c'.exhausted = false) : AlikeBelowLimits c c' (m.run c) (m'.run c') := by
  obtain ⟨new, hnew⟩ := (h.intact c).errors
  obtain ⟨new', hnew'⟩ := (h'.intact c').errors
  refine ⟨new, new', hnew.symm, hnew'.symm, fun hfree hfree' => ?_⟩
  have hleft := h.follows (looser_above_left c' hgoing) hnew.symm hfree
  have hright := h'.follows (looser_above_right hlookup hgoing') hnew'.symm hfree'
  exact ⟨hleft.result.symm.trans hright.result,
    List.append_cancel_left (hleft.errors.symm.trans hright.errors)⟩

end Resolution

namespace Resolver

open Resolution

/-- The text of a pattern that is nothing but a reference to a message. -/
theorem pattern_reference (r : Resolver) (o : Opening) (b : String) (attr : Option String) :
    r.pattern o [.placeable (.messageRef b attr)] = do
      count
      if ← exhausted then return ""
      return shown (← r.openMessage o b attr) := by
  have hwrite (result : Except String String) :
      r.writeResult (result.map .string) = pure (shown result) := by
    cases result <;> rfl
  rw [pattern, elements_placeable, expression, elements]
  simp [hwrite]

/-- Below the limit, a pattern of one reference writes what the reference shows. -/
theorem run_pattern_reference {r : Resolver} {o : Opening} {b : String} {attr : Option String}
    {c : Context} (hgoing : c.exhausted = false) (hlt : c.placeables < c.maxPlaceables) :
    (r.pattern o [.placeable (.messageRef b attr)]).run c =
      (shown ((r.openMessage o b attr).run { c with placeables := c.placeables + 1 }).1,
        ((r.openMessage o b attr).run { c with placeables := c.placeables + 1 }).2) := by
  rw [pattern_reference, run_bind, run_count, Context.countPlaceable_of_lt hgoing hlt, run_bind,
    run_exhausted]
  simp only [hgoing]
  rfl

/-- At the limit, a pattern of one reference writes nothing. -/
theorem run_pattern_reference_full {r : Resolver} {o : Opening} {b : String} {attr : Option String}
    {c : Context} (hgoing : c.exhausted = false) (hle : c.maxPlaceables ≤ c.placeables) :
    (r.pattern o [.placeable (.messageRef b attr)]).run c = ("", c.countPlaceable) := by
  have hcount := Context.countPlaceable_of_le hgoing hle
  rw [pattern_reference, run_bind, run_count, hcount]
  rfl

section Reference

variable {r : Resolver} {a b : String} {attr : Option String} {args : Option Arguments} {n : Nat}
  {c : Context}

/-- The context in which the reference of message `a` is followed: its frame is open, and one
placeable has been counted. -/
def insideReference (a : String) (c : Context) : Context :=
  { c with stack := .message a none :: c.stack, placeables := c.placeables + 1 }

/-- A message that is only a reference has the text and the errors of the other. -/
theorem run_openMessage_reference
    (hvalue : r.messagePattern a none = .ok [.placeable (.messageRef b attr)])
    (hopen : .message a none ∉ c.stack) (hgoing : c.exhausted = false)
    (hlt : c.placeables < c.maxPlaceables) :
    ((r.openMessage (r.opening (n + 1)) a none).run c).1 =
        .ok (shown ((r.openMessage (r.opening n) b attr).run (insideReference a c)).1) ∧
      ((r.openMessage (r.opening (n + 1)) a none).run c).2.errors =
        ((r.openMessage (r.opening n) b attr).run (insideReference a c)).2.errors := by
  have hpattern : (r.pattern (r.opening n) [.placeable (.messageRef b attr)]).run
      { c with stack := .message a none :: c.stack } =
        (shown ((r.openMessage (r.opening n) b attr).run (insideReference a c)).1,
          ((r.openMessage (r.opening n) b attr).run (insideReference a c)).2) :=
    run_pattern_reference hgoing hlt
  rw [openMessage_of_ok hvalue, run_reaching_free hopen, run_inFrame, hpattern]
  exact ⟨rfl, rfl⟩

/-- A message whose value is nothing but a reference comes to what is referred to. -/
theorem resolve_reference
    (hvalue : r.messagePattern a none = .ok [.placeable (.messageRef b attr)])
    (hfree : LimitFree (r.resolve a none args).2) :
    r.resolve a none args = r.resolve b attr args := by
  have hopen : .message a none ∉ (r.start args).stack := List.not_mem_nil
  rw [resolve_eq, resolve_eq r b attr args]
  rw [resolve_eq] at hfree
  cases hdepth : r.maxDepth with
  | zero =>
    rw [hdepth, openMessage_of_ok hvalue, run_reaching_full hopen] at hfree
    cases hfree (.tooDeep _) List.mem_cons_self
  | succ n =>
    rw [hdepth] at hfree
    rcases Nat.eq_zero_or_pos r.maxPlaceables with hzero | hpos
    · rw [openMessage_of_ok hvalue, run_reaching_free hopen, run_inFrame,
        run_pattern_reference_full rfl (Nat.le_of_eq hzero),
        Context.countPlaceable_of_le rfl (Nat.le_of_eq hzero)] at hfree
      cases hfree (.tooManyPlaceables _) List.mem_cons_self
    · obtain ⟨hresult, herrors⟩ := run_openMessage_reference (n := n) hvalue hopen rfl hpos
      have hfollows : Follows (r.openMessage (r.opening n) b attr)
          (r.openMessage (r.opening (n + 1)) b attr) :=
        (lockstep_opening n.le_succ).openMessage trivial
      have hlooser : Looser (insideReference a (r.start args)) (r.start args) :=
        ⟨rfl, List.nil_subset _, Nat.sub_le_sub_left (Nat.zero_le 1) _, rfl, rfl⟩
      rw [herrors] at hfree
      have h := hfollows.follows hlooser rfl hfree
      rw [hresult, herrors, h.result, h.errors]
      rfl

end Reference

/-- Unless a limit is met, what an expression or pattern comes to, and the errors met on the way, do
not depend on the context but for the variables in sight. In particular, a message whose value is
nothing but a reference to a message or attribute comes to what that message or attribute comes
to. -/
theorem resolution_compositional (r : Resolver) :
    (∀ c c' : Context, c.lookup? = c'.lookup? → c.exhausted = false → c'.exhausted = false →
      (∀ e, AlikeBelowLimits c c' (r.expressionIn e c) (r.expressionIn e c')) ∧
      ∀ p, AlikeBelowLimits c c' (r.patternIn p c) (r.patternIn p c')) ∧
    ∀ a b attr args, r.messagePattern a none = .ok [.placeable (.messageRef b attr)] →
      LimitFree (r.resolve a none args).2 → r.resolve a none args = r.resolve b attr args := by
  refine ⟨fun c c' hlookup hgoing hgoing' => ?_, fun a b attr args => resolve_reference⟩
  have hleft : Lockstep r (opening r c.room) (opening r (c.above c').room) _ _ :=
    lockstep_opening (Nat.le_max_left _ _)
  have hright : Lockstep r (opening r c'.room) (opening r (c.above c').room) _ _ :=
    lockstep_opening (Nat.le_max_right _ _)
  constructor
  · intro e
    exact (hleft.expression e fun _ _ => trivial).alike (hright.expression e fun _ _ => trivial)
      hlookup hgoing hgoing'
  · intro p
    exact (hleft.pattern p fun _ _ => trivial).alike (hright.pattern p fun _ _ => trivial)
      hlookup hgoing hgoing'

/-- A resolver for two messages, of which `hello` is nothing but a reference to `greet`. -/
def greeting : Resolver where
  entries := (({} : EntryTable).insertMessage
    ⟨"hello", some [.placeable (.messageRef "greet" none)], [], none, ⟨0, 0⟩⟩).insertMessage
    ⟨"greet", some [.text "Hi ", .placeable (.variableRef "name")], [], none, ⟨0, 0⟩⟩
  functions := {}
  locale := "en"
  useIsolating := false
  maxDepth := 2
  maxPlaceables := 2

/-- Another context without variables: a term is open, placeables were counted and an error was
recorded. -/
def greetingInside : Context where
  scope := some []
  stack := [.term "brand" none]
  maxDepth := 4
  placeables := 3
  maxPlaceables := 9
  exhausted := false
  errors := [.noVariants]

/-- A greeting is the same from the start and inside other frames, and as a message of its own. -/
theorem resolution_compositional_greeting :
    (greeting.patternIn [.placeable (.messageRef "greet" none)] (greeting.start none)).1 =
        (greeting.patternIn [.placeable (.messageRef "greet" none)] greetingInside).1 ∧
      greeting.resolve "hello" none none = greeting.resolve "greet" none none := by
  obtain ⟨halike, hreference⟩ := resolution_compositional greeting
  refine ⟨?_, hreference "hello" "greet" none none rfl (by decide +kernel)⟩
  obtain ⟨new, new', hnew, hnew', h⟩ := (halike (greeting.start none) greetingInside rfl rfl rfl).2
    [.placeable (.messageRef "greet" none)]
  have hfree : new = [.unknownVariable "name"] :=
    hnew.symm.trans (by decide +kernel)
  have hfree' : new' = [.unknownVariable "name"] :=
    List.append_cancel_left (hnew'.symm.trans (by decide +kernel :
      _ = greetingInside.errors ++ [.unknownVariable "name"]))
  subst hfree hfree'
  exact (h (by decide) (by decide)).1

end Resolver

end Phrasebook
