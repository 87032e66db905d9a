import Phrasebook.Proofs.Resolution.ParsedTable
import Phrasebook.Proofs.TreeInduction

/-!
# The limit of placeables

Two runs that differ only in how many placeables may be written take the same steps until the lower
limit is exceeded. From there on the one writes nothing and records nothing, while the other goes
on, so that what the one has written is where the text of the other starts.
-/

namespace Phrasebook

/-- The errors without a final one that tells that the limit of placeables was exceeded. -/
def ResolutionError.beforeLimit (errors : List ResolutionError) : List ResolutionError :=
  match errors.getLast? with
  | some (.tooManyPlaceables _) => errors.dropLast
  | _ => errors

/-- The error that tells of the limit is left out. -/
theorem ResolutionError.beforeLimit_append (front : List ResolutionError) (limit : Nat) :
    beforeLimit (front ++ [.tooManyPlaceables limit]) = front := by
  simp [beforeLimit]

/-- The errors before the limit are the first ones. -/
theorem ResolutionError.beforeLimit_prefix (errors : List ResolutionError) :
    beforeLimit errors <+: errors := by
  rw [beforeLimit]
  split
  · exact List.dropLast_prefix errors
  · exact List.prefix_refl errors

/-- The text starts with another one. -/
def StartsText (start text : String) : Prop := ∃ rest, text = start ++ rest

/-- The empty text starts every text. -/
theorem startsText_empty (text : String) : StartsText "" text := ⟨text, by simp⟩

/-- What starts a text starts every longer one. -/
theorem StartsText.append {start text : String} (h : StartsText start text) (more : String) :
    StartsText start (text ++ more) := by
  obtain ⟨rest, rfl⟩ := h
  exact ⟨rest ++ more, String.append_assoc ..⟩

/-- Both are texts, and one starts the other. -/
def Value.Starts (start value : Value) : Prop :=
  ∃ s t, start = .string s ∧ value = .string t ∧ StartsText s t

/-- The same context, but for the limit of placeables. -/
def Context.withLimit (c : Context) (limit : Nat) : Context := { c with maxPlaceables := limit }

namespace Resolution

variable {α β : Type}

/-- Both have a result, and the results are related. -/
def BothOk {ε : Type} (R : α → α → Prop) (result result' : Except ε α) : Prop :=
  ∃ a a', result = .ok a ∧ result' = .ok a' ∧ R a a'

/-- A run has not met its limit, and the one with the greater limit was the same. -/
structure Alike (limit : Nat) (run run' : α × Context) : Prop where
  going : run.2.exhausted = false
  bound : run.2.maxPlaceables ≤ limit
  same : run' = (run.1, run.2.withLimit limit)

/-- A run has met its limit; the one with the greater limit may have gone further. -/
structure CutOff (R : α → α → Prop) (run run' : α × Context) : Prop where
  exhausted : run.2.exhausted = true
  result : R run.1 run'.1
  errors : ∃ front limit, run.2.errors = front ++ [.tooManyPlaceables limit] ∧
    front <+: run'.2.errors

/-- Under a greater limit, `m'` does what `m` does, unless that is cut off; what `m` comes to is
then related by `R` to what `m'` comes to. -/
def Truncates (R : α → α → Prop) (m m' : Resolution α) : Prop :=
  ∀ c limit, c.exhausted = false → c.maxPlaceables ≤ limit →
    Alike limit (m.run c) (m'.run (c.withLimit limit)) ∨
      CutOff R (m.run c) (m'.run (c.withLimit limit))

/-- Once the limit is exceeded, `m` does nothing, and whatever `m'` does is related to that. -/
structure Silent (R : α → α → Prop) (m m' : Resolution α) : Prop where
  context {c : Context} : c.exhausted = true → (m.run c).2 = c
  result {c : Context} : c.exhausted = true → ∀ c', R (m.run c).1 (m'.run c').1
  intact : Intact m'

/-- Returning a value does not depend on the limit. -/
theorem truncates_pure (R : α → α → Prop) (a : α) : Truncates R (pure a) (pure a) :=
  fun _ _ hgoing hbound => .inl ⟨hgoing, hbound, rfl⟩

/-- Recording an error does not depend on the limit. -/
theorem truncates_report (R : Unit → Unit → Prop) (e : ResolutionError) :
    Truncates R (report e) (report e) :=
  fun _ _ hgoing hbound => .inl ⟨hgoing, hbound, rfl⟩

/-- Below the lower limit neither limit is exceeded. -/
theorem truncates_exhausted (R : Bool → Bool → Prop) : Truncates R exhausted exhausted :=
  fun _ _ hgoing hbound => .inl ⟨hgoing, hbound, rfl⟩

/-- What follows a run that was cut off must be silent. -/
theorem Truncates.bind {R : α → α → Prop} {S : β → β → Prop} {m m' : Resolution α}
    {f f' : α → Resolution β} (hm : Truncates R m m') (hf : ∀ a, Truncates S (f a) (f' a))
    (hsilent : ∀ a a', R a a' → Silent S (f a) (f' a')) : Truncates S (m >>= f) (m' >>= f') := by
  intro c limit hgoing hbound
  rw [run_bind, run_bind]
  rcases hm c limit hgoing hbound with h | h
  · rw [h.same]
    exact hf _ _ limit h.going h.bound
  · have hrest := hsilent _ _ h.result
    obtain ⟨front, number, herrors, hfront⟩ := h.errors
    have hcontext := hrest.context h.exhausted
    exact .inr
      { exhausted := by rw [hcontext, h.exhausted]
        result := hrest.result h.exhausted _
        errors := ⟨front, number, by rw [hcontext, herrors],
          hfront.trans (hrest.intact _).errors⟩ }

/-- Returning a value is silent. -/
theorem silent_pure {R : α → α → Prop} {a a' : α} (h : R a a') : Silent R (pure a) (pure a') where
  context _ := rfl
  result _ _ := h
  intact := intact_pure a'

/-- What is made of a silent result is silent. -/
theorem Silent.map {R : α → α → Prop} {S : β → β → Prop} {m m' : Resolution α}
    (hm : Silent R m m') {f f' : α → β} (hf : ∀ a a', R a a' → S (f a) (f' a')) :
    Silent S (return f (← m)) (return f' (← m')) where
  context h := hm.context h
  result h c' := hf _ _ (hm.result h c')
  intact := hm.intact.bind fun _ => intact_pure _

/-- What is made of a truncated result is truncated. -/
theorem Truncates.map {R : α → α → Prop} {S : β → β → Prop} {m m' : Resolution α}
    (hm : Truncates R m m') (f : α → β) (hf : ∀ a a', R a a' → S (f a) (f a')) :
    Truncates S (return f (← m)) (return f (← m')) :=
  hm.bind (fun _ => truncates_pure _ _) fun a a' h => silent_pure (hf a a' h)

/-- Where the lower limit is exceeded, the greater one may be, too, and then that is recorded. -/
theorem truncates_count : Truncates (fun _ _ => True) count count := by
  intro c limit hgoing hbound
  rcases Nat.lt_or_ge c.placeables c.maxPlaceables with hlt | hle
  · left
    have hcount := Context.countPlaceable_of_lt hgoing hlt
    have hcount' := Context.countPlaceable_of_lt (c := c.withLimit limit) hgoing
      (Nat.lt_of_lt_of_le hlt hbound)
    refine ⟨by simpa [hcount] using hgoing, by simpa [hcount] using hbound, ?_⟩
    rw [run_count, run_count, hcount, hcount']
    rfl
  · right
    have hcount := Context.countPlaceable_of_le hgoing hle
    refine ⟨by simp [hcount], trivial, c.errors, c.maxPlaceables, by simp [hcount], ?_⟩
    exact (intact_count (c.withLimit limit)).errors

/-- Looking up a variable does not depend on the limit. -/
theorem truncates_variableValue (R : Except String Value → Except String Value → Prop)
    (name : String) :
    Truncates R (Resolver.variableValue name) (Resolver.variableValue name) := by
  intro c limit hgoing hbound
  left
  cases h : c.lookup? name with
  | some value =>
    have h' : (c.withLimit limit).lookup? name = some value := h
    rw [Resolver.run_variableValue_some h, Resolver.run_variableValue_some h']
    exact ⟨hgoing, hbound, rfl⟩
  | none =>
    have h' : (c.withLimit limit).lookup? name = none := h
    rw [Resolver.run_variableValue_none h, Resolver.run_variableValue_none h']
    exact ⟨hgoing, hbound, rfl⟩

/-- A term is truncated as it is inside. -/
theorem Truncates.withScope {R : α → α → Prop} {m m' : Resolution α} (hm : Truncates R m m')
    (scope : Arguments) : Truncates R (withScope scope m) (withScope scope m') := by
  intro c limit hgoing hbound
  rw [run_withScope, run_withScope]
  rcases hm (c.child scope) limit hgoing hbound with h | h
  · exact .inl ⟨h.going, hbound, congrArg
      (fun run => (run.1, (c.withLimit limit).emptied.absorb run.2)) h.same⟩
  · exact .inr ⟨h.exhausted, h.result, h.errors⟩

/-- A frame is truncated as it is inside. -/
theorem Truncates.inFrame {R : α → α → Prop} {m m' : Resolution α} (hm : Truncates R m m')
    (frame : Frame) : Truncates R (inFrame frame m) (inFrame frame m') := by
  intro c limit hgoing hbound
  rw [run_inFrame, run_inFrame]
  rcases hm { c with stack := frame :: c.stack } limit hgoing hbound with h | h
  · exact .inl ⟨h.going, h.bound,
      congrArg (fun run => (run.1, { run.2 with stack := run.2.stack.tail })) h.same⟩
  · exact .inr ⟨h.exhausted, h.result, h.errors⟩

/-- Text is added to what the lower limit lets stand. -/
theorem Truncates.append {m m' : Resolution String} (hm : Truncates StartsText m m')
    (text : String) : Truncates StartsText (return text ++ (← m)) (return text ++ (← m')) := by
  refine hm.map (text ++ ·) ?_
  rintro start whole ⟨more, rfl⟩
  exact ⟨more, (String.append_assoc ..).symm⟩

/-- What is written only while the limit is not exceeded is cut off where it is if it is not. -/
theorem Truncates.unlessExhausted {R : String → String → Prop} {m m' : Resolution String}
    (hm : Truncates R m m') :
    Truncates R
      (do
        if ← exhausted then return ""
        m)
      (do
        if ← exhausted then return ""
        m') := by
  refine (truncates_exhausted fun _ _ => False).bind (fun exhausted => ?_) fun _ _ h => h.elim
  cases exhausted with
  | true => exact truncates_pure _ _
  | false => exact hm

/-- What is written only while the limit is not exceeded is silent from there on. -/
theorem silent_unlessExhausted (m : Resolution String) {m' : Resolution String} (hm : Intact m') :
    Silent StartsText
      (do
        if ← exhausted then return ""
        m)
      (do
        if ← exhausted then return ""
        m') where
  context h := by
    rw [run_bind, run_exhausted, h]
    rfl
  result h _ := by
    rw [run_bind, run_exhausted, h]
    exact startsText_empty _
  intact := by
    refine congruent_intact.exhausted.bind fun exhausted => ?_
    cases exhausted with
    | true => exact intact_pure _
    | false => exact hm

end Resolution

namespace Resolver

open Resolution

/-- The same resolver, but for the limit of placeables. -/
def withLimit (r : Resolver) (limit : Nat) : Resolver := { r with maxPlaceables := limit }

variable {r : Resolver} {o o' : Opening} {limit : Nat}

/-- Once the limit is exceeded, a pattern writes nothing more. -/
theorem silent_elements (hintact : ∀ fallback frame p, Intact (reaching fallback (o' frame p)))
    (r r' : Resolver) (isolating isolating' : Bool) (p p' : Pattern) :
    Silent (fun start _ => start = "") (r.elements o isolating p)
      (r'.elements o' isolating' p') where
  context h := by rw [run_elements_of_exhausted h]
  result h _ := by rw [run_elements_of_exhausted h]
  intact := (lockstep_intact hintact).elements isolating' p' fun _ _ => trivial

/-- Writing a result does not depend on the limit. -/
theorem truncates_writeResult (R : String → String → Prop) (result : Except String Value) :
    Truncates R (r.writeResult result) ((r.withLimit limit).writeResult result) := by
  cases result with
  | error fallback => exact truncates_pure R fallback
  | ok value =>
    rw [writeResult, writeResult, writeValue, writeValue, withLimit]
    cases value.format r.locale with
    | some text => exact truncates_pure R text
    | none =>
      exact (truncates_report (fun _ _ => False) _).bind (fun _ => truncates_pure R _)
        fun _ _ h => h.elim

/-- An error that is recorded with its fallback does not depend on the limit. -/
theorem truncates_report_error {α : Type} (R : Except String α → Except String α → Prop)
    (fallback : String) (e : ResolutionError) :
    Truncates R (do report e; return .error fallback) (do report e; return .error fallback) :=
  (truncates_report (fun _ _ => False) e).bind (fun _ => truncates_pure R _) fun _ _ h => h.elim

/-- A pattern is cut off where one of its placeables is, or where one of them is not counted. -/
theorem truncates_elements
    (hintact : ∀ fallback frame p, Intact (reaching fallback (o' frame p))) {p : Pattern}
    (hp : ∀ e, .placeable e ∈ p → Truncates (BothOk Value.Starts) (r.expression o e)
      ((r.withLimit limit).expression o' e)) :
    Truncates StartsText (r.elements o false p) ((r.withLimit limit).elements o' false p) := by
  have hsteps : Lockstep (r.withLimit limit) o' o' _ fun m _ => Intact m := lockstep_intact hintact
  induction p with
  | nil =>
    rw [elements, elements]
    exact truncates_pure _ _
  | cons element rest ih =>
    have hrest := ih fun e he => hp e (List.mem_cons_of_mem _ he)
    cases element with
    | text value =>
      rw [elements_text, elements_text]
      exact (hrest.append value).unlessExhausted
    | placeable inner =>
      rw [elements_placeable, elements_placeable]
      refine truncates_count.bind (fun _ => ?_) fun _ _ _ => ?_
      · refine ((hp inner List.mem_cons_self).bind (fun result => ?_) ?_).unlessExhausted
        · exact (truncates_writeResult (fun _ _ => False) result).bind
            (fun text => hrest.append text) fun _ _ h => h.elim
        -- The placeable was cut off: behind it the shorter run is silent, and the longer one may
        -- only add text.
        · rintro _ _ ⟨_, _, rfl, rfl, start, text, rfl, rfl, hstart⟩
          have hsilent : Silent StartsText (return start ++ (← r.elements o false rest))
              (return text ++ (← (r.withLimit limit).elements o' false rest)) :=
            (silent_elements hintact r (r.withLimit limit) false false rest rest).map <| by
              rintro _ more rfl
              simpa using hstart.append more
          exact hsilent
      -- The placeable was not counted by the shorter run, which adds nothing to the text before it.
      · refine silent_unlessExhausted _ ?_
        have hinner := hsteps.expression inner fun _ _ => trivial
        have hmore := hsteps.elements false rest fun _ _ => trivial
        exact hinner.bind fun result => (congruent_intact.writeResult result).bind fun text =>
          hmore.bind fun _ => intact_pure _

/-- The resolutions of a select are cut off where that of the selector is, which may then choose
another variant, or where that of the variant is. -/
theorem truncates_select (hintact : ∀ fallback frame p, Intact (reaching fallback (o' frame p)))
    {selector : Expression} {variants : List Variant} (hne : variants ≠ [])
    (hselector : Truncates (BothOk Value.Starts) (r.expression o selector)
      ((r.withLimit limit).expression o' selector))
    (hvariants : ∀ v ∈ variants, Truncates StartsText (r.pattern o v.value)
      ((r.withLimit limit).pattern o' v.value)) :
    Truncates (BothOk Value.Starts) (r.expression o (.select selector variants))
      ((r.withLimit limit).expression o' (.select selector variants)) := by
  have htext (start text : String) (h : StartsText start text) :
      BothOk Value.Starts (.ok (.string start) : Except String Value) (.ok (.string text)) :=
    ⟨_, _, rfl, rfl, start, text, rfl, rfl, h⟩
  rw [expression_select, expression_select]
  refine hselector.bind (fun selected => ?_) fun selected selected' _ => ?_
  · obtain ⟨v, hv⟩ := Variant.exists_chosen? hne r.locale selected.toOption
    dsimp only [withLimit]
    rw [hv]
    exact (hvariants v (Variant.mem_of_chosen? hv)).map _ htext
  · obtain ⟨v, hv⟩ := Variant.exists_chosen? hne r.locale selected.toOption
    obtain ⟨v', hv'⟩ := Variant.exists_chosen? hne r.locale selected'.toOption
    dsimp only [withLimit]
    rw [hv, hv']
    refine (silent_elements hintact r (r.withLimit limit) _ _ v.value v'.value).map ?_
    rintro _ text rfl
    exact htext "" text (startsText_empty text)

/-- A message is truncated if its pattern is. -/
theorem truncates_openMessage {id : String} {attr : Option String}
    (hopen : ∀ p fallback, r.messagePattern id attr = .ok p → Truncates (BothOk StartsText)
      (reaching fallback (o (.message id attr) p)) (reaching fallback (o' (.message id attr) p))) :
    Truncates (BothOk StartsText) (r.openMessage o id attr)
      ((r.withLimit limit).openMessage o' id attr) :=
  openMessage_rel rfl (fun p => hopen p _) fun e _ => truncates_report_error _ _ e

/-- A term is truncated if its pattern is. -/
theorem truncates_openTerm {id : String} {attr : Option String}
    (hopen : ∀ p fallback, r.termPattern id attr = .ok p → Truncates (BothOk StartsText)
      (reaching fallback (o (.term id attr) p)) (reaching fallback (o' (.term id attr) p)))
    (scope : Arguments) :
    Truncates (BothOk StartsText) (r.openTerm o id attr scope)
      ((r.withLimit limit).openTerm o' id attr scope) :=
  openTerm_rel rfl (fun p hp => (hopen p _ hp).withScope scope) fun e _ =>
    truncates_report_error _ _ e

/-- A text that is the value of a reference starts the other one. -/
private theorem bothOk_string {result result' : Except String String}
    (h : BothOk StartsText result result') :
    BothOk Value.Starts (result.map .string) (result'.map .string) := by
  obtain ⟨start, text, rfl, rfl, h⟩ := h
  exact ⟨_, _, rfl, rfl, start, text, rfl, rfl, h⟩

/-- Expressions and patterns are truncated if the references in them are, constructor by
constructor. -/
theorem ascends_truncates (limit : Nat) (hisolating : r.useIsolating = false)
    (hintact : ∀ fallback frame p, Intact (reaching fallback (o' frame p)))
    (hopen : ∀ fallback frame p, p ∈ r.entries.patterns → Truncates (BothOk StartsText)
      (reaching fallback (o frame p)) (reaching fallback (o' frame p))) :
    Ascends (fun node => node.Lawful ∧ node.isCall = false)
      (fun e => Truncates (BothOk Value.Starts) (r.expression o e)
        ((r.withLimit limit).expression o' e))
      fun p => Truncates StartsText (r.pattern o p) ((r.withLimit limit).pattern o' p) where
  string l := by
    rw [expression, expression]
    exact truncates_pure _ _
  number l := by
    rw [expression, expression]
    exact truncates_pure _ _
  variableRef name _ _ := by
    rw [expression, expression]
    exact truncates_variableValue _ name
  messageRef id attr _ _ _ := by
    rw [expression, expression]
    refine (truncates_openMessage fun p fallback hp => ?_).map _ fun _ _ => bothOk_string
    exact hopen fallback _ p (mem_patterns_of_messagePattern hp)
  termRef id attr arguments _ _ _ := by
    rw [expression_termRef, expression_termRef]
    refine (truncates_openTerm (fun p fallback hp => ?_) _).map _ fun _ _ => bothOk_string
    exact hopen fallback _ p (mem_patterns_of_termPattern hp)
  -- A call may give anything for an argument that is cut off, so there are none.
  call name arguments hnode _ := by
    cases hnode.2
  select selector variants hnode hselector hvariants := by
    refine truncates_select hintact ?_ hselector hvariants
    rintro rfl
    cases hnode.1.2
  placeable inner hinner := by
    rw [expression, expression]
    exact hinner
  pattern p _ hp := by
    have hisolating' : (r.withLimit limit).useIsolating = false := hisolating
    rw [pattern, pattern, hisolating, hisolating', Bool.false_and]
    exact truncates_elements hintact hp

/-- A reference is truncated, by induction on the depth that is left. -/
theorem truncates_reaching (hisolating : r.useIsolating = false)
    (hparsed : r.entries.Parsed) (hcalls : r.entries.CallFree) (room : Nat) (fallback : String)
    (frame : Frame) (p : Pattern) (hp : p ∈ r.entries.patterns) :
    Truncates (BothOk StartsText) (reaching fallback (opening r room frame p))
      (reaching fallback (opening (r.withLimit limit) room frame p)) := by
  induction room generalizing fallback frame p with
  | zero =>
    intro c number hgoing hbound
    left
    by_cases hopen : frame ∈ c.stack
    -- Whether the frame is open does not depend on the limit, so both runs refuse it or both go in.
    · have hopen' : frame ∈ (c.withLimit number).stack := hopen
      rw [run_reaching_cyclic hopen, run_reaching_cyclic hopen']
      exact ⟨hgoing, hbound, rfl⟩
    · have hopen' : frame ∉ (c.withLimit number).stack := hopen
      rw [run_reaching_full hopen, run_reaching_full hopen']
      exact ⟨hgoing, hbound, rfl⟩
  | succ room ih =>
    have hsteps := ascends_truncates limit hisolating (intact_reaching room) ih
    have hpattern := hsteps.of_pattern p fun node hnode =>
      have hnode := EntryTable.mem_nodes hp hnode
      ⟨hparsed.lawful node hnode, hcalls node hnode⟩
    intro c number hgoing hbound
    by_cases hopen : frame ∈ c.stack
    · have hopen' : frame ∈ (c.withLimit number).stack := hopen
      rw [run_reaching_cyclic hopen, run_reaching_cyclic hopen']
      exact .inl ⟨hgoing, hbound, rfl⟩
    · have hopen' : frame ∉ (c.withLimit number).stack := hopen
      rw [run_reaching_free hopen, run_reaching_free hopen']
      rcases hpattern.inFrame frame c number hgoing hbound with h | h
      · refine .inl ⟨h.going, h.bound, ?_⟩
        rw [h.same]
      · exact .inr ⟨h.exhausted, ⟨_, _, rfl, rfl, h.result⟩, h.errors⟩

/-- The lower limit of placeables only cuts short what is written under the greater one. The text is
where the other text starts, and the errors are those that the other has first, but for a last one
that tells of the limit; where none tells of it, the two results are the same. -/
theorem resolve_truncates (r : Resolver) (hisolating : r.useIsolating = false)
    (hparsed : r.entries.Parsed) (hcalls : r.entries.CallFree) {k k' : Nat} (hk : k ≤ k')
    (id : String) (attr : Option String) (args : Option Arguments) :
    StartsText ((r.withLimit k).resolve id attr args).1 ((r.withLimit k').resolve id attr args).1 ∧
      ResolutionError.beforeLimit ((r.withLimit k).resolve id attr args).2 <+:
        ((r.withLimit k').resolve id attr args).2 ∧
      ((∀ limit, .tooManyPlaceables limit ∉ ((r.withLimit k).resolve id attr args).2) →
        (r.withLimit k).resolve id attr args = (r.withLimit k').resolve id attr args) := by
  have hopen : Truncates (BothOk StartsText)
      ((r.withLimit k).openMessage ((r.withLimit k).opening r.maxDepth) id attr)
      ((r.withLimit k').openMessage ((r.withLimit k').opening r.maxDepth) id attr) :=
    truncates_openMessage (r := r.withLimit k) fun p fallback hp =>
      truncates_reaching (r := r.withLimit k) hisolating hparsed hcalls _ fallback _ p
        (mem_patterns_of_messagePattern hp)
  have hstart : (r.withLimit k').start args = ((r.withLimit k).start args).withLimit k' := rfl
  have hdepth (limit : Nat) : (r.withLimit limit).maxDepth = r.maxDepth := rfl
  rw [resolve_eq, resolve_eq, hstart, hdepth, hdepth]
  rcases hopen ((r.withLimit k).start args) k' rfl hk with h | h
  · rw [h.same]
    exact ⟨⟨"", by simp⟩, ResolutionError.beforeLimit_prefix _, fun _ => rfl⟩
  · obtain ⟨front, limit, herrors, hfront⟩ := h.errors
    obtain ⟨start, text, hresult, hresult', htext⟩ := h.result
    rw [herrors, hresult, hresult', ResolutionError.beforeLimit_append]
    exact ⟨htext, hfront, fun hnone => absurd (hnone limit) (by simp)⟩

/-- A message whose selector is written by two placeables. Where only the first of them may be
written, the selector is the key of another variant. -/
def countingSource : String :=
  "-t = T\n .a = \x7b $x \x7d\x7b $y \x7d\n" ++
    "m = A\x7b -t.a(x: \"o\", y: \"p\") ->\n [o] B\n *[op] C\n \x7d D\n"

/-- Of three placeables two stand in the selector of the first, where a limit of two cuts off the
text. -/
theorem resolve_truncates_counting :
    ((ofSource countingSource).withLimit 2).resolve "m" none none =
        ("A", [.tooManyPlaceables 2]) ∧
      ((ofSource countingSource).withLimit 3).resolve "m" none none = ("AC D", []) ∧
      StartsText "A" "AC D" := by
  have hshort : ((ofSource countingSource).withLimit 2).resolve "m" none none =
      ("A", [.tooManyPlaceables 2]) := by decide +kernel
  have hlong : ((ofSource countingSource).withLimit 3).resolve "m" none none =
      ("AC D", []) := by decide +kernel
  have hstarts := (resolve_truncates (ofSource countingSource) rfl
    (parsed_entries_ofSource countingSource) (by decide +kernel) (by decide : 2 ≤ 3)
    "m" none none).1
  rw [hshort, hlong] at hstarts
  exact ⟨hshort, hlong, hstarts⟩

end Resolver

end Phrasebook
