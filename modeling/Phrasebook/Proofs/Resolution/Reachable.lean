import Phrasebook.Proofs.Resolution.ParsedTable
import Phrasebook.Proofs.Resolution.ReferenceGraph
import Phrasebook.Proofs.TreeInduction

/-!
# What may be written

References lead from the message that is asked for to other patterns. A message is resolved with the
variables that its caller sees, and a term with its named arguments. What a placeable writes without
entering another pattern depends on nothing but the variables in sight.
-/

namespace Phrasebook

open Outline

/-- Resolving the node enters a pattern. -/
def Node.enters : Node → Bool
  | .messageRef .. => true
  | .termRef .. => true
  | .select .. => true
  | _ => false

/-- No pattern is entered inside the expression. -/
def Expression.Direct (e : Expression) : Prop :=
  ∀ node ∈ (ofExpression e).nodes, node.enters = false

instance (e : Expression) : Decidable e.Direct :=
  inferInstanceAs (Decidable (∀ node ∈ (ofExpression e).nodes, node.enters = false))

/-- The expression is neither a select nor one in further braces. -/
def Expression.isLeaf : Expression → Bool
  | .select .. => false
  | .placeable inner => inner.isLeaf
  | _ => true

/-- A string refers to nothing. -/
theorem Expression.direct_string (l : StringLiteral) : (Expression.string l).Direct := by
  simp [Direct, ofExpression, nodes, walk, walkAll, leaf, Node.enters]

/-- A number refers to nothing. -/
theorem Expression.direct_number (l : NumberLiteral) : (Expression.number l).Direct := by
  simp [Direct, ofExpression, nodes, walk, walkAll, leaf, Node.enters]

/-- A variable refers to no entry. -/
theorem Expression.direct_variableRef (name : String) : (Expression.variableRef name).Direct := by
  simp [Direct, ofExpression, nodes, walk, walkAll, leaf, Outline.name, Node.enters]

/-- A term reference is not direct. -/
theorem Expression.not_direct_termRef {id : String} {attr : Option String}
    {arguments : Option CallArguments} : ¬(Expression.termRef id attr arguments).Direct := by
  intro h
  have hnode : .termRef id attr arguments ∈ (ofExpression (.termRef id attr arguments)).nodes := by
    cases arguments <;> simp [ofExpression, nodes, walk, walkAll]
  cases h _ hnode

/-- The text, if the element is one. -/
def PatternElement.text? : PatternElement → Option String
  | .text value => some value
  | .placeable _ => none

/-- The expression, if the element is a placeable. -/
def PatternElement.placeable? : PatternElement → Option Expression
  | .placeable e => some e
  | .text _ => none

namespace EntryTable

/-- A pattern to which references lead from the first one, and the variables in sight there. -/
inductive Reaches (table : EntryTable) (first : Frame) (args : Option Arguments) :
    Option Arguments → Pattern → Prop
  | first {p : Pattern} : table.pattern? first = some p → Reaches table first args args p
  | message {scope : Option Arguments} {p q : Pattern} {id : String} {attr : Option String} :
    Reaches table first args scope p → .messageRef id attr ∈ (ofPattern p).nodes →
      table.pattern? (.message id attr) = some q → Reaches table first args scope q
  | term {scope : Option Arguments} {p q : Pattern} {id : String} {attr : Option String}
    {arguments : Option CallArguments} :
    Reaches table first args scope p → .termRef id attr arguments ∈ (ofPattern p).nodes →
      table.pattern? (.term id attr) = some q →
        Reaches table first args (some (Resolver.termScope arguments)) q

/-- A pattern that is reached, or that of a variant inside it. -/
def ReachesInside (table : EntryTable) (first : Frame) (args scope : Option Arguments)
    (q : Pattern) : Prop :=
  ∃ p, table.Reaches first args scope p ∧ .pattern q ∈ (ofPattern p).nodes

variable {table : EntryTable} {first frame : Frame} {args scope : Option Arguments} {p : Pattern}

/-- The pattern of a frame is one of the table. -/
theorem mem_patterns_of_pattern? (h : table.pattern? frame = some p) : p ∈ table.patterns := by
  cases frame with
  | message id attr =>
    obtain ⟨m, hmessage, hpart⟩ := Option.bind_eq_some_iff.mp h
    exact mem_patterns.mpr (.inl ⟨id, m, hmessage, m.mem_patterns_of_part? hpart⟩)
  | term id attr =>
    obtain ⟨t, hterm, hpart⟩ := Option.bind_eq_some_iff.mp h
    exact mem_patterns.mpr (.inr ⟨id, t, hterm, t.mem_patterns_of_part? hpart⟩)

/-- Only patterns of the table are reached. -/
theorem Reaches.mem_patterns (h : table.Reaches first args scope p) : p ∈ table.patterns := by
  cases h with
  | first h => exact mem_patterns_of_pattern? h
  | message _ _ h => exact mem_patterns_of_pattern? h
  | term _ _ h => exact mem_patterns_of_pattern? h

/-- The nodes of a pattern that is reached are nodes of the table. -/
theorem Reaches.mem_nodes (h : table.Reaches first args scope p) {node : Node}
    (hnode : node ∈ (ofPattern p).nodes) : node ∈ table.nodes :=
  EntryTable.mem_nodes h.mem_patterns hnode

/-- A pattern inside of one that is reached is a node of the table. -/
theorem ReachesInside.mem_nodes {q : Pattern} (h : table.ReachesInside first args scope q) :
    .pattern q ∈ table.nodes := by
  obtain ⟨p, hp, hnode⟩ := h
  exact hp.mem_nodes hnode

/-- The variables that may be in sight: the given ones, and the named arguments of each term. -/
def scopes (table : EntryTable) (args : Option Arguments) : List (Option Arguments) :=
  args :: table.nodes.filterMap fun
    | .termRef _ _ arguments => some (some (Resolver.termScope arguments))
    | _ => none

/-- The variables in sight are those of the caller or the arguments of some reference. -/
theorem Reaches.scope_mem (h : table.Reaches first args scope p) : scope ∈ table.scopes args := by
  induction h with
  | first _ => exact List.mem_cons_self
  | message _ _ _ ih => exact ih
  | term h hnode _ _ =>
    exact List.mem_cons_of_mem _ (List.mem_filterMap.mpr ⟨_, h.mem_nodes hnode, rfl⟩)

/-- Inside a pattern the same variables are in sight as in all of it. -/
theorem ReachesInside.scope_mem {q : Pattern} (h : table.ReachesInside first args scope q) :
    scope ∈ table.scopes args := by
  obtain ⟨p, hp, -⟩ := h
  exact hp.scope_mem

/-- The expressions that stand in the patterns of a table. -/
def placed (table : EntryTable) : List Expression :=
  (table.nodes.filterMap Node.pattern?).flatMap fun q => q.filterMap PatternElement.placeable?

/-- What is placed in a pattern that is reached is placed in the table. -/
theorem ReachesInside.mem_placed {q : Pattern} {e : Expression}
    (h : table.ReachesInside first args scope q) (he : .placeable e ∈ q) : e ∈ table.placed :=
  List.mem_flatMap.mpr
    ⟨q, List.mem_filterMap.mpr ⟨_, h.mem_nodes, rfl⟩, List.mem_filterMap.mpr ⟨_, he, rfl⟩⟩

end EntryTable

namespace Resolution

variable {α β : Type} {m m' : Resolution α}

/-- Where the same variables are in sight, the two come to the same and record the same errors, and
they leave all else alone. -/
def Steady (m m' : Resolution α) : Prop :=
  ∀ c c' : Context, c.scope = c'.scope → ∃ a new,
    m.run c = (a, { c with errors := c.errors ++ new }) ∧
      m'.run c' = (a, { c' with errors := c'.errors ++ new })

/-- Returning a value is steady. -/
theorem steady_pure (a : α) : Steady (pure a) (pure a) := fun c c' _ =>
  ⟨a, [], by rw [List.append_nil]; rfl, by rw [List.append_nil]; rfl⟩

/-- Recording an error is steady. -/
theorem steady_report (e : ResolutionError) : Steady (report e) (report e) := fun _ _ _ =>
  ⟨(), [e], rfl, rfl⟩

/-- A sequence of steady steps is steady. -/
theorem Steady.bind {f f' : α → Resolution β} (hm : Steady m m')
    (hf : ∀ a, Steady (f a) (f' a)) : Steady (m >>= f) (m' >>= f') := by
  intro c c' hscope
  obtain ⟨a, new, hrun, hrun'⟩ := hm c c' hscope
  obtain ⟨b, more, hmore, hmore'⟩ := hf a { c with errors := c.errors ++ new }
    { c' with errors := c'.errors ++ new } hscope
  refine ⟨b, new ++ more, ?_, ?_⟩
  · rw [run_bind, hrun, hmore, List.append_assoc]
  · rw [run_bind, hrun', hmore', List.append_assoc]

/-- What is made of a steady result is steady. -/
theorem Steady.map (hm : Steady m m') (f : α → β) :
    Steady (return f (← m)) (return f (← m')) :=
  hm.bind fun a => steady_pure (f a)

/-- A fallback is steady. -/
theorem steady_orFallback (fallback : String) (result : Except ResolutionError α) :
    Steady (orFallback fallback result) (orFallback fallback result) := by
  cases result with
  | ok a => exact steady_pure _
  | error e => exact (steady_report e).bind fun _ => steady_pure _

/-- Looking up a variable is steady. -/
theorem steady_variableValue (name : String) :
    Steady (Resolver.variableValue name) (Resolver.variableValue name) := by
  intro c c' hscope
  have hlookup : c.lookup? name = c'.lookup? name := by
    rw [Context.lookup?, Context.lookup?, hscope]
  cases h : c.lookup? name with
  | some value =>
    rw [Resolver.run_variableValue_some h, Resolver.run_variableValue_some (hlookup.symm.trans h)]
    exact ⟨_, [], by rw [List.append_nil], by rw [List.append_nil]⟩
  | none =>
    rw [Resolver.run_variableValue_none h, Resolver.run_variableValue_none (hlookup.symm.trans h)]
    exact ⟨_, [_], rfl, rfl⟩

end Resolution

namespace Resolver

open Resolution

/-- The text of a value, or its description where it has none. -/
def valueText (r : Resolver) (value : Value) : String :=
  (value.format r.locale).getD value.description

/-- The text of a value, or the fallback for it. -/
def resultText (r : Resolver) : Except String Value → String
  | .ok value => r.valueText value
  | .error fallback => fallback

/-- What an expression comes to where nothing but the variables is at hand: no message or term may
be opened. -/
def valueIn (r : Resolver) (scope : Option Arguments) (e : Expression) : Except String Value :=
  ((r.expression (r.opening 0) e).run (.initial scope 0 0)).1

/-- What a placeable writes where nothing but the variables is at hand. -/
def leafText (r : Resolver) (scope : Option Arguments) (e : Expression) : String :=
  r.resultText (r.valueIn scope e)

variable {r r' : Resolver} {o o' : Opening} {id : String} {attr : Option String}
  {scope : Option Arguments}

/-- A message reference writes its fallback by itself. -/
theorem leafText_messageRef :
    r.leafText scope (.messageRef id attr) = braced (referenceName id attr) := by
  rw [leafText, valueIn, expression]
  cases hp : r.messagePattern id attr with
  | ok p =>
    rw [openMessage_of_ok hp, run_bind, run_reaching_full List.not_mem_nil]
    rfl
  | error e =>
    rw [openMessage_of_error hp]
    rfl

/-- A term reference writes its fallback by itself. -/
theorem leafText_termRef {arguments : Option CallArguments} :
    r.leafText scope (.termRef id attr arguments) = braced ("-" ++ referenceName id attr) := by
  rw [leafText, valueIn, expression_termRef]
  cases hp : r.termPattern id attr with
  | ok p =>
    rw [openTerm_of_ok hp, run_bind, run_withScope, run_reaching_full List.not_mem_nil]
    rfl
  | error e =>
    rw [openTerm_of_error hp]
    rfl

/-- A nested placeable writes by itself what its expression writes. -/
theorem leafText_placeable {inner : Expression} :
    r.leafText scope (.placeable inner) = r.leafText scope inner := by
  rw [leafText, valueIn, expression]
  rfl

/-- The text of a result is written, and at most an error is recorded. -/
theorem run_writeResult (r : Resolver) (result : Except String Value) (c : Context) :
    ∃ new, (r.writeResult result).run c =
      (r.resultText result, { c with errors := c.errors ++ new }) := by
  cases result with
  | error fallback => exact ⟨[], by rw [List.append_nil]; rfl⟩
  | ok value =>
    rw [writeResult, writeValue, resultText, valueText]
    cases value.format r.locale with
    | some text => exact ⟨[], by rw [List.append_nil]; rfl⟩
    | none => exact ⟨[.notWritable value.typeName], rfl⟩

section Steady

variable (hfunctions : r'.functions = r.functions) (hlocale : r'.locale = r.locale)

include hfunctions hlocale

/-- A call with steady arguments is steady. -/
theorem steady_call (name : String) {arguments : CallArguments}
    (h : ∀ e ∈ arguments.positional, Steady (r.expression o e) (r'.expression o' e)) :
    Steady (r.expression o (.call name arguments)) (r'.expression o' (.call name arguments)) := by
  obtain ⟨positional, named⟩ := arguments
  have hvalues : Steady (r.values o positional) (r'.values o' positional) := by
    induction positional with
    | nil =>
      rw [values, values]
      exact steady_pure _
    | cons first rest ih =>
      rw [values, values]
      refine (h first List.mem_cons_self).bind fun result => ?_
      cases result with
      | error _ => exact steady_pure _
      | ok value => exact (ih fun e he => h e (List.mem_cons_of_mem _ he)).map _
  rw [expression, expression]
  refine hvalues.bind fun values => ?_
  cases values with
  | none => exact steady_pure _
  | some values =>
    rw [call, call, hfunctions, hlocale]
    exact steady_orFallback _ _

/-- What is direct comes to the same in any context with the same variables in sight, whatever the
entries and settings are. -/
theorem steady_direct {e : Expression} (he : e.Direct) :
    Steady (r.expression o e) (r'.expression o' e) := by
  have hsteps : Ascends (fun node => node.enters = false)
      (fun e => Steady (r.expression o e) (r'.expression o' e)) fun _ => True :=
    { string := fun l => by
        rw [expression, expression]
        exact steady_pure _
      number := fun l => by
        rw [expression, expression]
        exact steady_pure _
      variableRef := fun name _ _ => by
        rw [expression, expression]
        exact steady_variableValue name
      messageRef := fun id attr h _ _ => by cases h
      termRef := fun id attr arguments h _ _ => by cases h
      call := fun name arguments _ h => steady_call hfunctions hlocale name h
      select := fun selector variants h _ _ => by cases h
      placeable := fun inner h => by
        rw [expression, expression]
        exact h
      pattern := fun _ _ _ => trivial }
  exact hsteps.of_expression e he

end Steady

/-- What depends on nothing but the variables in sight comes to the same in every context where they
are in sight. -/
theorem run_of_steady {m : Resolution (Except String Value)} {e : Expression}
    (h : Steady m (r.expression (r.opening 0) e)) (c : Context) :
    ∃ new, m.run c = (r.valueIn c.scope e, { c with errors := c.errors ++ new }) := by
  obtain ⟨a, new, hrun, hrun'⟩ := h c (.initial c.scope 0 0) rfl
  exact ⟨new, by rw [hrun, valueIn, hrun']⟩

end Resolver

end Phrasebook
