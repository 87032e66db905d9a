import Phrasebook.Proofs.Outline
import Phrasebook.Proofs.Resolution.Intact

/-!
# Variables and scopes

A message sees the variables it is resolved with, and a term only its own. What is outside the scope
of a resolution is therefore asked for by the messages alone: a term runs with the same variables,
whatever its caller sees, and so does every message that is reached from it.
-/

namespace Phrasebook

/-- The value and the attributes of a message. -/
def Message.patterns (m : Message) : List Pattern :=
  m.value.toList ++ m.attributes.map fun a => a.value

/-- A part of a message is one of its patterns. -/
theorem Message.mem_patterns_of_part? {m : Message} {attr : Option String} {p : Pattern}
    (h : m.part? attr = some p) : p ∈ m.patterns := by
  cases attr with
  | none => exact List.mem_append_left _ (Option.mem_toList.mpr h)
  | some name =>
    obtain ⟨a, hfind, rfl⟩ := Option.map_eq_some_iff.mp h
    exact List.mem_append_right _ (List.mem_map_of_mem (List.mem_of_find?_eq_some hfind))

/-- The name of a variable that occurs in the value or an attribute of some message. -/
def EntryTable.MessageVariable (table : EntryTable) (name : String) : Prop :=
  ∃ id m, table.message? id = some m ∧
    ∃ p ∈ m.patterns, Node.variableRef name ∈ (Outline.ofPattern p).nodes

namespace Resolution

variable {α β : Type} {asked : String → Prop} {m : Resolution α}

/-- Of the variables in sight, a resolution only asks for those in `asked`: with other variables,
among which these are the same, it does the same. -/
structure Asks (asked : String → Prop) (m : Resolution α) : Prop where
  intact : Intact m
  run {c : Context} {scope : Option Arguments} :
    (∀ name, asked name → c.lookup? name = scope.bind fun vars => vars.lookup name) →
      m.run { c with scope := scope } = ((m.run c).1, { (m.run c).2 with scope := scope })

/-- Returning a value asks for no variable. -/
theorem asks_pure (a : α) : Asks asked (pure a : Resolution α) where
  intact := intact_pure a
  run _ := rfl

/-- The variables in sight are the same after the first step, so the rest asks for the same ones. -/
theorem Asks.bind {f : α → Resolution β} (hm : Asks asked m) (hf : ∀ a, Asks asked (f a)) :
    Asks asked (m >>= f) where
  intact := hm.intact.bind fun a => (hf a).intact
  run {c scope} h := by
    have hrest : ∀ name, asked name →
        (m.run c).2.lookup? name = scope.bind fun vars => vars.lookup name := by
      intro name hname
      rw [← h name hname, Context.lookup?, Context.lookup?, (hm.intact c).scope]
    rw [run_bind, hm.run h]
    exact (hf _).run hrest

/-- Recording an error asks for no variable. -/
theorem asks_report (e : ResolutionError) : Asks asked (report e) where
  intact := intact_report e
  run _ := rfl

/-- Counting a placeable asks for no variable. -/
theorem asks_count : Asks asked count where
  intact := intact_count
  run {c scope} _ := by
    rw [run_count, run_count, Context.countPlaceable, Context.countPlaceable]
    split
    · rfl
    · split <;> rfl

/-- A sequence of steps asks for what its steps ask for. -/
theorem congruent_asks (asked : String → Prop) : Resolver.Congruent fun m _ => Asks asked m where
  pure := asks_pure
  bind := Asks.bind
  report _ := asks_report _
  exhausted := ⟨fun _ => .of_eq rfl, fun _ => rfl⟩
  count := asks_count

/-- Looking up a variable asks for that variable. -/
theorem asks_variableValue {name : String} (hname : asked name) :
    Asks asked (Resolver.variableValue name) where
  intact := intact_variableValue name
  run {c scope} h := by
    cases hlookup : c.lookup? name with
    | some value =>
      have hlookup' : ({ c with scope := scope } : Context).lookup? name = some value :=
        (h name hname).symm.trans hlookup
      rw [Resolver.run_variableValue_some hlookup, Resolver.run_variableValue_some hlookup']
    | none =>
      have hlookup' : ({ c with scope := scope } : Context).lookup? name = none :=
        (h name hname).symm.trans hlookup
      rw [Resolver.run_variableValue_none hlookup, Resolver.run_variableValue_none hlookup']
      rfl

/-- What has its own variables in sight asks for none of the others. -/
theorem asks_withScope (hm : Intact m) (scope : Arguments) : Asks asked (withScope scope m) where
  intact := hm.withScope scope
  run _ := rfl

/-- What is asked for in a frame is asked for outside of it. -/
theorem Asks.inFrame (hm : Asks asked m) (frame : Frame) : Asks asked (inFrame frame m) where
  intact := hm.intact.inFrame frame
  run {c scope} h := by
    have hinner : m.run { c with stack := frame :: c.stack, scope := scope } = _ :=
      hm.run (c := { c with stack := frame :: c.stack }) h
    rw [run_inFrame, run_inFrame, hinner]

end Resolution

namespace Resolver

open Resolution

variable {r : Resolver} {asked : String → Prop}

/-- An expression asks for its own variables and for those of the messages it refers to. -/
theorem lockstep_asks {o : Opening}
    (hopen : ∀ fallback id attr p, r.messagePattern id attr = .ok p →
      Asks asked (reaching fallback (o (.message id attr) p)))
    (hintact : ∀ fallback frame p, Intact (reaching fallback (o frame p))) :
    Lockstep r o o (fun node => ∀ name, node = .variableRef name → asked name)
      fun m _ => Asks asked m where
  toCongruent := congruent_asks asked
  variableValue huses := asks_variableValue (huses _ rfl)
  openMessage _ :=
    (congruent_asks asked).openMessage o o fun p fallback hp => hopen fallback _ _ p hp
  openTerm _ scope :=
    (congruent_asks asked).openTerm o o fun p fallback _ =>
      asks_withScope (hintact fallback _ p) scope

/-- Following a reference to a message asks for no other variables than those of messages. -/
theorem asks_reaching (r : Resolver) (room : Nat) (fallback : String) {id : String}
    {attr : Option String} {p : Pattern} (hp : r.messagePattern id attr = .ok p) :
    Asks r.entries.MessageVariable (reaching fallback (opening r room (.message id attr) p)) := by
  -- Only messages have to be followed: terms, and what is reached from them, have their own scope.
  induction room generalizing fallback id attr p with
  | zero =>
    refine ⟨intact_reaching 0 fallback _ p, fun {c scope} _ => ?_⟩
    by_cases hopen : Frame.message id attr ∈ c.stack
    · rw [run_reaching_cyclic hopen, run_reaching_cyclic (c := { c with scope := scope }) hopen]
      rfl
    · rw [run_reaching_full hopen, run_reaching_full (c := { c with scope := scope }) hopen]
      rfl
  | succ room ih =>
    obtain ⟨m, hmessage, hpart⟩ := messagePattern_ok hp
    have hsteps := lockstep_asks (fun fallback id attr p => @ih fallback id attr p)
      (intact_reaching room)
    have hpattern : Asks r.entries.MessageVariable (pattern r (opening r room) p) :=
      hsteps.pattern p fun node hnode name heq =>
        ⟨id, m, hmessage, p, m.mem_patterns_of_part? hpart,
          heq ▸ Outline.mem_nodes_of_mem_walk hnode⟩
    have hframe := hpattern.inFrame (.message id attr)
    refine ⟨intact_reaching (room + 1) fallback _ p, fun {c scope} h => ?_⟩
    by_cases hopen : Frame.message id attr ∈ c.stack
    · rw [run_reaching_cyclic hopen, run_reaching_cyclic (c := { c with scope := scope }) hopen]
      rfl
    · rw [run_reaching_free hopen, run_reaching_free (c := { c with scope := scope }) hopen,
        hframe.run h]

/-- Two sets of variables that give the same values to the variables of messages give the same text
and the same errors. In particular, nothing depends on the value of a variable that occurs only in
terms. -/
theorem resolve_scope (r : Resolver) (id : String) (attr : Option String) :
    (∀ args args' : Option Arguments,
      (∀ name, r.entries.MessageVariable name →
        (args.bind fun vars => vars.lookup name) = args'.bind fun vars => vars.lookup name) →
      r.resolve id attr args = r.resolve id attr args') ∧
    ∀ (name : String) (value : Value) (args : Arguments), ¬ r.entries.MessageVariable name →
      r.resolve id attr (some ((name, value) :: args)) = r.resolve id attr (some args) := by
  have hasks : Asks r.entries.MessageVariable (r.openMessage (r.opening r.maxDepth) id attr) :=
    (congruent_asks _).openMessage _ (r.opening r.maxDepth) fun p fallback hp =>
      asks_reaching r r.maxDepth fallback hp
  have hresolve (args args' : Option Arguments)
      (h : ∀ name, r.entries.MessageVariable name →
        (args.bind fun vars => vars.lookup name) = args'.bind fun vars => vars.lookup name) :
      r.resolve id attr args = r.resolve id attr args' := by
    have hrun : (r.openMessage (r.opening r.maxDepth) id attr).run (r.start args') = _ :=
      hasks.run (c := r.start args) h
    rw [resolve_eq, resolve_eq, hrun]
  refine ⟨hresolve, fun name value args hname => hresolve _ _ fun other hother => ?_⟩
  have hne : (other == name) = false := by
    simpa using fun heq : other = name => hname (heq ▸ hother)
  simp [List.lookup_cons, hne]

/-- A message that shows a variable and a term. -/
def nameAndBrand : Message :=
  ⟨"hello", some [.placeable (.variableRef "name"), .placeable (.termRef "brand" none none)], [],
    none, ⟨0, 0⟩⟩

/-- A resolver for that message and its term, which asks for a variable, too. -/
def secretive : Resolver where
  entries := (({} : EntryTable).insertMessage nameAndBrand).insertTerm
    ⟨"brand", [.placeable (.variableRef "secret")], [], none, ⟨0, 0⟩⟩
  functions := {}
  locale := "en"
  useIsolating := false
  maxDepth := 2
  maxPlaceables := 9

/-- A variable that only a term names is not seen, whether the other one is known or not. -/
theorem resolve_scope_secretive :
    secretive.resolve "hello" none (some [("secret", .bool true), ("name", .string "Eve")]) =
        secretive.resolve "hello" none (some [("name", .string "Eve")]) ∧
      secretive.resolve "hello" none (some [("secret", .bool true)]) =
        secretive.resolve "hello" none none := by
  have hname (name : String) (h : secretive.entries.MessageVariable name) : name = "name" := by
    obtain ⟨id, m, hmessage, p, hp, hnode⟩ := h
    rw [secretive, EntryTable.message?_insertTerm, EntryTable.message?_insertMessage] at hmessage
    split at hmessage
    · obtain rfl : nameAndBrand = m := Option.some.inj hmessage
      obtain rfl := List.mem_singleton.mp hp
      simpa [Outline.ofPattern, Outline.ofElements, Outline.ofElement, Outline.ofExpression,
        Outline.nodes, Outline.walk, Outline.walkAll, Outline.name, Outline.names,
        Outline.leaf] using hnode
    · cases hmessage
  refine ⟨(resolve_scope secretive "hello" none).2 "secret" _ _ fun h => ?_,
    (resolve_scope secretive "hello" none).1 _ _ fun name h => ?_⟩
  · exact absurd (hname _ h) (by decide)
  · rw [hname name h]
    rfl

end Resolver

end Phrasebook
