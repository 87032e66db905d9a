import Phrasebook.Bundle
import Phrasebook.Proofs.Resolution.Scope
import Phrasebook.Proofs.StaticRules.Tree

/-!
# Tables of what was read

The patterns of a table and the nodes in them. Where all entries were read from sources, as they are
in a bundle, every node keeps the static rules of the grammar.
-/

namespace Phrasebook

open Outline

/-- The value and the attributes of a term. -/
def Term.patterns (t : Term) : List Pattern := t.value :: t.attributes.map fun a => a.value

/-- A part of a term is one of its patterns. -/
theorem Term.mem_patterns_of_part? {t : Term} {attr : Option String} {p : Pattern}
    (h : t.part? attr = some p) : p ∈ t.patterns := by
  cases attr with
  | none =>
    obtain rfl := Option.some.inj h
    exact List.mem_cons_self
  | some name =>
    obtain ⟨a, hfind, rfl⟩ := Option.map_eq_some_iff.mp h
    exact List.mem_cons_of_mem _ (List.mem_map_of_mem (List.mem_of_find?_eq_some hfind))

/-- The pattern, if the node is one. -/
def Node.pattern? : Node → Option Pattern
  | .pattern p => some p
  | _ => none

/-- The name and the arguments, if the node calls a function. -/
def Node.call? : Node → Option (String × CallArguments)
  | .call name passed => some (name, passed)
  | _ => none

/-- The selector and the variants, if the node selects. -/
def Node.select? : Node → Option (Expression × List Variant)
  | .select selector variants => some (selector, variants)
  | _ => none

/-- The node calls a function. -/
def Node.isCall (node : Node) : Bool := node.call?.isSome

namespace EntryTable

/-- The values and the attributes of all entries. -/
def patterns (table : EntryTable) : List Pattern :=
  (table.messages.toList.flatMap fun entry => entry.2.patterns) ++
    table.terms.toList.flatMap fun entry => entry.2.patterns

/-- The nodes of all values and attributes. -/
def nodes (table : EntryTable) : List Node :=
  table.patterns.flatMap fun p => (ofPattern p).nodes

/-- Every entry was read from some source. -/
def Parsed (table : EntryTable) : Prop :=
  (∀ id m, table.message? id = some m →
    ∃ source, .message m ∈ (Resource.parse source).entries) ∧
  ∀ id t, table.term? id = some t → ∃ source, .term t ∈ (Resource.parse source).entries

/-- No function is called. -/
def CallFree (table : EntryTable) : Prop := ∀ node ∈ table.nodes, node.isCall = false

instance (table : EntryTable) : Decidable table.CallFree :=
  inferInstanceAs (Decidable (∀ node ∈ table.nodes, node.isCall = false))

variable {table : EntryTable} {p : Pattern} {node : Node}

/-- The patterns of a table are those of its messages and terms. -/
theorem mem_patterns : p ∈ table.patterns ↔
    (∃ id m, table.message? id = some m ∧ p ∈ m.patterns) ∨
      ∃ id t, table.term? id = some t ∧ p ∈ t.patterns := by
  simp only [patterns, List.mem_append, List.mem_flatMap, Prod.exists,
    Std.TreeMap.mem_toList_iff_getElem?_eq_some, message?, term?]

/-- The nodes of a pattern of the table are nodes of the table. -/
theorem mem_nodes (hp : p ∈ table.patterns) (hnode : node ∈ (ofPattern p).nodes) :
    node ∈ table.nodes :=
  List.mem_flatMap.mpr ⟨p, hp, hnode⟩

/-! ## How tables come about -/

/-- An empty table holds nothing that was not parsed. -/
theorem parsed_empty : Parsed {} := by
  constructor
  · intro id m h
    simp [message?] at h
  · intro id t h
    simp [term?] at h

/-- A table stays parsed if an entry of a source is added. -/
theorem Parsed.insert (h : table.Parsed) {source : String} {entry : Entry}
    (hentry : entry ∈ (Resource.parse source).entries) : (table.insert entry).Parsed := by
  cases entry with
  | message m =>
    refine ⟨fun id m' hm => ?_, h.2⟩
    rw [EntryTable.insert, message?_insertMessage] at hm
    split at hm
    · obtain rfl := Option.some.inj hm
      exact ⟨source, hentry⟩
    · exact h.1 id m' hm
  | term t =>
    refine ⟨h.1, fun id t' ht => ?_⟩
    rw [EntryTable.insert, term?_insertTerm] at ht
    split at ht
    · obtain rfl := Option.some.inj ht
      exact ⟨source, hentry⟩
    · exact h.2 id t' ht
  | comment c => exact h
  | junk j => exact h

/-- A table stays parsed if entries of a source are added. -/
theorem Parsed.insertAll (h : table.Parsed) {source : String} {entries : List Entry}
    (hentries : ∀ entry ∈ entries, entry ∈ (Resource.parse source).entries) :
    (table.insertAll entries).1.Parsed := by
  induction entries generalizing table with
  | nil => exact h
  | cons entry rest ih =>
    exact ih (h.insert (hentries entry List.mem_cons_self)) fun e he =>
      hentries e (List.mem_cons_of_mem _ he)

/-- The entries of one source. -/
def ofSource (source : String) : EntryTable :=
  (({} : EntryTable).insertAll (Resource.parse source).entries).1

/-- The table of a source is parsed. -/
theorem parsed_ofSource (source : String) : (ofSource source).Parsed :=
  parsed_empty.insertAll fun _ h => h

/-- What is added to a bundle as a source was read from it. -/
theorem Parsed.load {b b' : Bundle} {origin source : String} {warnings : List LoadWarning}
    (h : b.entries.Parsed) (hload : b.load origin source = .ok (b', warnings)) :
    b'.entries.Parsed := by
  rw [Bundle.load] at hload
  split at hload
  · cases hload
  · cases hload
    exact h.insertAll fun entry hentry => hentry

/-! ## What the grammar asks of them -/

private theorem mem_nodes_ofParts {id : String} {value : Option Pattern}
    {attributes : List Attribute} {comment : Option Comment}
    (hp : p ∈ value.toList ++ attributes.map fun a => a.value)
    (hnode : node ∈ (ofPattern p).nodes) :
    node ∈ walkAll (fun _ => false) (ofParts id value attributes comment) := by
  rw [mem_walkAll]
  rcases List.mem_append.mp hp with hp | hp
  · exact ⟨ofPattern p, ofPattern_mem_ofParts (Option.mem_toList.mp hp), hnode⟩
  · obtain ⟨a, ha, rfl⟩ := List.mem_map.mp hp
    refine ⟨ofAttribute a, ofAttribute_mem_ofParts ha, ?_⟩
    rw [Outline.nodes] at hnode
    simp [ofAttribute, walk, walkAll, hnode]

/-- Every node of a table that was read is lawful. -/
theorem Parsed.lawful (h : table.Parsed) : ∀ node ∈ table.nodes, node.Lawful := by
  intro node hnode
  obtain ⟨p, hp, hnode⟩ := List.mem_flatMap.mp hnode
  rcases mem_patterns.mp hp with ⟨id, m, hm, hp⟩ | ⟨id, t, ht, hp⟩
  · obtain ⟨source, hentry⟩ := h.1 id m hm
    refine ((Resource.sound_parse source _ hentry).lawful fun _ hp => hp.sound).1 node ?_
    simp [ofEntry, Outline.nodes, walk, walkAll, mem_nodes_ofParts hp hnode]
  · obtain ⟨source, hentry⟩ := h.2 id t ht
    refine ((Resource.sound_parse source _ hentry).lawful fun _ hp => hp.sound).1 node ?_
    have hp : p ∈ (some t.value).toList ++ t.attributes.map fun a => a.value := hp
    simp [ofEntry, Outline.nodes, walk, walkAll, mem_nodes_ofParts hp hnode]

end EntryTable

namespace Resolver

variable {r : Resolver} {id : String} {attr : Option String} {p : Pattern}

/-- A resolver for the entries of one source. -/
def ofSource (source : String) : Resolver where
  entries := .ofSource source
  functions := {}
  locale := "en"
  useIsolating := false
  maxDepth := 2
  maxPlaceables := 9

/-- The entries of a source's resolver are those of its table. -/
theorem entries_ofSource (source : String) : (ofSource source).entries = .ofSource source := rfl

/-- The entries of a source's resolver are parsed. -/
theorem parsed_entries_ofSource (source : String) : (ofSource source).entries.Parsed :=
  EntryTable.parsed_ofSource source

/-- A pattern that a message reference finds is one of the table. -/
theorem mem_patterns_of_messagePattern (h : r.messagePattern id attr = .ok p) :
    p ∈ r.entries.patterns := by
  obtain ⟨m, hmessage, hpart⟩ := messagePattern_ok h
  exact EntryTable.mem_patterns.mpr (.inl ⟨id, m, hmessage, m.mem_patterns_of_part? hpart⟩)

/-- A pattern that a term reference finds is one of the table. -/
theorem mem_patterns_of_termPattern (h : r.termPattern id attr = .ok p) :
    p ∈ r.entries.patterns := by
  obtain ⟨t, hterm, hpart⟩ := termPattern_ok h
  exact EntryTable.mem_patterns.mpr (.inr ⟨id, t, hterm, t.mem_patterns_of_part? hpart⟩)

end Resolver

end Phrasebook
