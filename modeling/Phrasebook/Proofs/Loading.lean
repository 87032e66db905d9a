import Mathlib.Data.List.Basic
import Phrasebook.Bundle

/-!
# Loading histories

Sources and resources that are added to a bundle one after the other. The table of the bundle is a
function of the entries that were accepted: the last one with a name counts, and every one whose
name was taken already is warned about.
-/

namespace Phrasebook

/-! ## Names -/

/-- What an entry is known by. Messages and terms may share an id. -/
inductive EntryName where
  | message (id : String)
  | term (id : String)
  deriving DecidableEq

/-- The name in warnings. -/
def EntryName.text : EntryName → String
  | message id => id
  | term id => "-" ++ id

namespace Entry

/-- The name of a message or term. -/
def name? : Entry → Option EntryName
  | .message m => some (.message m.id)
  | .term t => some (.term t.id)
  | _ => none

/-- The entry is a message or a term. -/
def isUnit (e : Entry) : Bool := e.name?.isSome

/-- The message, if the entry is one. -/
def message? : Entry → Option Message
  | .message m => some m
  | _ => none

/-- The term, if the entry is one. -/
def term? : Entry → Option Term
  | .term t => some t
  | _ => none

/-- The names of the messages and terms among the entries, in order. -/
def names (entries : List Entry) : List EntryName := entries.filterMap name?

/-- The last message with an id. -/
def lastMessage? (entries : List Entry) (id : String) : Option Message :=
  (entries.filterMap message?).reverse.find? fun m => m.id = id

/-- The last term with an id. -/
def lastTerm? (entries : List Entry) (id : String) : Option Term :=
  (entries.filterMap term?).reverse.find? fun t => t.id = id

variable {entries : List Entry} {id : String}

/-- The names of two lists of entries stand one after the other. -/
@[simp] theorem names_append (entries entries' : List Entry) :
    names (entries ++ entries') = names entries ++ names entries' :=
  List.filterMap_append

/-- Only messages and terms have names. -/
theorem names_units (entries : List Entry) :
    names (entries.filter isUnit) = names entries := by
  rw [names, List.filterMap_filter]
  refine List.filterMap_congr fun e _ => ?_
  cases h : e.name? <;> simp [isUnit, h]

private theorem find?_reverse_concat {α : Type} (pick : Entry → Option α) (p : α → Bool)
    (entries : List Entry) (e : Entry) :
    ((entries ++ [e]).filterMap pick).reverse.find? p =
      ((pick e).filter p).or ((entries.filterMap pick).reverse.find? p) := by
  cases h : pick e with
  | none => simp [h]
  | some a => cases hp : p a <;> simp [h, hp, Option.filter]

/-- A message that is added last is the last one with its id. -/
theorem lastMessage?_concat (entries : List Entry) (e : Entry) (id : String) :
    lastMessage? (entries ++ [e]) id =
      (e.message?.filter fun m => m.id = id).or (lastMessage? entries id) :=
  find?_reverse_concat message? _ entries e

/-- A term that is added last is the last one with its id. -/
theorem lastTerm?_concat (entries : List Entry) (e : Entry) (id : String) :
    lastTerm? (entries ++ [e]) id =
      (e.term?.filter fun t => t.id = id).or (lastTerm? entries id) :=
  find?_reverse_concat term? _ entries e

/-- There is a last message with an id where the id is among the names. -/
theorem isSome_lastMessage? :
    (lastMessage? entries id).isSome ↔ .message id ∈ names entries := by
  simp only [lastMessage?, List.find?_isSome, List.mem_reverse, List.mem_filterMap, names]
  constructor
  · rintro ⟨m, ⟨e, he, hm⟩, hid⟩
    refine ⟨e, he, ?_⟩
    cases e <;> simp_all [message?, name?]
  · rintro ⟨e, he, hname⟩
    cases e <;> simp_all [name?]
    exact ⟨_, ⟨_, he, rfl⟩, hname⟩

/-- There is a last term with an id where the id is among the names. -/
theorem isSome_lastTerm? :
    (lastTerm? entries id).isSome ↔ .term id ∈ names entries := by
  simp only [lastTerm?, List.find?_isSome, List.mem_reverse, List.mem_filterMap, names]
  constructor
  · rintro ⟨t, ⟨e, he, ht⟩, hid⟩
    refine ⟨e, he, ?_⟩
    cases e <;> simp_all [term?, name?]
  · rintro ⟨e, he, hname⟩
    cases e <;> simp_all [name?]
    exact ⟨_, ⟨_, he, rfl⟩, hname⟩

end Entry

/-- The members that were seen before, in order and as often as they are seen again. -/
def repeated {α : Type} [DecidableEq α] (seen : List α) : List α → List α
  | [] => []
  | a :: rest => (if a ∈ seen then [a] else []) ++ repeated (seen ++ [a]) rest

/-- What is seen again in two lists is so in the first, and then in the second after the first. -/
theorem repeated_append {α : Type} [DecidableEq α] (seen as bs : List α) :
    repeated seen (as ++ bs) = repeated seen as ++ repeated (seen ++ as) bs := by
  induction as generalizing seen with
  | nil => simp [repeated]
  | cons a as ih => simp [repeated, ih]

/-! ## The table -/

namespace EntryTable

/-- The table holds the last of some entries with each name, and nothing else. -/
structure Holds (table : EntryTable) (entries : List Entry) : Prop where
  message : ∀ id, table.message? id = Entry.lastMessage? entries id
  term : ∀ id, table.term? id = Entry.lastTerm? entries id

variable {table : EntryTable} {earlier : List Entry}

/-- An empty table holds no entries. -/
theorem holds_empty : Holds {} [] where
  message id := by simp [message?, Entry.lastMessage?]
  term id := by simp [term?, Entry.lastTerm?]

/-- A table holds one more entry after it is added. -/
theorem Holds.insert (h : table.Holds earlier) (e : Entry) :
    (table.insert e).Holds (earlier ++ [e]) where
  message id := by
    rw [Entry.lastMessage?_concat]
    cases e with
    | message m =>
      rw [EntryTable.insert, message?_insertMessage, ← h.message]
      by_cases hid : m.id = id <;> simp [Entry.message?, Option.filter, hid]
    | _ => simp [EntryTable.insert, Entry.message?, h.message]
  term id := by
    rw [Entry.lastTerm?_concat]
    cases e with
    | term t =>
      rw [EntryTable.insert, term?_insertTerm, ← h.term]
      by_cases hid : t.id = id <;> simp [Entry.term?, Option.filter, hid]
    | _ => simp [EntryTable.insert, Entry.term?, h.term]

/-- What an entry replaces is what has its name. -/
theorem Holds.overridden?_eq (h : table.Holds earlier) (e : Entry) :
    table.overridden? e =
      (e.name?.filter fun name => name ∈ Entry.names earlier).map EntryName.text := by
  cases e with
  | message m =>
    have hname : (Entry.lastMessage? earlier m.id).isSome ↔ _ := Entry.isSome_lastMessage?
    rw [← h.message] at hname
    cases hfound : table.message? m.id <;>
      simp_all [overridden?, Entry.name?, EntryName.text, Option.filter]
  | term t =>
    have hname : (Entry.lastTerm? earlier t.id).isSome ↔ _ := Entry.isSome_lastTerm?
    rw [← h.term] at hname
    cases hfound : table.term? t.id <;>
      simp_all [overridden?, Entry.name?, EntryName.text, Option.filter]
  | _ => rfl

/-- A table holds a list of entries after they are added, and names those whose names were taken. -/
theorem Holds.insertAll (h : table.Holds earlier) (entries : List Entry) :
    (table.insertAll entries).1.Holds (earlier ++ entries) ∧
      (table.insertAll entries).2 =
        (repeated (Entry.names earlier) (Entry.names entries)).map EntryName.text := by
  induction entries generalizing table earlier with
  | nil => exact ⟨by simpa [EntryTable.insertAll] using h, rfl⟩
  | cons e rest ih =>
    obtain ⟨hholds, hnames⟩ := ih (h.insert e)
    refine ⟨by simpa [EntryTable.insertAll] using hholds, ?_⟩
    have hrest : Entry.names (e :: rest) = e.name?.toList ++ Entry.names rest := by
      cases hname : e.name? <;> simp [Entry.names, hname]
    have hadded : Entry.names (earlier ++ [e]) = Entry.names earlier ++ e.name?.toList := by
      cases hname : e.name? <;> simp [Entry.names, hname]
    rw [EntryTable.insertAll]
    dsimp only
    -- The name of the first entry is told if an earlier entry had it; then it is seen too.
    rw [hnames, h.overridden?_eq, hadded, hrest, repeated_append, List.map_append]
    congr 1
    cases e.name? with
    | none => rfl
    | some name =>
      by_cases hseen : name ∈ Entry.names earlier <;> simp [repeated, Option.filter, hseen]

/-- Comments and junk add nothing to a table. -/
theorem insertAll_units (table : EntryTable) (entries : List Entry) :
    table.insertAll (entries.filter Entry.isUnit) = table.insertAll entries := by
  induction entries generalizing table with
  | nil => rfl
  | cons e rest ih =>
    cases e with
    | message m =>
      rw [List.filter_cons_of_pos rfl, insertAll, insertAll, ih]
    | term t =>
      rw [List.filter_cons_of_pos rfl, insertAll, insertAll, ih]
    | comment c =>
      rw [List.filter_cons_of_neg Bool.false_ne_true, ih]
      rfl
    | junk j =>
      rw [List.filter_cons_of_neg Bool.false_ne_true, ih]
      rfl

/-- The ids that are listed are those under which a message is found. -/
theorem mem_messageIds {id : String} : id ∈ table.messageIds ↔ (table.message? id).isSome := by
  rw [messageIds, Std.TreeMap.mem_keys, Std.TreeMap.mem_iff_isSome_getElem?, message?]

/-- The ids of messages stand in order, each of them once. -/
theorem pairwise_messageIds (table : EntryTable) : table.messageIds.Pairwise (· < ·) :=
  (Std.TreeMap.ordered_keys (t := table.messages)).imp fun hlt =>
    compareOfLessAndEq_eq_lt.mp hlt

end EntryTable

/-! ## Calls -/

/-- The warning is about an entry that took the place of another. -/
def LoadWarning.isOverridden : LoadWarning → Bool
  | overridden .. => true
  | _ => false

/-- A call that adds entries to a bundle. -/
inductive LoadCall where
  | source (text : String)
  | resource (r : Resource)

namespace LoadCall

/-- Makes a call. Where it fails, the bundle stays as it is. -/
def perform (b : Bundle) : LoadCall → Bundle × Except LoadError (List LoadWarning)
  | source text =>
    match b.addSource text with
    | .ok (b, warnings) => (b, .ok warnings)
    | .error e => (b, .error e)
  | resource r => ((b.addResource r).1, .ok (b.addResource r).2)

/-- Makes calls one after the other, and tells what came of each. -/
def performAll (b : Bundle) : List LoadCall → Bundle × List (Except LoadError (List LoadWarning))
  | [] => (b, [])
  | call :: rest =>
    let (next, outcome) := call.perform b
    let (last, outcomes) := performAll next rest
    (last, outcome :: outcomes)

/-- The messages and terms that a call is to add. -/
def units : LoadCall → List Entry
  | source text => (Resource.parse text).entries.filter Entry.isUnit
  | resource r => r.entries.filter Entry.isUnit

/-- The messages and terms of the calls that did not fail, in order. -/
def accepted : List LoadCall → List (Except LoadError (List LoadWarning)) → List Entry
  | call :: calls, .ok _ :: outcomes => call.units ++ accepted calls outcomes
  | _ :: calls, .error _ :: outcomes => accepted calls outcomes
  | _, _ => []

/-- The warnings of the calls that did not fail, in order. -/
def warnings (outcomes : List (Except LoadError (List LoadWarning))) : List LoadWarning :=
  outcomes.flatMap fun
    | .ok warnings => warnings
    | .error _ => []

/-- The warnings about entries whose names were taken. -/
def overriddenWarnings (origin : String) (earlier entries : List Entry) : List LoadWarning :=
  (repeated (Entry.names earlier) (Entry.names entries)).map fun name =>
    .overridden origin name.text

/-- One warning for each junk of a source, with the line and column at which its diagnostic begins
and with what the diagnostic is about. -/
def junkWarnings (origin source : String) : List LoadWarning :=
  (Resource.parse source).junk.map fun j =>
    let position := Text.lineColumn source.toList j.diagnostic.span.start
    .junk origin position.1 position.2 j.diagnostic.problem

/-- There is junk in the source, and no message or term. -/
def OnlyJunk (source : String) : Prop :=
  (Resource.parse source).junk ≠ [] ∧ (Resource.parse source).messages = [] ∧
    (Resource.parse source).terms = []

instance (source : String) : Decidable (OnlyJunk source) := by
  unfold OnlyJunk
  infer_instance

/-- The warnings about names that were taken are of the kind that says so. -/
theorem filter_overriddenWarnings (origin : String) (earlier entries : List Entry) :
    (overriddenWarnings origin earlier entries).filter LoadWarning.isOverridden =
      overriddenWarnings origin earlier entries := by
  refine List.filter_eq_self.mpr fun w hw => ?_
  obtain ⟨name, -, rfl⟩ := List.mem_map.mp hw
  rfl

/-- The warnings about junk are not about names that were taken. -/
theorem filter_junkWarnings (origin source : String) :
    (junkWarnings origin source).filter LoadWarning.isOverridden = [] := by
  refine List.filter_eq_nil_iff.mpr fun w hw => ?_
  obtain ⟨j, -, rfl⟩ := List.mem_map.mp hw
  exact Bool.false_ne_true

variable {b : Bundle} {earlier : List Entry} {text : String}

/-- Adding entries changes the table only, and warns about the names that were taken. -/
theorem addEntries_eq (h : b.entries.Holds earlier) (entries : List Entry) :
    b.addEntries b.origin entries =
      ({ b with entries := (b.entries.insertAll entries).1 },
        overriddenWarnings b.origin earlier (entries.filter Entry.isUnit)) := by
  have hnames : (b.entries.insertAll entries).2.map (LoadWarning.overridden b.origin) =
      overriddenWarnings b.origin earlier (entries.filter Entry.isUnit) := by
    rw [(h.insertAll entries).2, overriddenWarnings, Entry.names_units, List.map_map]
    rfl
  rw [Bundle.addEntries, ← hnames]

/-- The test that makes loading fail says that there is only junk. -/
theorem onlyJunk_iff : OnlyJunk text ↔
    ((Resource.parse text).messages.isEmpty && (Resource.parse text).terms.isEmpty &&
      !(Resource.parse text).junk.isEmpty) = true := by
  rw [OnlyJunk]
  simp only [Bool.and_eq_true, Bool.not_eq_true', List.isEmpty_iff, List.isEmpty_eq_false_iff]
  tauto

/-- A source with only junk is refused, and the bundle stays as it is. -/
theorem perform_source_of_onlyJunk (b : Bundle) (hjunk : OnlyJunk text) :
    (LoadCall.source text).perform b = (b, .error (.noEntries b.origin
      ((Resource.parse text).junk.map fun j => j.diagnostic))) := by
  rw [perform, Bundle.addSource, Bundle.load, if_pos (onlyJunk_iff.mp hjunk)]

/-- Any other source is added, with warnings about its junk and then about its names. -/
theorem perform_source (h : b.entries.Holds earlier) (hjunk : ¬ OnlyJunk text) :
    (LoadCall.source text).perform b =
      ({ b with entries := (b.entries.insertAll (Resource.parse text).entries).1 },
        .ok (junkWarnings b.origin text ++
          overriddenWarnings b.origin earlier (LoadCall.source text).units)) := by
  rw [perform, Bundle.addSource, Bundle.load, if_neg (onlyJunk_iff.not.mp hjunk),
    addEntries_eq h]
  rfl

/-- A resource is always added, with warnings about its names. -/
theorem perform_resource (h : b.entries.Holds earlier) (r : Resource) :
    (LoadCall.resource r).perform b =
      ({ b with entries := (b.entries.insertAll r.entries).1 },
        .ok (overriddenWarnings b.origin earlier (LoadCall.resource r).units)) := by
  rw [perform, Bundle.addResource, addEntries_eq h]
  rfl

/-- What a table holds does not depend on comments and junk. -/
theorem holds_insertAll_units (h : b.entries.Holds earlier) (entries : List Entry) :
    ((b.entries.insertAll entries).1).Holds (earlier ++ entries.filter Entry.isUnit) := by
  rw [← EntryTable.insertAll_units]
  exact (h.insertAll _).1

/-- What a call accepts is held after it, and the warnings about names that were taken are about
what it accepts. -/
theorem perform_step (h : b.entries.Holds earlier) (call : LoadCall) :
    (call.perform b).1.entries.Holds (earlier ++ accepted [call] [(call.perform b).2]) ∧
      (call.perform b).1.origin = b.origin ∧
      (warnings [(call.perform b).2]).filter LoadWarning.isOverridden =
        overriddenWarnings b.origin earlier (accepted [call] [(call.perform b).2]) := by
  cases call with
  | source text =>
    by_cases hjunk : OnlyJunk text
    · rw [perform_source_of_onlyJunk b hjunk]
      exact ⟨by simpa [accepted] using h, rfl, rfl⟩
    · rw [perform_source h hjunk]
      refine ⟨by simpa [accepted, units] using holds_insertAll_units h _, rfl, ?_⟩
      simp only [warnings, accepted, List.flatMap_cons, List.flatMap_nil, List.append_nil,
        List.filter_append, filter_junkWarnings, filter_overriddenWarnings, List.nil_append]
  | resource r =>
    rw [perform_resource h]
    refine ⟨by simpa [accepted, units] using holds_insertAll_units h _, rfl, ?_⟩
    simp only [warnings, accepted, List.flatMap_cons, List.flatMap_nil, List.append_nil,
      filter_overriddenWarnings]

/-- What calls accept is what the first accepts and then what the others accept. -/
theorem accepted_cons (call : LoadCall) (outcome : Except LoadError (List LoadWarning))
    (calls : List LoadCall) (outcomes : List (Except LoadError (List LoadWarning))) :
    accepted (call :: calls) (outcome :: outcomes) =
      accepted [call] [outcome] ++ accepted calls outcomes := by
  cases outcome <;> simp [accepted]

/-- What a run of calls accepts is held after it, and the warnings about names that were taken are
about what it accepts. -/
theorem performAll_run (h : b.entries.Holds earlier) (calls : List LoadCall) :
    (performAll b calls).1.entries.Holds (earlier ++ accepted calls (performAll b calls).2) ∧
      (performAll b calls).1.origin = b.origin ∧
      (warnings (performAll b calls).2).filter LoadWarning.isOverridden =
        overriddenWarnings b.origin earlier (accepted calls (performAll b calls).2) := by
  induction calls generalizing b earlier with
  | nil => exact ⟨by simpa [performAll, accepted] using h, rfl, rfl⟩
  | cons call rest ih =>
    obtain ⟨hstep, hstepOrigin, hstepWarnings⟩ := perform_step h call
    -- What the first call accepts is earlier for all the others, whose warnings may be about it.
    obtain ⟨hrun, horigin, hwarnings⟩ := ih hstep
    rw [performAll]
    dsimp only
    rw [accepted_cons]
    refine ⟨by simpa using hrun, horigin.trans hstepOrigin, ?_⟩
    have hsplit : warnings ((call.perform b).2 :: (performAll (call.perform b).1 rest).2) =
        warnings [(call.perform b).2] ++ warnings (performAll (call.perform b).1 rest).2 := by
      simp [warnings]
    rw [hsplit, List.filter_append, hstepWarnings, hwarnings, hstepOrigin]
    simp only [overriddenWarnings, Entry.names_append, repeated_append, List.map_append]

end LoadCall

end Phrasebook
