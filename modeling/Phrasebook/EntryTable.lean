import Phrasebook.Syntax.Tree
import Std.Data.TreeMap

/-!
# Tables of entries

The messages and terms of one locale by their ids. Messages and terms do not share names, and an
entry replaces an earlier one of its kind and id.
-/

namespace Phrasebook

/-- Messages and terms by id; the ids of terms stand without their `-`. -/
structure EntryTable where
  messages : Std.TreeMap String Message := ∅
  terms : Std.TreeMap String Term := ∅

namespace EntryTable

/-- The message with an id. -/
def message? (table : EntryTable) (id : String) : Option Message := table.messages[id]?

/-- The term with an id. -/
def term? (table : EntryTable) (id : String) : Option Term := table.terms[id]?

/-- Puts a message in the place of the one with its id. -/
def insertMessage (table : EntryTable) (m : Message) : EntryTable :=
  { table with messages := table.messages.insert m.id m }

/-- Puts a term in the place of the one with its id. -/
def insertTerm (table : EntryTable) (t : Term) : EntryTable :=
  { table with terms := table.terms.insert t.id t }

/-- Adds an entry; comments and junk leave the table as it is. -/
def insert (table : EntryTable) : Entry → EntryTable
  | .message m => table.insertMessage m
  | .term t => table.insertTerm t
  | _ => table

/-- The name of what an entry would replace, if the table holds it already. -/
def overridden? (table : EntryTable) : Entry → Option String
  | .message m => (table.message? m.id).map fun _ => m.id
  | .term t => (table.term? t.id).map fun _ => "-" ++ t.id
  | _ => none

/-- Adds entries one after the other, and names those that were replaced. -/
def insertAll (table : EntryTable) : List Entry → EntryTable × List String
  | [] => (table, [])
  | entry :: rest =>
    let (result, names) := (table.insert entry).insertAll rest
    (result, (table.overridden? entry).toList ++ names)

/-- The ids of all messages, in order. -/
def messageIds (table : EntryTable) : List String := table.messages.keys

/-- A message that is added takes the place of the one with its id, and of no other. -/
theorem message?_insertMessage (table : EntryTable) (m : Message) (id : String) :
    (table.insertMessage m).message? id = if m.id = id then some m else table.message? id := by
  simp [message?, insertMessage, Std.TreeMap.getElem?_insert]

/-- A term that is added takes the place of the one with its id, and of no other. -/
theorem term?_insertTerm (table : EntryTable) (t : Term) (id : String) :
    (table.insertTerm t).term? id = if t.id = id then some t else table.term? id := by
  simp [term?, insertTerm, Std.TreeMap.getElem?_insert]

/-- Adding a message leaves the terms alone. -/
@[simp] theorem term?_insertMessage (table : EntryTable) (m : Message) (id : String) :
    (table.insertMessage m).term? id = table.term? id := rfl

/-- Adding a term leaves the messages alone. -/
@[simp] theorem message?_insertTerm (table : EntryTable) (t : Term) (id : String) :
    (table.insertTerm t).message? id = table.message? id := rfl

end EntryTable

end Phrasebook
