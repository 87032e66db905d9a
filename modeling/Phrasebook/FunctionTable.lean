import Phrasebook.Function
import Phrasebook.Text.Quoted
import Std.Data.TreeMap

/-!
# Tables of functions

The functions that the messages of one locale may call: those that were added, and behind them the
ones that are built in.
-/

namespace Phrasebook

/-- The functions that were added, by name; they take the place of built-in ones. -/
structure FunctionTable where
  added : Std.TreeMap String Function := ∅

namespace FunctionTable

/-- The built-in function with a name. -/
def builtin? (name : String) : Option Function :=
  if name = "NUMBER" then some NumberFunction.run else none

/-- The function with a name. -/
def find? (table : FunctionTable) (name : String) : Option Function :=
  table.added[name]? <|> builtin? name

/-- Adds a function, in the place of an added one of the same name. -/
def insert (table : FunctionTable) (name : String) (function : Function) : FunctionTable :=
  ⟨table.added.insert name function⟩

/-- The names of the added functions, in order. -/
def names (table : FunctionTable) : List String := table.added.keys

/-- What a table shows of itself: the names of the added functions. -/
def description (table : FunctionTable) : String :=
  "FunctionRegistry \x7b overrides: [" ++ ", ".intercalate (table.names.map Text.quote) ++ "] \x7d"

/-- A function that is added takes the place of the one with its name, and of no other. -/
theorem find?_insert (table : FunctionTable) (name : String) (function : Function) (id : String) :
    (table.insert name function).find? id =
      if name = id then some function else table.find? id := by
  simp only [find?, insert, Std.TreeMap.getElem?_insert, Std.LawfulEqCmp.compare_eq_iff_eq]
  split <;> rfl

end FunctionTable

end Phrasebook
