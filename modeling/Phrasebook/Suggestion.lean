import Phrasebook.Text.EditDistance

/-!
# Suggestions

The names that someone may have meant by a name that does not exist: the closest ones, within one
edit of a short name and within two of any other.
-/

namespace Phrasebook.Suggestion

/-- The most edits between a name and a suggestion: one if the name has at most three bytes, else
two. -/
def limit (name : String) : Nat := if name.utf8ByteSize ≤ 3 then 1 else 2

/-- The order of suggestions: by distance, then by name. -/
def precedes (a b : Nat × String) : Bool := a.1 < b.1 || (a.1 == b.1 && a.2 ≤ b.2)

/-- The candidates that differ from a name, but by no more than the limit, with their distances. -/
def near (name : String) (candidates : List String) : List (Nat × String) :=
  (candidates.map fun c => (Text.editDistance name.toList c.toList, c)).filter fun (distance, _) =>
    0 < distance && distance ≤ limit name

/-- The three best suggestions for a name. -/
def suggest (name : String) (candidates : List String) : List String :=
  (((near name candidates).mergeSort precedes).take 3).map (·.2)

end Phrasebook.Suggestion
