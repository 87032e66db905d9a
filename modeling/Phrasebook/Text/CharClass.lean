/-!
# Classes of characters

A class of characters of which a standard lists the code points: closed ranges of them, in ascending
order and apart from each other.
-/

namespace Phrasebook.Text

/-- A class of characters, as its ranges of code points. -/
structure CharClass where
  ranges : List (Nat × Nat)

namespace CharClass

/-- The character is in one of the ranges. -/
def contains (k : CharClass) (c : Char) : Bool :=
  k.ranges.any fun (low, high) => low ≤ c.toNat && c.toNat ≤ high

/-- A class contains a character exactly if one of its ranges does. -/
theorem contains_iff {k : CharClass} {c : Char} :
    k.contains c = true ↔ ∃ r ∈ k.ranges, r.1 ≤ c.toNat ∧ c.toNat ≤ r.2 := by
  simp [contains]

/-- The number of code points in the ranges. -/
def size (k : CharClass) : Nat :=
  k.ranges.foldl (fun total (low, high) => total + (high + 1 - low)) 0

/-- Each range ends before the next one begins, with code points of neither between them. -/
def isAscending (k : CharClass) : Bool :=
  (k.ranges.zip k.ranges.tail).all fun (r, s) => r.1 ≤ r.2 && r.2 + 1 < s.1

end CharClass

end Phrasebook.Text
