/-!
# Edit distance

How many characters have to be inserted, removed or replaced to make one text from another. The
distances of one text to every ending of the other form a row; each character put before the first
text makes a new row from the last one.
-/

namespace Phrasebook.Text

/-- The row of `a :: s`, given the endings of `t` and the row of `s`. -/
def nextRow (a : Char) : (t : List Char) → (row : List Nat) → List Nat
  | b :: t, kept :: row =>
    let next := nextRow a t row
    let replaced := row.headD 0 + if a = b then 0 else 1
    min replaced (min (kept + 1) (next.headD 0 + 1)) :: next
  | _, row => row.map (· + 1)

/-- The distances of a text to the endings of `t`, the longest ending first. -/
def distanceRow (t : List Char) : List Char → List Nat
  | [] => t.foldr (fun _ row => (row.headD 0 + 1) :: row) [0]
  | a :: s => nextRow a t (distanceRow t s)

/-- The edit distance of two texts. -/
def editDistance (s t : List Char) : Nat := (distanceRow t s).headD 0

end Phrasebook.Text
