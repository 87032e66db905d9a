import Mathlib.Order.Bounds.Basic
import Mathlib.Order.MinMax
import Phrasebook.Text.EditDistance

/-!
# The fewest edits

The edit distance of two texts is the least number of edits that make one text from the other, where
an edit puts in, takes out or replaces one character at any place. The rows in which it is computed
hold the distances to every ending of the other text.
-/

namespace Phrasebook.Text

variable {s t u : List Char} {a b : Char} {n : Nat}

/-- One character is put in, taken out or replaced. -/
inductive Edit : List Char → List Char → Prop
  | insert (front back : List Char) (c : Char) : Edit (front ++ back) (front ++ c :: back)
  | remove (front back : List Char) (c : Char) : Edit (front ++ c :: back) (front ++ back)
  | replace (front back : List Char) (c d : Char) : Edit (front ++ c :: back) (front ++ d :: back)

/-- A number of edits makes the second text from the first. -/
inductive EditsTo : Nat → List Char → List Char → Prop
  | refl (s : List Char) : EditsTo 0 s s
  | edit {n : Nat} {s t u : List Char} (first : Edit s t) (others : EditsTo n t u) :
    EditsTo (n + 1) s u

/-! ## The distance, character by character -/

/-- A row begins with the distance to the whole text, and goes on with the row of its tail. -/
theorem distanceRow_cons (b : Char) (t s : List Char) :
    distanceRow (b :: t) s = editDistance s (b :: t) :: distanceRow t s := by
  induction s with
  | nil => rfl
  | cons a s ih =>
    rw [editDistance, distanceRow, ih]
    rfl

/-- From nothing, every character is inserted. -/
@[simp] theorem editDistance_nil_left (t : List Char) : editDistance [] t = t.length := by
  induction t with
  | nil => rfl
  | cons b t ih =>
    rw [List.length_cons, ← ih]
    rfl

/-- To nothing, every character is deleted. -/
@[simp] theorem editDistance_nil_right (s : List Char) : editDistance s [] = s.length := by
  have hrow : distanceRow [] s = [s.length] := by
    induction s with
    | nil => rfl
    | cons a s ih =>
      rw [distanceRow, ih]
      rfl
  rw [editDistance, hrow]
  rfl

/-- The recursion by the first characters: keep or replace, delete, or insert. -/
theorem editDistance_cons_cons (a b : Char) (s t : List Char) :
    editDistance (a :: s) (b :: t) =
      min (editDistance s t + if a = b then 0 else 1)
        (min (editDistance s (b :: t) + 1) (editDistance (a :: s) t + 1)) := by
  rw [editDistance, distanceRow, distanceRow_cons]
  rfl

/-! ## Enough edits -/

/-- One edit is still one behind a character that both texts begin with. -/
theorem Edit.cons (c : Char) (h : Edit s t) : Edit (c :: s) (c :: t) := by
  cases h with
  | insert front back d => exact .insert (c :: front) back d
  | remove front back d => exact .remove (c :: front) back d
  | replace front back d e => exact .replace (c :: front) back d e

/-- Edits can be made behind a character that both texts begin with. -/
theorem EditsTo.cons (c : Char) (h : EditsTo n s t) : EditsTo n (c :: s) (c :: t) := by
  induction h with
  | refl s => exact .refl (c :: s)
  | edit first _ ih => exact .edit (first.cons c) ih

/-- A text is written from nothing in as many edits as it has characters. -/
theorem editsTo_of_nil (t : List Char) : EditsTo t.length [] t := by
  induction t with
  | nil => exact .refl []
  | cons b t ih => exact .edit (.insert [] [] b) (ih.cons b)

/-- A text is erased in as many edits as it has characters. -/
theorem editsTo_nil (s : List Char) : EditsTo s.length s [] := by
  induction s with
  | nil => exact .refl []
  | cons a s ih => exact .edit (.remove [] s a) ih

/-- As many edits as the distance are enough. -/
theorem editsTo_editDistance (s t : List Char) : EditsTo (editDistance s t) s t := by
  induction s generalizing t with
  | nil => simpa using editsTo_of_nil t
  | cons a s ih =>
    induction t with
    | nil => simpa using editsTo_nil (a :: s)
    | cons b t iht =>
      rw [editDistance_cons_cons]
      -- The distance is one of the three that it is the minimum of, and each of these is an edit.
      rcases min_choice (editDistance s t + if a = b then 0 else 1)
        (min (editDistance s (b :: t) + 1) (editDistance (a :: s) t + 1)) with h | h
      · rw [h]
        split_ifs with hab
        · exact hab ▸ (ih t).cons a
        · exact .edit (.replace [] s a b) ((ih t).cons b)
      · rw [h]
        rcases min_choice (editDistance s (b :: t) + 1) (editDistance (a :: s) t + 1) with h | h
        · rw [h]
          exact .edit (.remove [] s a) (ih (b :: t))
        · rw [h]
          exact .edit (.insert [] (a :: s) b) (iht.cons b)

/-! ## No fewer edits -/

/-- No edit is needed from a text to itself. -/
@[simp] theorem editDistance_self (s : List Char) : editDistance s s = 0 := by
  induction s with
  | nil => rfl
  | cons a s ih => simp [editDistance_cons_cons, ih]

/-- One more character in front of the first text costs at most one edit. -/
theorem editDistance_cons_left_le (a : Char) (s t : List Char) :
    editDistance (a :: s) t ≤ editDistance s t + 1 := by
  cases t with
  | nil => simp
  | cons b t =>
    rw [editDistance_cons_cons]
    omega

/-- One more character in front of the second text costs at most one edit. -/
theorem editDistance_cons_right_le (b : Char) (s t : List Char) :
    editDistance s (b :: t) ≤ editDistance s t + 1 := by
  cases s with
  | nil => simp
  | cons a s =>
    rw [editDistance_cons_cons]
    omega

/-- One character less in front of the first text costs at most one edit. -/
theorem editDistance_le_cons_left (a : Char) (s t : List Char) :
    editDistance s t ≤ editDistance (a :: s) t + 1 := by
  induction t with
  | nil =>
    simp only [editDistance_nil_right, List.length_cons]
    omega
  | cons b t ih =>
    have hlonger := editDistance_cons_right_le b s t
    rw [editDistance_cons_cons]
    omega

/-- Another first character costs at most one edit. -/
theorem editDistance_replace_le (a b : Char) (s t : List Char) :
    editDistance (a :: s) t ≤ editDistance (b :: s) t + 1 := by
  induction t with
  | nil => simp
  | cons c t ih =>
    rw [editDistance_cons_cons, editDistance_cons_cons]
    split_ifs <;> omega

/-- What one edit does to the distance, it does behind a common front too. -/
theorem editDistance_append_le (front : List Char)
    (h : ∀ u, editDistance s u ≤ editDistance t u + 1) (u : List Char) :
    editDistance (front ++ s) u ≤ editDistance (front ++ t) u + 1 := by
  induction front generalizing u with
  | nil => exact h u
  | cons c front ih =>
    -- The third text may be edited at its front as well, so it is taken apart along with the common
    -- front.
    induction u with
    | nil =>
      have hlength := ih []
      simp only [editDistance_nil_right, List.cons_append, List.length_cons] at hlength ⊢
      omega
    | cons d u ihu =>
      have hboth := ih u
      have hfront := ih (d :: u)
      simp only [List.cons_append] at ihu ⊢
      rw [editDistance_cons_cons, editDistance_cons_cons]
      omega

/-- One edit changes the distance to a third text by at most one. -/
theorem Edit.editDistance_le (h : Edit s t) (u : List Char) :
    editDistance s u ≤ editDistance t u + 1 := by
  -- Behind a common front, an edit is one of the first character.
  cases h with
  | insert front back c =>
    exact editDistance_append_le front (editDistance_le_cons_left c back) u
  | remove front back c =>
    exact editDistance_append_le front (editDistance_cons_left_le c back) u
  | replace front back c d =>
    exact editDistance_append_le front (editDistance_replace_le c d back) u

/-- No way of editing is shorter than the distance. -/
theorem EditsTo.editDistance_le (h : EditsTo n s t) : editDistance s t ≤ n := by
  induction h with
  | refl s => rw [editDistance_self]
  | edit first _ ih => exact (first.editDistance_le _).trans (Nat.succ_le_succ ih)

/-- The distance is the least number of edits. -/
theorem isLeast_editDistance (s t : List Char) :
    IsLeast {n | EditsTo n s t} (editDistance s t) :=
  ⟨editsTo_editDistance s t, fun _ h => h.editDistance_le⟩

/-- Only equal texts have no distance. -/
theorem editDistance_eq_zero : editDistance s t = 0 ↔ s = t := by
  constructor
  · intro h
    have hedits := editsTo_editDistance s t
    rw [h] at hedits
    cases hedits
    rfl
  · rintro rfl
    exact editDistance_self s

end Phrasebook.Text
