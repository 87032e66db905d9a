import Phrasebook.Syntax.Resource

/-!
# Running readers

A reader is run on a text by equations: one for each primitive, one for sequencing, and one for the
loop. A loop whose steps consume something never meets the bound on its number of steps, so that it
unfolds like a recursion on what is left of the text.
-/

namespace Phrasebook.Reader

variable {α β σ : Type}

/-- A value that is returned reads nothing. -/
@[simp] theorem pure_apply (a : α) (text : List Char) :
    (pure a : Reader α) text = .ok (a, text) := rfl

/-- A failure stands where it was met. -/
@[simp] theorem fail_apply (problem : Problem) (text : List Char) :
    (fail problem : Reader α) text = .error ⟨problem, text⟩ := rfl

/-- The next character is looked at and not read. -/
@[simp] theorem peek_apply (text : List Char) : peek text = .ok (text.head?, text) := rfl

/-- One character is skipped, if there is one. -/
@[simp] theorem advance_apply (text : List Char) : advance text = .ok ((), text.tail) := rfl

/-- The text ahead is looked at and not read. -/
@[simp] theorem get_apply (text : List Char) : (get : Reader (List Char)) text = .ok (text, text) :=
  rfl

/-- Reading goes on with another text. -/
@[simp] theorem set_apply (line text : List Char) :
    (set line : Reader Unit) text = .ok ((), line) := rfl

/-- Characters are read as long as they satisfy the condition. -/
@[simp] theorem takeWhile_apply (p : Char → Bool) (text : List Char) :
    takeWhile p text = .ok (text.takeWhile p, text.dropWhile p) := rfl

/-- Spaces and line ends are skipped. -/
@[simp] theorem skipBlanks_apply (text : List Char) :
    skipBlanks text = .ok ((), text.dropWhile Text.isBlank) := rfl

/-- Blank lines are skipped as a whole. -/
@[simp] theorem skipBlankLines_apply (text : List Char) :
    skipBlankLines text = .ok ((), Text.dropBlankLines text) := rfl

/-- A sequence runs its first reader, and its second on what the first one leaves. -/
theorem bind_apply (r : Reader α) (f : α → Reader β) (text : List Char) :
    (r >>= f) text =
      match r text with
      | .ok (a, rest) => f a rest
      | .error failure => .error failure := by
  change Except.bind (r text) _ = _
  cases r text <;> rfl

/-- What follows a reader that succeeds goes on with its result. -/
theorem bind_ok {r : Reader α} {f : α → Reader β} {text rest : List Char} {a : α}
    (h : r text = .ok (a, rest)) : (r >>= f) text = f a rest := by
  rw [bind_apply, h]

/-- A failure is that of all that begins with it. -/
theorem bind_error {r : Reader α} {f : α → Reader β} {text : List Char} {failure : Failure}
    (h : r text = .error failure) : (r >>= f) text = .error failure := by
  rw [bind_apply, h]

/-- A sequence that succeeds is two runs that do. -/
theorem bind_eq_ok {r : Reader α} {f : α → Reader β} {text rest : List Char} {b : β}
    (h : (r >>= f) text = .ok (b, rest)) :
    ∃ a mid, r text = .ok (a, mid) ∧ f a mid = .ok (b, rest) := by
  rw [bind_apply] at h
  rcases hr : r text with failure | ⟨a, mid⟩
  · rw [hr] at h
    cases h
  · rw [hr] at h
    exact ⟨a, mid, rfl, h⟩

/-- A result that is changed leaves the same text. -/
theorem map_apply (r : Reader α) (f : α → β) (text : List Char) :
    (f <$> r) text =
      match r text with
      | .ok (a, rest) => .ok (f a, rest)
      | .error failure => .error failure := by
  change Except.bind (r text) _ = _
  cases r text <;> rfl

/-- Spaces are skipped and counted. -/
@[simp] theorem skipSpaces_apply (text : List Char) :
    skipSpaces text = .ok ((text.takeWhile (· == ' ')).length, text.dropWhile (· == ' ')) := rfl

/-- At the end of the text no character is accepted. -/
@[simp] theorem accept_nil (c : Char) : accept c [] = .ok (false, []) := rfl

/-- A character is read if it is the one to accept. -/
@[simp] theorem accept_cons (c d : Char) (rest : List Char) :
    accept c (d :: rest) = .ok (if d = c then (true, rest) else (false, d :: rest)) := rfl

/-- A character is read if it is the one to expect, and anything else is a failure. -/
theorem expect_apply (c : Char) (text : List Char) :
    expect c text =
      match text with
      | [] => .error ⟨.expectedToken c, []⟩
      | d :: rest =>
        if d = c then .ok ((), rest) else .error ⟨.expectedToken c, d :: rest⟩ := by
  cases text with
  | nil => rfl
  | cons d rest => by_cases h : d = c <;> simp [expect, bind_apply, h]

/-- Each step that goes on has consumed a character. -/
def Advances (step : σ → Reader (Step σ β)) : Prop :=
  ∀ state text next rest, step state text = .ok (.again next, rest) → rest.length < text.length

private theorem iterate_eq_of_lt {step : σ → Reader (Step σ β)} (h : Advances step) :
    ∀ (m n : Nat) (state : σ) (text : List Char), text.length < m → text.length < n →
      iterate step m state text = iterate step n state text := by
  intro m
  induction m with
  | zero => intro n state text hm; omega
  | succ m ih =>
    intro n state text hm hn
    obtain ⟨n, rfl⟩ : ∃ k, n = k + 1 := ⟨n - 1, by omega⟩
    simp only [iterate, bind_apply]
    cases hs : step state text with
    | error failure => rfl
    | ok result =>
      obtain ⟨outcome, rest⟩ := result
      cases outcome with
      | done b => rfl
      | again next =>
        have hlt := h _ _ _ _ hs
        exact ih n next rest (by omega) (by omega)

/-- A loop takes one step and, if the step goes on, starts again on what is left. -/
theorem loop_apply {step : σ → Reader (Step σ β)} (h : Advances step) (state : σ)
    (text : List Char) :
    loop step state text =
      match step state text with
      | .ok (.again next, rest) => loop step next rest
      | .ok (.done b, rest) => .ok (b, rest)
      | .error failure => .error failure := by
  have hunfold : loop step state text = iterate step (text.length + 1) state text := rfl
  simp only [hunfold, iterate, bind_apply]
  cases hs : step state text with
  | error failure => rfl
  | ok result =>
    obtain ⟨outcome, rest⟩ := result
    cases outcome with
    | done b => rfl
    | again next =>
      have hlt := h _ _ _ _ hs
      exact iterate_eq_of_lt h _ (rest.length + 1) next rest hlt (by omega)

/-- A loop goes on with the state that a step leaves. -/
theorem loop_again {step : σ → Reader (Step σ β)} (h : Advances step) {state next : σ}
    {text rest : List Char} (hs : step state text = .ok (.again next, rest)) :
    loop step state text = loop step next rest := by
  rw [loop_apply h, hs]

/-- A loop ends with the result of its last step. -/
theorem loop_done {step : σ → Reader (Step σ β)} (h : Advances step) {state : σ} {b : β}
    {text rest : List Char} (hs : step state text = .ok (.done b, rest)) :
    loop step state text = .ok (b, rest) := by
  rw [loop_apply h, hs]

end Phrasebook.Reader
