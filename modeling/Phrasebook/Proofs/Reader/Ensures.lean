import Phrasebook.Proofs.Reader.Run

/-!
# What a run of a reader ensures

One judgement serves all one-run properties of readers: a condition on the result and the rest of a
successful run, and a condition on the failure of any other. It is composed along sequencing, and
along a loop through an invariant of its state and of what is left of the text.
-/

namespace Phrasebook.Reader

variable {α β σ : Type}

/-- A run on `text` ends in `post`, or fails with `fault`. -/
def Ensures (r : Reader α) (text : List Char) (post : α → List Char → Prop)
    (fault : Failure → Prop) : Prop :=
  match r text with
  | .ok (a, rest) => post a rest
  | .error failure => fault failure

variable {r : Reader α} {text : List Char} {post m : α → List Char → Prop}
  {fault : Failure → Prop}

/-- A result that is read satisfies what is ensured. -/
theorem Ensures.ok (h : Ensures r text post fault) {a : α} {rest : List Char}
    (hr : r text = .ok (a, rest)) : post a rest := by
  simpa only [Ensures, hr] using h

/-- A failure satisfies what is ensured of failures. -/
theorem Ensures.error (h : Ensures r text post fault) {failure : Failure}
    (hr : r text = .error failure) : fault failure := by
  simpa only [Ensures, hr] using h

/-- What is ensured is said of the results and of the failures. -/
theorem ensures_iff : Ensures r text post fault ↔
    (∀ a rest, r text = .ok (a, rest) → post a rest) ∧
      ∀ failure, r text = .error failure → fault failure := by
  constructor
  · intro h
    exact ⟨fun a rest hr => h.ok hr, fun failure hr => h.error hr⟩
  · rintro ⟨hok, herror⟩
    unfold Ensures
    split
    · next hr => exact hok _ _ hr
    · next hr => exact herror _ hr

/-- What is ensured can be weakened. -/
theorem Ensures.mono {post' : α → List Char → Prop} {fault' : Failure → Prop}
    (h : Ensures r text post fault) (hpost : ∀ a rest, post a rest → post' a rest)
    (hfault : ∀ failure, fault failure → fault' failure) : Ensures r text post' fault' := by
  rw [ensures_iff] at h ⊢
  exact ⟨fun a rest hr => hpost _ _ (h.1 a rest hr), fun failure hr => hfault _ (h.2 failure hr)⟩

/-- Two conditions that are ensured hold together. -/
theorem Ensures.and {post' : α → List Char → Prop} (h : Ensures r text post fault)
    (h' : Ensures r text post' fault) :
    Ensures r text (fun a rest => post a rest ∧ post' a rest) fault := by
  rw [ensures_iff] at h h' ⊢
  exact ⟨fun a rest hr => ⟨h.1 a rest hr, h'.1 a rest hr⟩, h.2⟩

/-- What follows a reader may use what that ensures. -/
theorem Ensures.bind {f : α → Reader β} {post : β → List Char → Prop}
    (h : Ensures r text m fault)
    (hf : ∀ a rest, m a rest → Ensures (f a) rest post fault) :
    Ensures (r >>= f) text post fault := by
  rw [Ensures, bind_apply]
  cases hr : r text with
  | error failure => exact h.error hr
  | ok result => exact hf _ _ (h.ok hr)

/-- A result that is changed is ensured what the change gives. -/
theorem Ensures.map {f : α → β} {post : β → List Char → Prop}
    (h : Ensures r text (fun a rest => post (f a) rest) fault) :
    Ensures (f <$> r) text post fault := by
  rw [Ensures, map_apply]
  cases hr : r text with
  | error failure => exact h.error hr
  | ok result => exact h.ok hr

/-- What a step of a loop leaves: the invariant if it goes on, and what the loop ends in if not. -/
def Outcome (I : σ → List Char → Prop) (post : β → List Char → Prop) :
    Step σ β → List Char → Prop
  | .again next, rest => I next rest
  | .done b, rest => post b rest

/-- A loop keeps an invariant if each of its steps does, and ends as its last step does. -/
theorem Ensures.loop {step : σ → Reader (Step σ β)} {post : β → List Char → Prop}
    {I : σ → List Char → Prop}
    (hstep : ∀ state text, I state text → Ensures (step state) text (Outcome I post) fault)
    (hbound : ∀ state text, I state text → fault ⟨.generic, text⟩)
    {state : σ} (h : I state text) : Ensures (loop step state) text post fault := by
  have hiterate : ∀ (count : Nat) (state : σ) (text : List Char), I state text →
      Ensures (iterate step count state) text post fault := by
    intro count
    induction count with
    | zero => exact fun state text h => hbound state text h
    | succ count ih =>
      intro state text h
      refine (hstep state text h).bind fun outcome rest hmid => ?_
      cases outcome with
      | again next => exact ih next rest hmid
      | done b => exact hmid
  exact hiterate _ state text h

/-- A reader, on any ending of `whole`, leaves an ending of `whole`, also where it fails. -/
def Within (whole : List Char) (r : Reader α) (text : List Char) : Prop :=
  Ensures r text (fun _ rest => rest <:+ whole) (fun failure => failure.rest <:+ whole)

/-- A reader never leaves anything but an ending of its text. -/
def Contained (r : Reader α) : Prop :=
  ∀ ⦃whole text : List Char⦄, text <:+ whole → Within whole r text

/-- A contained reader stays within every text of which its own is a suffix. -/
theorem Contained.ensures (h : Contained r) {whole : List Char} (htext : text <:+ whole) :
    Ensures r text (fun _ rest => rest <:+ whole) fun _ => True :=
  (h htext).mono (fun _ _ hr => hr) fun _ _ => trivial

/-- What a contained reader leaves is a suffix of its text. -/
theorem Contained.suffix_of_ok (h : Contained r) {a : α} {rest : List Char}
    (hr : r text = .ok (a, rest)) : rest <:+ text :=
  (h List.suffix_rfl).ok hr

/-- What is ahead of the failure of a contained reader is a suffix of its text. -/
theorem Contained.suffix_of_error (h : Contained r) {failure : Failure}
    (hr : r text = .error failure) : failure.rest <:+ text :=
  (h List.suffix_rfl).error hr

end Phrasebook.Reader
