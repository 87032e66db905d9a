import Phrasebook.Proofs.Reader.Progress

/-!
# Reading up to a seam

A source is continued by another one that opens an entry. A reader run on the first source and on
both together does the same, as long as it does not come to the seam between them. Where it does, it
fails at the end of the first source, and with the continuation it fails on the first line of that,
or comes to the `=` there, where whatever encloses it fails. Such an agreement of two runs is
composed along sequencing and along loops.
-/

namespace Phrasebook

namespace Text

variable {text rest u v : List Char} {p : Char → Bool}

/-- A text that is empty or ends in a line feed. -/
def Terminated (text : List Char) : Prop := ∀ c ∈ text.getLast?, c = '\n'

/-- The empty text leaves no line open. -/
theorem terminated_nil : Terminated [] := by rintro _ ⟨⟩

/-- What ends in a line feed does so from any place on. -/
theorem Terminated.of_suffix (h : Terminated text) (hrest : rest <:+ text) : Terminated rest := by
  obtain ⟨front, rfl⟩ := hrest
  intro c hc
  refine h c ?_
  rw [List.getLast?_append, Option.mem_def.mp hc]
  rfl

/-- A line begins after a line feed. -/
theorem Terminated.leadsToLine (h : Terminated text) : LeadsToLine text := fun c hc => by
  rw [h c hc]
  rfl

/-- Whether a line begins after a text is told from its end. -/
theorem LeadsToLine.of_suffix (h : LeadsToLine text) (hrest : rest <:+ text) :
    LeadsToLine rest := by
  obtain ⟨front, rfl⟩ := hrest
  intro c hc
  refine h c ?_
  rw [List.getLast?_append, Option.mem_def.mp hc]
  rfl

/-- What ends in a line break does not end in another character. -/
theorem LeadsToLine.tail_ne_nil {c : Char} (h : LeadsToLine (c :: rest)) (hc : isBreak c = false) :
    rest ≠ [] := by
  rintro rfl
  have hbreak : isBreak c = true := h c rfl
  rw [hc] at hbreak
  cases hbreak

/-- A run of characters that no line break belongs to ends before the last character. -/
theorem LeadsToLine.dropWhile_ne_nil (h : LeadsToLine u) (hne : u ≠ [])
    (hp : p '\n' = false ∧ p '\r' = false) : u.dropWhile p ≠ [] := by
  have hlast : isBreak (u.getLast hne) = true := h _ (List.getLast?_eq_some_getLast hne)
  intro hnil
  have hmem := List.dropWhile_eq_nil_iff.mp hnil _ (List.getLast_mem hne)
  rcases isBreak_iff.mp hlast with hc | hc
  · rw [hc, hp.1] at hmem
    cases hmem
  · rw [hc, hp.2] at hmem
    cases hmem

/-- A run that no line break belongs to is not continued behind a seam. -/
theorem LeadsToLine.dropWhile_append (h : LeadsToLine u) (hne : u ≠ [])
    (hp : p '\n' = false ∧ p '\r' = false) (v : List Char) :
    (u ++ v).dropWhile p = u.dropWhile p ++ v := by
  rw [List.dropWhile_append, if_neg]
  simpa using h.dropWhile_ne_nil hne hp

/-- What a run takes before a seam does not depend on what is behind it. -/
theorem LeadsToLine.takeWhile_append (h : LeadsToLine u) (hne : u ≠ [])
    (hp : p '\n' = false ∧ p '\r' = false) (v : List Char) :
    (u ++ v).takeWhile p = u.takeWhile p := by
  refine (List.append_left_inj (u.dropWhile p ++ v)).mp ?_
  rw [← h.dropWhile_append hne hp v, List.takeWhile_append_dropWhile,
    h.dropWhile_append hne hp v, ← List.append_assoc, List.takeWhile_append_dropWhile]

/-- A name, spaces, and `=`. -/
def StartsDefinition (v : List Char) : Prop :=
  ∃ c name spaces tail, v = c :: (name ++ (spaces ++ '=' :: tail)) ∧ c.isAlpha ∧
    (∀ d ∈ name, Reader.isIdentifierChar d) ∧ ∀ d ∈ spaces, d = ' '

/-- The start of a message, or that of a term with `-` before its name. -/
def StartsUnit (v : List Char) : Prop :=
  StartsDefinition v ∨ ∃ w, v = '-' :: w ∧ StartsDefinition w

/-- A message or term starts with a letter or a hyphen. -/
theorem StartsUnit.exists_cons (h : StartsUnit v) :
    ∃ d rest, v = d :: rest ∧ (d.isAlpha ∨ d = '-') := by
  rcases h with ⟨c, name, spaces, tail, rfl, hc, -⟩ | ⟨w, rfl, -⟩
  · exact ⟨c, _, rfl, Or.inl hc⟩
  · exact ⟨'-', w, rfl, Or.inr rfl⟩

/-- The start of a unit, or that of a comment. -/
def OpensEntry (v : List Char) : Prop := StartsUnit v ∨ ∃ w, v = '#' :: w

/-- A message or term opens an entry. -/
theorem StartsUnit.opensEntry (h : StartsUnit v) : OpensEntry v := .inl h

/-- An entry opens with a letter, a hyphen or a number sign. -/
theorem OpensEntry.exists_cons (h : OpensEntry v) :
    ∃ d rest, v = d :: rest ∧ (d.isAlpha ∨ d = '-' ∨ d = '#') := by
  rcases h with h | ⟨w, rfl⟩
  · obtain ⟨d, rest, rfl, hd⟩ := h.exists_cons
    exact ⟨d, rest, rfl, hd.imp_right .inl⟩
  · exact ⟨'#', w, rfl, .inr (.inr rfl)⟩

/-- An entry opens with no other character. -/
theorem OpensEntry.head?_ne (h : OpensEntry v) {c : Char}
    (hc : (c.isAlpha || c == '-' || c == '#') = false) : v.head? ≠ some c := by
  obtain ⟨d, rest, rfl, hd⟩ := h.exists_cons
  simp only [Bool.or_eq_false_iff, beq_eq_false_iff_ne] at hc
  rintro ⟨⟩
  rcases hd with halpha | rfl | rfl
  · rw [hc.1.1] at halpha
    cases halpha
  · exact hc.1.2 rfl
  · exact hc.2 rfl

/-- A message or term does not start as a comment. -/
theorem StartsUnit.head?_ne_mark (h : StartsUnit v) : v.head? ≠ some '#' := by
  obtain ⟨d, rest, rfl, halpha | rfl⟩ := h.exists_cons <;> rintro heq <;> cases heq
  cases halpha

/-- An entry does not open with a blank. -/
theorem OpensEntry.isBlank_eq_false (h : OpensEntry v) : ∀ c ∈ v.head?, isBlank c = false := by
  obtain ⟨d, rest, rfl, hd⟩ := h.exists_cons
  rintro c hc
  cases hc
  exact isBlank_eq_false_of_start hd

/-- A message or term does not start with a blank. -/
theorem StartsUnit.isBlank_eq_false (h : StartsUnit v) : ∀ c ∈ v.head?, isBlank c = false :=
  h.opensEntry.isBlank_eq_false

/-- Where a text begins with no character of a run, the run ends before it. -/
theorem dropWhile_append_of_head (hv : ∀ c ∈ v.head?, p c = false) (u : List Char) :
    (u ++ v).dropWhile p = u.dropWhile p ++ v := by
  rw [List.dropWhile_append]
  split
  · next h =>
    rw [List.isEmpty_iff.mp h, List.nil_append]
    rcases v with _ | ⟨c, v⟩
    · rfl
    · exact List.dropWhile_cons_of_neg (by simp [hv c rfl])
  · rfl

/-- What a run takes is not changed by a text that begins with no character of the run. -/
theorem takeWhile_append_of_head (hv : ∀ c ∈ v.head?, p c = false) (u : List Char) :
    (u ++ v).takeWhile p = u.takeWhile p := by
  refine (List.append_left_inj (u.dropWhile p ++ v)).mp ?_
  rw [← dropWhile_append_of_head hv u, List.takeWhile_append_dropWhile,
    dropWhile_append_of_head hv u, ← List.append_assoc, List.takeWhile_append_dropWhile]

/-- A line end is not cut by a seam behind which no line ends. -/
theorem LeadsToLine.afterLineEnd?_append (h : LeadsToLine u)
    (hv : ∀ c ∈ v.head?, isBlank c = false) :
    afterLineEnd? (u ++ v) = (afterLineEnd? u).map (· ++ v) := by
  rcases u with _ | ⟨c, u⟩
  · rcases v with _ | ⟨c, v⟩
    · rfl
    · have hc : ¬ isBreak c := fun hc => by simp [isBlank_of_isBreak hc] at hv
      exact afterLineEnd?_cons_of_not_isBreak hc v
  by_cases hc : isBreak c
  · rcases isBreak_iff.mp hc with rfl | rfl
    · rfl
    · rcases u with _ | ⟨d, u⟩
      · rcases v with _ | ⟨d, v⟩
        · rfl
        · have hd : d ≠ '\n' := by
            rintro rfl
            exact absurd (hv _ rfl) (by decide)
          simp [afterLineEnd?, hd]
      · by_cases hd : d = '\n'
        · subst hd
          rfl
        · simp [afterLineEnd?, hd]
  · rw [List.cons_append, afterLineEnd?_cons_of_not_isBreak hc,
      afterLineEnd?_cons_of_not_isBreak hc]
    rfl

/-- Behind a line end that is skipped, the text ends as before. -/
theorem LeadsToLine.afterLineEnd? (h : LeadsToLine text) (he : afterLineEnd? text = some rest) :
    LeadsToLine rest :=
  h.of_suffix (afterLineEnd?_suffix he)

/-- Blank lines are not continued by a text that begins with no blank. -/
theorem LeadsToLine.dropBlankLines_append (hu : LeadsToLine u)
    (hv : ∀ c ∈ v.head?, isBlank c = false) :
    dropBlankLines (u ++ v) = dropBlankLines u ++ v := by
  induction hn : u.length using Nat.strong_induction_on generalizing u with
  | _ n ih =>
    have hspaces : ∀ c ∈ v.head?, (c == ' ') = false := by
      intro c hc
      have hblank := hv c hc
      by_contra hspace
      obtain rfl : c = ' ' := by simpa using hspace
      contradiction
    have hrest : LeadsToLine (u.dropWhile (· == ' ')) := hu.of_suffix (List.dropWhile_suffix _)
    rw [dropBlankLines_apply (u ++ v), dropBlankLines_apply u, dropWhile_append_of_head hspaces,
      hrest.afterLineEnd?_append hv]
    cases he : Text.afterLineEnd? (u.dropWhile (· == ' ')) with
    | some after =>
      have hlt : after.length < n :=
        hn ▸ Nat.lt_of_lt_of_le (afterLineEnd?_length_lt he) (List.dropWhile_suffix _).length_le
      exact ih _ hlt (hrest.afterLineEnd? he) rfl
    | none =>
      by_cases hnil : u = []
      · subst hnil
        by_cases hvnil : v = [] <;> simp [hvnil]
      · simp [hu.dropWhile_ne_nil hnil (p := (· == ' ')) ⟨rfl, rfl⟩]

/-- Blank lines of a text that ends in a line feed are skipped without regard to what follows. -/
theorem dropBlankLines_append (hu : Terminated u) (hv : ∀ c ∈ v.head?, isBlank c = false) :
    dropBlankLines (u ++ v) = dropBlankLines u ++ v :=
  hu.leadsToLine.dropBlankLines_append hv

end Text

namespace Reader

open Text

variable {α β σ : Type} {u v : List Char}

/-! ## Agreement of two runs -/

/-- A place on the first line of a text. -/
def Ahead (v y : List Char) : Prop := ∃ x, v = x ++ y ∧ ∀ c ∈ x, isBreak c = false

/-- A place from which blanks lead to an `=` on the first line. -/
def BeforeEquals (v y : List Char) : Prop :=
  ∃ tail, y.dropWhile isBlank = '=' :: tail ∧ Ahead v ('=' :: tail)

/-- The runs of a reader on `u` and on `u ++ v` agree: they end alike and short of the seam, in
`post`; or they fail alike; or the first run fails at the seam, and the second one fails on the
first line of `v` or ends in `doomed`. -/
def Agree (v : List Char) (post doomed : α → List Char → Prop) (r : Reader α)
    (u : List Char) : Prop :=
  match r u with
  | .ok (a, w) => r (u ++ v) = .ok (a, w ++ v) ∧ LeadsToLine w ∧ post a w
  | .error ⟨problem, w⟩ =>
    r (u ++ v) = .error ⟨problem, w ++ v⟩ ∨
      w = [] ∧ Ensures r (u ++ v) doomed fun failure => Ahead v failure.rest

/-- No run ends so. -/
def never (_ : α) (_ : List Char) : Prop := False

variable {r : Reader α} {post doomed : α → List Char → Prop}

/-- Agreement is passed on from a reader that does the same on both texts. -/
theorem Agree.of_eq {r' : Reader α} {u' : List Char} (h : Agree v post doomed r' u')
    (hu : r u = r' u') (huv : r (u ++ v) = r' (u' ++ v)) : Agree v post doomed r u := by
  unfold Agree Ensures at *
  rw [hu, huv]
  exact h

/-- What two runs agree on can be weakened. -/
theorem Agree.mono {post' doomed' : α → List Char → Prop} (h : Agree v post doomed r u)
    (hpost : ∀ a w, post a w → post' a w) (hdoomed : ∀ a w, doomed a w → doomed' a w) :
    Agree v post' doomed' r u := by
  unfold Agree at *
  rcases hr : r u with ⟨problem, w⟩ | ⟨a, w⟩
  · rw [hr] at h
    exact h.imp_right fun ⟨hw, he⟩ => ⟨hw, he.mono hdoomed fun _ hf => hf⟩
  · rw [hr] at h
    exact ⟨h.1, h.2.1, hpost a w h.2.2⟩

/-- A reader that does not pass the seam may be said to be doomed behind it. -/
theorem Agree.of_never (h : Agree v post never r u) : Agree v post doomed r u :=
  h.mono (fun _ _ hp => hp) fun _ _ hn => hn.elim

/-- Two runs agree if both succeed and leave the same before the seam. -/
theorem agree_ok {a : α} {w : List Char} (hr : r u = .ok (a, w))
    (huv : r (u ++ v) = .ok (a, w ++ v)) (hw : LeadsToLine w) (ha : post a w) :
    Agree v post doomed r u := by
  rw [Agree, hr]
  exact ⟨huv, hw, ha⟩

/-- Two runs agree if nothing is read. -/
theorem agree_pure {a : α} (hu : LeadsToLine u) (h : post a u) :
    Agree v post doomed (pure a) u :=
  ⟨rfl, hu, h⟩

/-- Two runs agree if both fail where they begin. -/
theorem agree_fail (problem : Problem) : Agree v post doomed (fail problem) u := Or.inl rfl

/-- Two runs agree if both begin by failing. -/
theorem agree_fail_bind (problem : Problem) (f : β → Reader α) :
    Agree v post doomed (fail problem >>= f) u := Or.inl rfl

/-- Agreement is composed along sequencing: what passes the seam has to fail on the first line
there. -/
theorem Agree.bind {m d : α → List Char → Prop} {post doomed : β → List Char → Prop}
    {f : α → Reader β} (h : Agree v m d r u)
    (hf : ∀ a w, LeadsToLine w → m a w → Agree v post doomed (f a) w)
    (hd : ∀ a y, d a y → Ensures (f a) y doomed fun failure => Ahead v failure.rest) :
    Agree v post doomed (r >>= f) u := by
  unfold Agree at h
  rcases hr : r u with ⟨problem, w⟩ | ⟨a, w⟩
  · rw [hr] at h
    rw [Agree, bind_error hr]
    refine h.imp (fun huv => bind_error huv) fun ⟨hw, he⟩ => ⟨hw, he.bind hd⟩
  · rw [hr] at h
    obtain ⟨huv, hw, ha⟩ := h
    exact (hf a w hw ha).of_eq (bind_ok hr) (bind_ok huv)

/-- Agreement is composed with a first reader that does not pass the seam. -/
theorem Agree.bind_never {m : α → List Char → Prop} {post doomed : β → List Char → Prop}
    {f : α → Reader β} (h : Agree v m never r u)
    (hf : ∀ a w, LeadsToLine w → m a w → Agree v post doomed (f a) w) :
    Agree v post doomed (r >>= f) u :=
  h.bind hf fun _ _ hn => hn.elim

/-- Agreement does not depend on what is made of the result. -/
theorem Agree.map_pure {m : α → List Char → Prop} (h : Agree v m never r u) (f : α → β) :
    Agree v (fun _ _ => True) never (r >>= fun a => pure (f a)) u :=
  h.bind_never fun _ _ hw _ => agree_pure hw trivial

/-- A loop agrees if its steps do; a step that comes to its doom is the last one. -/
theorem Agree.loop {step : σ → Reader (Step σ β)} {I : σ → List Char → Prop}
    {post doomed : β → List Char → Prop} (hadvances : Advances step)
    (hstep : ∀ state u, LeadsToLine u → I state u →
      Agree v (Outcome I post) (Outcome never doomed) (step state) u)
    {state : σ} (hu : LeadsToLine u) (h : I state u) :
    Agree v post doomed (loop step state) u := by
  -- The induction is on the length of what is left before the seam, for every step advances.
  induction hn : u.length using Nat.strong_induction_on generalizing state u with
  | _ n ih =>
    have hagree := hstep state u hu h
    unfold Agree at hagree
    rcases hr : step state u with ⟨problem, w⟩ | ⟨next | b, w⟩
    · rw [hr] at hagree
      rw [Agree, loop_apply hadvances, hr]
      refine hagree.imp (fun huv => ?_) fun ⟨hw, he⟩ => ⟨hw, ?_⟩
      · rw [loop_apply hadvances, huv]
      · rw [Ensures, loop_apply hadvances]
        rcases huv : step state (u ++ v) with failure | ⟨next | b, y⟩
        · exact he.error huv
        · exact (he.ok huv).elim
        · exact he.ok huv
    · rw [hr] at hagree
      obtain ⟨huv, hw, hnext⟩ := hagree
      have hlt := hadvances _ _ _ _ hr
      exact (ih _ (hn ▸ hlt) hw hnext rfl).of_eq (loop_again hadvances hr)
        (loop_again hadvances huv)
    · rw [hr] at hagree
      obtain ⟨huv, hw, hb⟩ := hagree
      rw [Agree, loop_done hadvances hr]
      exact ⟨loop_done hadvances huv, hw, hb⟩

/-! ## Runs that fail alike -/

/-- The runs of a reader on `u` and on `u ++ v` both succeed, or they fail alike, or the first one
fails at the seam and the second one on the first line of `v`. -/
def FailAlike (v : List Char) (r : Reader α) (u : List Char) : Prop :=
  match r u with
  | .ok _ => ∃ result, r (u ++ v) = .ok result
  | .error ⟨problem, w⟩ => ∃ failure, r (u ++ v) = .error failure ∧
      (failure = ⟨problem, w ++ v⟩ ∨ w = [] ∧ Ahead v failure.rest)

/-- Failing alike is passed on from a reader that does the same on both texts. -/
theorem FailAlike.of_eq {r' : Reader α} (h : FailAlike v r' u) (hu : r u = r' u)
    (huv : r (u ++ v) = r' (u ++ v)) : FailAlike v r u := by
  unfold FailAlike at *
  rw [hu, huv]
  exact h

/-- Runs that agree fail alike. -/
theorem Agree.failAlike (h : Agree v post never r u) : FailAlike v r u := by
  unfold Agree at h
  unfold FailAlike
  rcases hr : r u with ⟨problem, w⟩ | ⟨a, w⟩
  · rw [hr] at h
    rcases h with huv | ⟨rfl, he⟩
    · exact ⟨_, huv, .inl rfl⟩
    · rcases huv : r (u ++ v) with failure | ⟨a, y⟩
      · exact ⟨failure, rfl, .inr ⟨rfl, he.error huv⟩⟩
      · exact (he.ok huv).elim
  · rw [hr] at h
    exact ⟨_, h.1⟩

/-- A reader that never fails. -/
theorem failAlike_of_total (h : ∀ text, ∃ result, r text = .ok result) : FailAlike v r u := by
  obtain ⟨result, hr⟩ := h u
  rw [FailAlike, hr]
  exact h _

/-- What follows an agreement may fail alike. -/
theorem FailAlike.bind {m : α → List Char → Prop} {f : α → Reader β} (h : Agree v m never r u)
    (hf : ∀ a w, LeadsToLine w → m a w → FailAlike v (f a) w) : FailAlike v (r >>= f) u := by
  have hfirst := h.failAlike
  unfold Agree at h
  unfold FailAlike at hfirst
  rcases hr : r u with ⟨problem, w⟩ | ⟨a, w⟩
  · rw [hr] at hfirst
    obtain ⟨failure, huv, hat⟩ := hfirst
    rw [FailAlike, bind_error hr]
    exact ⟨failure, bind_error huv, hat⟩
  · rw [hr] at h
    obtain ⟨huv, hw, ha⟩ := h
    have hrest := hf a w hw ha
    unfold FailAlike at hrest ⊢
    rw [bind_ok hr, bind_ok huv]
    exact hrest

/-- Failing alike does not depend on what is made of the result. -/
theorem FailAlike.map_pure (h : FailAlike v r u) (f : α → β) :
    FailAlike v (r >>= fun a => pure (f a)) u := by
  unfold FailAlike at *
  rcases hr : r u with ⟨problem, w⟩ | ⟨a, w⟩
  · rw [hr] at h
    obtain ⟨failure, huv, hat⟩ := h
    rw [bind_error hr]
    exact ⟨failure, bind_error huv, hat⟩
  · rw [hr] at h
    obtain ⟨⟨b, y⟩, huv⟩ := h
    rw [bind_ok hr]
    exact ⟨_, bind_ok huv⟩

end Reader

end Phrasebook
