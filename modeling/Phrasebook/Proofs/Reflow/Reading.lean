import Phrasebook.Proofs.RoundTrip.Literal
import Phrasebook.Proofs.Reflow.Text

/-!
# Two runs side by side

A reader is run on a text, and on the text with other line ends and deeper lines. The runs go side
by side if they come to the same place with results that belong together, or fail at the same place
with the same problem. This is composed along sequencing and along loops. The tokens and the
literals stand inside one line, so that their results are the same.
-/

namespace Phrasebook.Reader

open Text

variable {f : Reflow} {α β σ : Type} {start : Bool} {u : List Char}

/-- The run of one reader on a text and that of another on the reflowed text go side by side. The
condition `post` is on both results, and on the place where the runs end. -/
def Parallel (f : Reflow) (post : α → α → Bool → List Char → Prop) (r r' : Reader α)
    (start : Bool) (u : List Char) : Prop :=
  match r u, r' (f.flowAt start u) with
  | .ok (a, w), .ok (a', w') =>
    ∃ place, w' = f.flowAt place w ∧ f.Suits place w ∧ post a a' place w
  | .error failure, .error failure' =>
    failure'.problem = failure.problem ∧ ∃ place, failure'.rest = f.flowAt place failure.rest
  | _, _ => False

/-- The results are the same. -/
def Same (a a' : α) (_ : Bool) (_ : List Char) : Prop := a' = a

/-- The results are the same, and the runs end inside a line. -/
def SameInside (a a' : α) (place : Bool) (_ : List Char) : Prop := a' = a ∧ place = false

variable {r r' : Reader α} {post m : α → α → Bool → List Char → Prop}

/-- Runs go side by side if they do the same as two that do. -/
theorem Parallel.of_eq {s s' : Reader α} {place : Bool} {w : List Char}
    (h : Parallel f post s s' place w) (hu : r u = s w)
    (hflow : r' (f.flowAt start u) = s' (f.flowAt place w)) : Parallel f post r r' start u := by
  unfold Parallel at *
  rw [hu, hflow]
  exact h

/-- What is known of runs side by side can be weakened. -/
theorem Parallel.mono {post' : α → α → Bool → List Char → Prop}
    (h : Parallel f post r r' start u)
    (hpost : ∀ a a' place w, post a a' place w → post' a a' place w) :
    Parallel f post' r r' start u := by
  unfold Parallel at *
  split at h
  · obtain ⟨place, hw, hsuits, ha⟩ := h
    exact ⟨place, hw, hsuits, hpost _ _ _ _ ha⟩
  · exact h
  · exact h

/-- Runs that succeed go side by side if they come to the same place. -/
theorem parallel_ok {a a' : α} {place : Bool} {w : List Char} (hr : r u = .ok (a, w))
    (hr' : r' (f.flowAt start u) = .ok (a', f.flowAt place w)) (hw : f.Suits place w)
    (ha : post a a' place w) : Parallel f post r r' start u := by
  rw [Parallel, hr, hr']
  exact ⟨place, rfl, hw, ha⟩

/-- Runs that fail go side by side if they do so at the same place. -/
theorem parallel_error {problem : Problem} {place : Bool} {w : List Char}
    (hr : r u = .error ⟨problem, w⟩)
    (hr' : r' (f.flowAt start u) = .error ⟨problem, f.flowAt place w⟩) :
    Parallel f post r r' start u := by
  rw [Parallel, hr, hr']
  exact ⟨rfl, place, rfl⟩

/-- Runs that succeed inside a line go side by side if they come to the same place. -/
theorem parallel_ok_inside {a a' : α} {w : List Char} (hr : r u = .ok (a, w))
    (hr' : r' (f.flowAt start u) = .ok (a', f.flow w)) (hw : f.Suits false w)
    (ha : post a a' false w) : Parallel f post r r' start u :=
  parallel_ok hr (by rw [hr', f.flowAt_false]) hw ha

/-- Runs that fail inside a line go side by side if they do so at the same place. -/
theorem parallel_error_inside {problem : Problem} {w : List Char}
    (hr : r u = .error ⟨problem, w⟩)
    (hr' : r' (f.flowAt start u) = .error ⟨problem, f.flow w⟩) :
    Parallel f post r r' start u :=
  parallel_error hr (by rw [hr', f.flowAt_false])

/-- Nothing is read by returning results that belong together. -/
theorem parallel_pure {a a' : α} (hu : f.Suits start u) (h : post a a' start u) :
    Parallel f post (pure a) (pure a') start u :=
  ⟨start, rfl, hu, h⟩

/-- Runs that fail where they begin go side by side. -/
theorem parallel_fail (problem : Problem) :
    Parallel f post (fail problem) (fail problem) start u :=
  ⟨rfl, start, rfl⟩

/-- Runs that begin by failing go side by side. -/
theorem parallel_fail_bind (problem : Problem) (g g' : β → Reader α) :
    Parallel f post (fail problem >>= g) (fail problem >>= g') start u :=
  ⟨rfl, start, rfl⟩

/-- Runs side by side are composed along sequencing. -/
theorem Parallel.bind {post : β → β → Bool → List Char → Prop} {g g' : α → Reader β}
    (h : Parallel f m r r' start u)
    (hg : ∀ a a' place w, f.Suits place w → m a a' place w →
      Parallel f post (g a) (g' a') place w) :
    Parallel f post (r >>= g) (r' >>= g') start u := by
  unfold Parallel at h
  rcases hr : r u with failure | ⟨a, w⟩ <;>
    rcases hr' : r' (f.flowAt start u) with failure' | ⟨a', w'⟩ <;>
    simp only [hr, hr'] at h
  · rw [Parallel, bind_error hr, bind_error hr']
    exact h
  · obtain ⟨place, rfl, hw, ha⟩ := h
    exact (hg a a' place w hw ha).of_eq (bind_ok hr) (bind_ok hr')

/-- Runs with one result are composed along sequencing. -/
theorem Parallel.bind_same {post : β → β → Bool → List Char → Prop} {g g' : α → Reader β}
    (h : Parallel f Same r r' start u)
    (hg : ∀ a place w, f.Suits place w → Parallel f post (g a) (g' a) place w) :
    Parallel f post (r >>= g) (r' >>= g') start u :=
  h.bind fun a _ place w hw ha => by
    obtain rfl := ha
    exact hg _ place w hw

/-- Runs with one result inside a line are composed along sequencing. -/
theorem Parallel.bind_inside {post : β → β → Bool → List Char → Prop} {g g' : α → Reader β}
    (h : Parallel f SameInside r r' start u)
    (hg : ∀ a w, f.Suits false w → Parallel f post (g a) (g' a) false w) :
    Parallel f post (r >>= g) (r' >>= g') start u :=
  h.bind fun a _ place w hw ha => by
    obtain ⟨rfl, rfl⟩ := ha
    exact hg _ w hw

/-- What is made of one result inside a line is the same. -/
theorem Parallel.map_inside (h : Parallel f SameInside r r' start u) (g : α → β) :
    Parallel f SameInside (r >>= fun a => pure (g a)) (r' >>= fun a => pure (g a)) start u :=
  h.bind_inside fun _ _ hw => parallel_pure hw ⟨rfl, rfl⟩

/-- What is made of one result is the same. -/
theorem Parallel.map_same (h : Parallel f Same r r' start u) (g : α → β) :
    Parallel f Same (r >>= fun a => pure (g a)) (r' >>= fun a => pure (g a)) start u :=
  h.bind_same fun _ _ _ hw => parallel_pure hw rfl

/-- Results that are the same inside a line are the same. -/
theorem Parallel.same (h : Parallel f SameInside r r' start u) : Parallel f Same r r' start u :=
  h.mono fun _ _ _ _ ha => ha.1

/-- What two steps of a loop leave: both go on, or both end it. -/
def Outcomes (I : σ → σ → Bool → List Char → Prop) (post : β → β → Bool → List Char → Prop) :
    Step σ β → Step σ β → Bool → List Char → Prop
  | .again next, .again next', place, w => I next next' place w
  | .done b, .done b', place, w => post b b' place w
  | _, _, _, _ => False

/-- Loops go side by side if their steps do. -/
theorem Parallel.loop {step step' : σ → Reader (Step σ β)}
    {I : σ → σ → Bool → List Char → Prop} {post : β → β → Bool → List Char → Prop}
    (hadvances : Advances step) (hadvances' : Advances step')
    (hstep : ∀ state state' start u, f.Suits start u → I state state' start u →
      Parallel f (Outcomes I post) (step state) (step' state') start u)
    {state state' : σ} (hu : f.Suits start u) (h : I state state' start u) :
    Parallel f post (loop step state) (loop step' state') start u := by
  induction hn : u.length using Nat.strong_induction_on generalizing state state' start u with
  | _ n ih =>
    have hrun := hstep state state' start u hu h
    unfold Parallel at hrun
    rcases hr : step state u with failure | ⟨next | b, w⟩ <;>
      rcases hr' : step' state' (f.flowAt start u) with failure' | ⟨next' | b', w'⟩ <;>
      -- Only outcomes of the same kind are left: two failures, two states to go on from or two
      -- results.
      simp only [hr, hr', Outcomes, and_false, exists_false] at hrun
    · rw [Parallel, loop_apply hadvances, loop_apply hadvances', hr, hr']
      exact hrun
    · obtain ⟨place, rfl, hw, hnext⟩ := hrun
      have hlt := hadvances _ _ _ _ hr
      exact (ih _ (hn ▸ hlt) hw hnext rfl).of_eq (loop_again hadvances hr)
        (loop_again hadvances' hr')
    · rw [Parallel, loop_done hadvances hr, loop_done hadvances' hr']
      exact hrun

/-- The texts that were consumed need not belong together. -/
theorem Parallel.withText (h : Parallel f post r r' start u) :
    Parallel f (fun a a' place w => post a.1 a'.1 place w) (withText r) (withText r') start u := by
  unfold Parallel Reader.withText at *
  rcases hr : r u with failure | ⟨a, w⟩ <;>
    rcases hr' : r' (f.flowAt start u) with failure' | ⟨a', w'⟩ <;>
    simp only [hr, hr'] at h ⊢
  · exact h
  · exact h

/-! ## Inside lines -/

/-- Run inside a line, a reader gives the same result in both texts, inside a line. -/
def Steady (f : Reflow) (r : Reader α) : Prop :=
  ∀ ⦃u : List Char⦄, f.Suits false u → Parallel f SameInside r r false u

/-- Returning a value is steady. -/
theorem steady_pure (a : α) : Steady f (pure a) := fun _ hu => parallel_pure hu ⟨rfl, rfl⟩

/-- Failing is steady. -/
theorem steady_fail (problem : Problem) : Steady f (fail problem : Reader α) :=
  fun _ _ => parallel_fail problem

/-- What begins by failing is steady. -/
theorem steady_fail_bind (problem : Problem) (g : β → Reader α) :
    Steady f (fail problem >>= g) := fun _ _ => parallel_fail_bind problem g g

/-- Steady readers are composed along sequencing. -/
theorem Steady.bind {g : α → Reader β} (h : Steady f r) (hg : ∀ a, Steady f (g a)) :
    Steady f (r >>= g) := fun _ hu => (h hu).bind_inside fun a _ hw => hg a hw

/-- What is made of the result of a steady reader is the same. -/
theorem Steady.map_pure (h : Steady f r) (g : α → β) : Steady f (r >>= fun a => pure (g a)) :=
  h.bind fun a => steady_pure (g a)

/-- A steady reader stays so if its result is changed. -/
theorem Steady.map (h : Steady f r) (g : α → β) : Steady f (g <$> r) := by
  rw [map_eq_pure_bind]
  exact h.map_pure g

/-- A loop of steady steps is steady. -/
theorem Steady.loop {step : σ → Reader (Step σ β)} (hadvances : Advances step)
    (h : ∀ state, Steady f (step state)) (state : σ) : Steady f (loop step state) := by
  intro u hu
  refine Parallel.loop (I := SameInside) hadvances hadvances ?_ hu ⟨rfl, rfl⟩
  rintro state _ _ w hw ⟨rfl, rfl⟩
  refine (h _ hw).mono ?_
  rintro (next | b) _ place w ⟨rfl, rfl⟩
  · exact ⟨rfl, rfl⟩
  · exact ⟨rfl, rfl⟩

/-- A reader that fails where a line ends, and at the end of a text, is steady if it is so before
any other character. -/
theorem steady_of_cons (problem : Problem) {atEnd : Problem} (hnil : r [] = .error ⟨atEnd, []⟩)
    (hbreak : ∀ c u, isBreak c = true → r (c :: u) = .error ⟨problem, c :: u⟩)
    (hcons : ∀ c u, f.flowAt false (c :: u) = c :: f.flowAt false u → f.Suits false (c :: u) →
      Parallel f SameInside r r false (c :: u)) : Steady f r := by
  intro u hu
  rcases u with _ | ⟨c, u⟩
  · exact parallel_error_inside (w := []) hnil hnil
  by_cases hc : c = '\n'
  · subst hc
    obtain ⟨d, e, hlineEnd, hd⟩ := f.isLineEnd.exists_cons
    refine parallel_error_inside (hbreak _ u rfl) ?_
    rw [f.flowAt_false, f.flow_lineFeed, hlineEnd, List.cons_append]
    exact hbreak d _ hd
  · exact hcons c u (f.flow_cons hc u) hu

/-! ## Single steps -/

/-- Accepting a character that is no blank is steady. -/
theorem steady_accept {c : Char} (hc : isBlank c = false) : Steady f (accept c) := by
  intro u hu
  rcases u with _ | ⟨d, u⟩
  · exact parallel_ok (accept_nil c) (by simp) hu ⟨rfl, rfl⟩
  have hhead := hu.head?_flowAt hc
  by_cases hd : d = c
  · subst hd
    have hbreak : d ≠ '\n' := by rintro rfl; contradiction
    refine parallel_ok_inside (a := true) (by simp) ?_ hu.tail ⟨rfl, rfl⟩
    rw [f.flowAt_false, f.flow_cons hbreak, accept_cons, if_pos rfl]
  · refine parallel_ok (a := false) (w := d :: u) (by simp [hd]) ?_ hu ⟨rfl, rfl⟩
    rcases hflow : f.flowAt false (d :: u) with _ | ⟨e, v⟩
    · exact accept_nil c
    · have he : e ≠ c := by
        rintro rfl
        rw [hflow] at hhead
        exact hd (by simpa using hhead.mp rfl)
      rw [accept_cons, if_neg he]

/-- An expected character that is no blank stands inside a line. -/
theorem parallel_expect {c : Char} (hc : isBlank c = false) (hu : f.Suits start u) :
    Parallel f SameInside (expect c) (expect c) start u := by
  have hhead := hu.head?_flowAt hc
  have hfails {v : List Char} (hv : v.head? ≠ some c) :
      expect c v = .error ⟨.expectedToken c, v⟩ := by
    rcases v with _ | ⟨d, v⟩
    · rfl
    · rw [expect_apply]
      exact if_neg (by simpa using hv)
  by_cases h : u.head? = some c
  · obtain ⟨w, rfl⟩ : ∃ w, u = c :: w := by
      rcases u with _ | ⟨d, w⟩
      · contradiction
      · exact ⟨w, by rw [Option.some.inj h]⟩
    have hspace : c ≠ ' ' := by rintro rfl; contradiction
    have hbreak : c ≠ '\n' := by rintro rfl; contradiction
    refine parallel_ok_inside (a := ()) ?_ ?_ hu.tail ⟨rfl, rfl⟩
    · rw [expect_apply]
      exact if_pos rfl
    · rw [hu.flowAt_cons hspace hbreak, expect_apply]
      exact if_pos rfl
  · exact parallel_error (hfails h) (hfails (hhead.not.mpr h))

/-- Spaces may differ in number, and behind them both runs are inside a line. -/
theorem parallel_skipSpaces (hu : f.Suits start u) :
    Parallel f (fun _ _ place _ => place = false) skipSpaces skipSpaces start u := by
  have hflow := skipSpaces_apply (f.flowAt start u)
  rw [hu.dropWhile_space, ← f.flowAt_false] at hflow
  exact parallel_ok (skipSpaces_apply u) hflow (hu.of_suffix (List.dropWhile_suffix _)) rfl

/-- Blanks are skipped up to the same place inside a line. -/
theorem parallel_skipBlanks (hu : f.Suits start u) :
    Parallel f SameInside skipBlanks skipBlanks start u := by
  have hflow := skipBlanks_apply (f.flowAt start u)
  rw [f.dropWhile_isBlank, ← f.flowAt_false] at hflow
  exact parallel_ok (skipBlanks_apply u) hflow (hu.of_suffix (List.dropWhile_suffix _)) ⟨rfl, rfl⟩

/-- Where a line ends, the next one begins. -/
theorem parallel_acceptLineEnd (hu : f.Suits start u) :
    Parallel f (fun ended ended' place _ => ended' = ended ∧ place = (ended || start))
      acceptLineEnd acceptLineEnd start u := by
  rw [Parallel, acceptLineEnd, acceptLineEnd, hu.afterLineEnd?]
  cases he : afterLineEnd? u with
  | none => exact ⟨start, rfl, hu, rfl, rfl⟩
  | some w => exact ⟨true, rfl, hu.of_afterLineEnd? he, rfl, rfl⟩

/-- Blank lines are skipped up to the start of the same line. -/
theorem parallel_skipBlankLines (hu : f.Suits true u) :
    Parallel f (fun _ _ place _ => place = true) skipBlankLines skipBlankLines true u := by
  obtain ⟨place, hdrop, hsuits, hstart, -⟩ := hu.dropBlankLines
  have hflow := skipBlankLines_apply (f.flowAt true u)
  rw [hdrop] at hflow
  exact parallel_ok (skipBlankLines_apply u) hflow hsuits (hstart rfl)

/-- A run that no line break belongs to is steady. -/
theorem steady_takeWhile {p : Char → Bool} (hp : ∀ c, isBreak c = true → p c = false) :
    Steady f (takeWhile p) := by
  intro u hu
  obtain ⟨htake, hdrop⟩ := hu.span_flow hp
  refine parallel_ok_inside (takeWhile_apply p u) ?_
    (hu.of_suffix (List.dropWhile_suffix p)) ⟨rfl, rfl⟩
  rw [takeWhile_apply, f.flowAt_false, htake, hdrop]

/-! ## Names and numbers -/

/-- No line break stands in an identifier. -/
theorem isBreak_not_isIdentifierChar (c : Char) (h : isBreak c = true) :
    isIdentifierChar c = false := by
  rcases isBreak_iff.mp h with rfl | rfl <;> rfl

/-- No line break is a digit. -/
theorem isBreak_not_isDigit (c : Char) (h : isBreak c = true) : c.isDigit = false := by
  rcases isBreak_iff.mp h with rfl | rfl <;> rfl

/-- An identifier stands inside a line. -/
theorem parallel_identifier (hu : f.Suits start u) :
    Parallel f SameInside identifier identifier start u := by
  have hfails {v : List Char} (hv : ∀ c ∈ v.head?, c.isAlpha = false) :
      identifier v = .error ⟨.expectedCharRange .letters, v⟩ := by
    rcases v with _ | ⟨c, v⟩
    · rfl
    · simp [identifier, hv c rfl]
  by_cases h : ∃ c ∈ u.head?, c.isAlpha = true
  · obtain ⟨c, hc, halpha⟩ := h
    obtain ⟨w, rfl⟩ := List.head?_eq_some_iff.mp hc
    obtain ⟨htake, hdrop⟩ := hu.tail.span_flow isBreak_not_isIdentifierChar
    have hspace : c ≠ ' ' := by rintro rfl; contradiction
    have hbreak : c ≠ '\n' := by rintro rfl; contradiction
    refine parallel_ok_inside
      (a := String.ofList (c :: w.takeWhile isIdentifierChar)) (by simp [identifier, halpha]) ?_
      (hu.tail.of_suffix (List.dropWhile_suffix isIdentifierChar)) ⟨rfl, rfl⟩
    rw [hu.flowAt_cons hspace hbreak]
    simp [identifier, halpha, htake, hdrop]
  · have hnone : ∀ c ∈ u.head?, c.isAlpha = false := by simpa using h
    refine parallel_error (hfails hnone) (hfails fun c hc => ?_)
    by_contra halpha
    have hblank := isBlank_eq_false_of_isAlpha (Bool.not_eq_false _ ▸ halpha)
    exact halpha (hnone c ((hu.head?_flowAt hblank).mp hc))

private theorem steady_digits : Steady f digits := by
  refine (steady_takeWhile isBreak_not_isDigit).bind fun digits => ?_
  dsimp only
  split
  · exact steady_fail_bind _ _
  · exact steady_pure digits

private theorem steady_fraction : Steady f fraction := by
  intro u hu
  have hnone {v : List Char} (hv : v.head? ≠ some '.') : fraction v = .ok ([], v) := by
    rcases v with _ | ⟨c, v⟩
    · rfl
    · have hc : c ≠ '.' := by simpa using hv
      simp [fraction, hc]
  by_cases h : u.head? = some '.'
  · obtain ⟨w, rfl⟩ : ∃ w, u = '.' :: w := by
      rcases u with _ | ⟨d, w⟩
      · contradiction
      · exact ⟨w, by rw [Option.some.inj h]⟩
    obtain ⟨htake, hdrop⟩ := hu.tail.span_flow isBreak_not_isDigit
    by_cases hd : (w.takeWhile Char.isDigit).isEmpty
    · refine parallel_ok_inside (a := []) (w := '.' :: w) (by simp [fraction, hd]) ?_ hu
        ⟨rfl, rfl⟩
      rw [f.flowAt_false, f.flow_cons (by decide)]
      simp [fraction, htake, hd]
    · refine parallel_ok_inside (a := w.takeWhile Char.isDigit)
        (w := w.dropWhile Char.isDigit) (by simp [fraction, hd]) ?_
        (hu.tail.of_suffix (List.dropWhile_suffix Char.isDigit)) ⟨rfl, rfl⟩
      rw [f.flowAt_false, f.flow_cons (by decide)]
      simp [fraction, htake, hdrop, hd]
  · exact parallel_ok (hnone h) (hnone ((hu.head?_flowAt (by decide)).not.mpr h)) hu ⟨rfl, rfl⟩

/-- A number stands inside a line. -/
theorem steady_numberLiteral : Steady f numberLiteral :=
  (steady_accept (by decide)).bind fun _ => steady_digits.bind fun _ => steady_fraction.map_pure _

/-! ## Strings -/

private theorem steady_codePoint (marker : Char) (count : Nat) :
    Steady f (codePoint marker count) := by
  intro u hu
  have hp : ∀ c, isBreak c = true → isHexDigit c = false := by
    intro c hc
    rcases isBreak_iff.mp hc with rfl | rfl <;> rfl
  obtain ⟨digits, hdigits⟩ : ∃ digits, (u.take count).takeWhile isHexDigit = digits := ⟨_, rfl⟩
  have hsame : ((f.flow u).take count).takeWhile isHexDigit = digits := by
    rw [← List.take_takeWhile, (hu.span_flow hp).1, List.take_takeWhile, hdigits]
  obtain ⟨w, rfl⟩ : ∃ w, u = digits ++ w := by
    obtain ⟨w, hw⟩ := (List.takeWhile_prefix isHexDigit).trans (List.take_prefix count u)
    exact ⟨w, by rw [← hdigits, hw]⟩
  have hbreak : ∀ c ∈ digits, isBreak c = false := by
    intro c hc
    by_contra h
    rw [← hdigits] at hc
    exact absurd (List.mem_takeWhile_imp hc) (by simp [hp c (by simpa using h)])
  have hline : codePoint marker count (digits ++ w) =
      if digits.length = count then .ok (charOfCodePoint (hexValue digits), w)
      else .error ⟨.invalidUnicodeEscape (String.ofList ('\\' :: marker :: digits)), w⟩ := by
    simp only [codePoint, hdigits, List.drop_left]
  have hflow : codePoint marker count (f.flowAt false (digits ++ w)) =
      if digits.length = count then .ok (charOfCodePoint (hexValue digits), f.flowAt false w)
      else .error ⟨.invalidUnicodeEscape (String.ofList ('\\' :: marker :: digits)),
        f.flowAt false w⟩ := by
    rw [f.flow_append hbreak] at hsame
    simp only [codePoint, f.flowAt_false, f.flow_append hbreak, hsame, List.drop_left]
  split_ifs at hline hflow
  · exact parallel_ok hline hflow (hu.of_suffix (List.suffix_append _ _)) ⟨rfl, rfl⟩
  · exact parallel_error hline hflow

private theorem steady_escape : Steady f escape := by
  refine steady_of_cons .unterminatedString rfl (fun c u hc => ?_)
    fun c u hcons hu => ?_
  · rcases isBreak_iff.mp hc with rfl | rfl <;> rfl
  have hline := escape_cons c u
  have hflow := escape_cons c (f.flowAt false u)
  rw [← hcons] at hflow
  split_ifs at hline hflow
  · exact parallel_ok hline hflow hu.tail ⟨rfl, rfl⟩
  · exact parallel_ok hline hflow hu.tail ⟨rfl, rfl⟩
  · exact (steady_codePoint 'u' 4 hu.tail).of_eq hline hflow
  · exact (steady_codePoint 'U' 6 hu.tail).of_eq hline hflow
  · exact parallel_error hline hflow
  · exact parallel_error hline hflow

private theorem steady_stringStep (read : List Char) : Steady f (stringStep read) := by
  refine steady_of_cons .unterminatedString rfl (fun c u hc => ?_)
    fun c u hcons hu => ?_
  · rcases isBreak_iff.mp hc with rfl | rfl <;> rfl
  have hline := stringStep_cons read c u
  have hflow := stringStep_cons read c (f.flowAt false u)
  rw [← hcons] at hflow
  split_ifs at hline hflow
  · exact parallel_ok hline hflow hu ⟨rfl, rfl⟩
  · exact (steady_escape.map_pure _ hu.tail).of_eq hline hflow
  · exact parallel_error hline hflow
  · exact parallel_ok hline hflow hu.tail ⟨rfl, rfl⟩

/-- A string and its source form stand within a line, before a quote. -/
private theorem parallel_string (hu : f.Suits false u) :
    Parallel f (fun a a' place w => a' = a ∧ place = false ∧ ∃ after, w = '"' :: after)
      (withText (loop stringStep [])) (withText (loop stringStep [])) false u := by
  have hloop : Parallel f SameInside (loop stringStep []) (loop stringStep []) false u :=
    Steady.loop advances_stringStep steady_stringStep [] hu
  unfold Parallel Reader.withText at *
  rcases hr : loop stringStep [] u with failure | ⟨value, w⟩ <;>
    rcases hr' : loop stringStep [] (f.flowAt false u) with failure' | ⟨value', w'⟩ <;>
    simp only [hr, hr'] at hloop ⊢
  · exact hloop
  · obtain ⟨place, rfl, hw, rfl, rfl⟩ := hloop
    obtain ⟨raw, after, rfl, rfl, hraw, -⟩ := (string_replays u).ok hr
    refine ⟨false, rfl, hw, ?_, rfl, after, rfl⟩
    rw [f.flowAt_false, f.flowAt_false, f.flow_append hraw, before_append, before_append]

/-- A string stands inside a line. -/
theorem steady_stringLiteral : Steady f stringLiteral := by
  intro u hu
  refine (parallel_expect (by decide) hu).bind_inside fun _ w hw =>
    (parallel_string hw).bind fun result _ place w hw h => ?_
  obtain ⟨rfl, rfl, after, rfl⟩ := h
  have hadvance : Parallel f SameInside advance advance false ('"' :: after) :=
    parallel_ok_inside rfl rfl hw.tail ⟨rfl, rfl⟩
  exact hadvance.map_inside _

/-! ## Literals -/

/-- Whether a number starts is told inside a line. -/
theorem startsNumber_flowAt (hu : f.Suits false u) :
    startsNumber (f.flowAt false u) = startsNumber u := by
  rcases u with _ | ⟨c, u⟩
  · rfl
  by_cases hbreak : c = '\n'
  · subst hbreak
    obtain ⟨d, e, hlineEnd, hd⟩ := f.isLineEnd.exists_cons
    rw [f.flowAt_false, f.flow_lineFeed, hlineEnd, List.cons_append]
    rcases isBreak_iff.mp hd with rfl | rfl <;> rfl
  · have hdigit : (f.flow u).head?.any Char.isDigit = u.head?.any Char.isDigit := by
      rw [Bool.eq_iff_iff, Option.any_eq_true, Option.any_eq_true]
      have hblank {d : Char} (hd : d.isDigit = true) : isBlank d = false := by
        by_contra h
        rcases isBlank_iff.mp (by simpa using h) with rfl | h
        · contradiction
        · rw [isBreak_not_isDigit d h] at hd
          contradiction
      refine exists_congr fun d => and_congr_left fun hd => ?_
      exact hu.tail.head?_flowAt (hblank hd)
    rw [f.flowAt_false, f.flow_cons hbreak, startsNumber, startsNumber, hdigit]

/-- A literal, or what is read in its place, is told by the first characters. -/
theorem steady_of_literal {α : Type} {r : Reader α} (other : Reader α)
    {ofString : StringLiteral → α} {ofNumber : NumberLiteral → α}
    (hr : ∀ text, r text =
      if text.head? = some '"' then (stringLiteral >>= fun l => pure (ofString l)) text
      else if startsNumber text then (numberLiteral >>= fun l => pure (ofNumber l)) text
      else other text)
    (hother : Steady f other) : Steady f r := by
  intro u hu
  have hline := hr u
  have hflow := hr (f.flowAt false u)
  simp only [hu.head?_flowAt (c := '"') (by decide), startsNumber_flowAt hu] at hflow
  split_ifs at hline hflow
  · exact (steady_stringLiteral.map_pure _ hu).of_eq hline hflow
  · exact (steady_numberLiteral.map_pure _ hu).of_eq hline hflow
  · exact (hother hu).of_eq hline hflow

/-- Literals are read steadily. -/
theorem steady_literal : Steady f literal :=
  steady_of_literal (fail .missingLiteral) literal_apply (steady_fail _)

end Phrasebook.Reader
