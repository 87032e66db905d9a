import Phrasebook.Proofs.Resolution.Retracing
import Phrasebook.Proofs.Resolution.Truncation

/-!
# The budget of placeables

At every moment of a resolution, the counter, the mark that the limit was exceeded and the error
that tells so agree, and no more placeables have been started than the limit allows.
-/

namespace Phrasebook

namespace Moment

variable {m m' : Moment} {limit : Nat}

/-- What the limit of placeables means for a moment: no expression is started that was not counted,
all that were counted are started but for the last one, and the first one beyond the limit is told
once and ends all counting. -/
structure Budgeted (limit : Nat) (m : Moment) : Prop where
  maxPlaceables : m.context.maxPlaceables = limit
  started : m.started.length + m.context.exhausted.toNat ≤ m.context.placeables
  counted : m.context.placeables ≤ m.started.length + 1
  bound : m.context.placeables ≤ limit + 1
  exhausted : m.context.exhausted = true ↔ m.context.placeables = limit + 1
  told : m.context.errors.filter ResolutionError.isOverBudget =
    if m.context.exhausted then [.tooManyPlaceables limit] else []

/-- An error that is not about placeables keeps within the budget. -/
theorem Budgeted.report (h : m.Budgeted limit) {e : ResolutionError}
    (he : e.isOverBudget = false) : (m.within (m.context.report e)).Budgeted limit where
  maxPlaceables := h.maxPlaceables
  started := h.started
  counted := h.counted
  bound := h.bound
  exhausted := h.exhausted
  told := by
    rw [within, Context.report, List.filter_append, h.told]
    simp [he]

/-- The counter passes the limit only by exceeding it. -/
theorem Budgeted.placeables_le (h : m.Budgeted limit) (hgoing : m.context.exhausted = false) :
    m.context.placeables ≤ limit := by
  have hbound := h.bound
  have hnot : m.context.placeables ≠ limit + 1 := by
    intro hfull
    rw [h.exhausted.mpr hfull] at hgoing
    cases hgoing
  omega

/-- Counting is exact: within the limit, it goes up by one; beyond it, that is told; and then it
stands still. -/
theorem Budgeted.count (h : m.Budgeted limit)
    (hall : m.context.placeables = m.started.length + m.context.exhausted.toNat) :
    (m.within m.context.countPlaceable).Budgeted limit := by
  have hbound := h.bound
  have hmax := h.maxPlaceables
  have htold := h.told
  cases hexhausted : m.context.exhausted with
  | true =>
    rw [Context.countPlaceable_of_exhausted hexhausted]
    exact h
  | false =>
    rw [hexhausted] at hall htold
    have hwithin := h.placeables_le hexhausted
    rcases Nat.lt_or_ge m.context.placeables m.context.maxPlaceables with hlt | hle
    · rw [Context.countPlaceable_of_lt hexhausted hlt]
      constructor <;> simp [within, hexhausted, hmax, htold] at hall ⊢ <;> omega
    · rw [Context.countPlaceable_of_le hexhausted hle]
      constructor <;> simp [within, hmax, htold, ResolutionError.isOverBudget] at hall ⊢ <;> omega

/-- The expression of a placeable that was counted is started within the budget. -/
theorem Budgeted.start (h : m.Budgeted limit) {e : Expression}
    (hgoing : m.context.exhausted = false) (hdue : m.context.placeables = m.started.length + 1) :
    (m.start e).Budgeted limit where
  maxPlaceables := h.maxPlaceables
  started := by
    simp [Moment.start, hgoing]
    omega
  counted := by
    simp [Moment.start]
    omega
  bound := h.bound
  exhausted := h.exhausted
  told := h.told

/-- Every step keeps to the limit of placeables. -/
theorem Step.budgeted (hstep : m.Step m') (h : m.Budgeted limit) : m'.Budgeted limit := by
  cases hstep with
  | rest => exact h
  | report he => exact h.report he
  | count hall => exact h.count hall
  | start e hgoing hdue => exact h.start hgoing hdue
  | enter frame _ _ => exact ⟨h.maxPlaceables, h.started, h.counted, h.bound, h.exhausted, h.told⟩
  | leave => exact ⟨h.maxPlaceables, h.started, h.counted, h.bound, h.exhausted, h.told⟩
  | lend scope => exact ⟨h.maxPlaceables, h.started, h.counted, h.bound, h.exhausted, h.told⟩
  | absorb outer _ hlimit =>
    exact ⟨hlimit.trans h.maxPlaceables, h.started, h.counted, h.bound, h.exhausted, h.told⟩

/-- Nothing is started beyond the limit. -/
theorem Budgeted.length_started_le (h : m.Budgeted limit) : m.started.length ≤ limit := by
  have hstarted := h.started
  have hbound := h.bound
  cases hexhausted : m.context.exhausted with
  | true =>
    rw [hexhausted, Bool.toNat_true] at hstarted
    omega
  | false =>
    have hwithin := h.placeables_le hexhausted
    omega

end Moment

namespace Resolver

/-- In every moment of a resolution, the placeables keep to their limit. -/
theorem budgeted_record (r : Resolver) (args : Option Arguments) (request : Request) :
    ∀ m ∈ (r.record args request).2.moments, m.Budgeted r.maxPlaceables := by
  have hfirst : (r.outset args).Budgeted r.maxPlaceables := by
    constructor <;> simp [outset, start, Context.initial]
  exact (r.from_record args request).all hfirst fun m m' hstep h => hstep.budgeted h

/-- In every moment of the resolution of a request, no more expressions of placeables have been
started than the limit allows, as many placeables are counted as were started, or one more, the
limit is exceeded exactly where the counter is one beyond it, and then, and only then, one error
tells so. The moments are those of a record that comes to the answer to the request by single
steps. -/
theorem budget_exact (r : Resolver) (args : Option Arguments) (request : Request) :
    ((r.record args request).1, (r.record args request).2.now.context.errors) =
        r.answer args request ∧
      (r.record args request).2.From (r.outset args) ∧
      ∀ m ∈ (r.record args request).2.moments,
        m.started.length ≤ r.maxPlaceables ∧
          m.started.length ≤ m.context.placeables ∧
          m.context.placeables ≤ m.started.length + 1 ∧
          m.context.placeables ≤ r.maxPlaceables + 1 ∧
          (m.context.exhausted = true ↔ m.context.placeables = r.maxPlaceables + 1) ∧
          m.context.errors.filter ResolutionError.isOverBudget =
            if m.context.exhausted then [.tooManyPlaceables r.maxPlaceables] else [] := by
  refine ⟨r.record_answer args request, r.from_record args request, ?_⟩
  intro m hm
  have h := r.budgeted_record args request m hm
  have hstarted := h.started
  exact ⟨h.length_started_le, by omega, h.counted, h.bound, h.exhausted, h.told⟩

/-- A message that writes a term of two placeables and then a variable. -/
def exceedingSource : String :=
  "-t = \x7b $x \x7d\x7b $y \x7d\nm = \x7b -t \x7d\x7b $z \x7d\n"

/-- The limit is exceeded inside the term, and what was counted there counts outside of it. -/
theorem budget_exact_inside_term :
    ∃ m ∈ (((ofSource exceedingSource).withLimit 2).record none (.message "m" none)).2.moments,
      m.context.stack = [.message "m" none] ∧ m.context.exhausted = true ∧
        m.context.placeables = 3 ∧ m.started.length ≤ 2 ∧
        m.context.errors.filter ResolutionError.isOverBudget = [.tooManyPlaceables 2] := by
  have hfull : ∃ m ∈ (((ofSource exceedingSource).withLimit 2).record none
      (.message "m" none)).2.moments,
        m.context.stack = [.message "m" none] ∧ m.context.exhausted = true := by decide +kernel
  obtain ⟨m, hm, hstack, hexhausted⟩ := hfull
  obtain ⟨-, -, hmoments⟩ :=
    budget_exact ((ofSource exceedingSource).withLimit 2) none (.message "m" none)
  obtain ⟨hstarted, -, -, -, hfull, htold⟩ := hmoments m hm
  rw [hexhausted] at htold
  exact ⟨m, hm, hstack, hexhausted, hfull.mp hexhausted, hstarted, htold⟩

end Resolver

end Phrasebook
