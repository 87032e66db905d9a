import Mathlib.Data.List.Nodup
import Phrasebook.Proofs.Resolution.Intact
import Phrasebook.Proofs.Resolution.ReferenceGraph
import Phrasebook.Proofs.Resolution.Retracing

/-!
# The frames that are open

While a resolution runs, no frame is open twice and not too many are. When it is over, the frames
that are open and the variables in sight are those from before.
-/

namespace Phrasebook

namespace Moment

variable {m m' : Moment} {depth : Nat}

/-- What the limit of frames means for a moment. -/
structure Framed (depth : Nat) (m : Moment) : Prop where
  maxDepth : m.context.maxDepth = depth
  nodup : m.context.stack.Nodup
  length : m.context.stack.length ≤ depth

/-- Counting a placeable opens no frame. -/
theorem Framed.count (h : m.Framed depth) : (m.within m.context.countPlaceable).Framed depth := by
  rcases m.context.countPlaceable_cases with hcount | hcount | hcount
  · rw [hcount]
    exact h
  · rw [hcount]
    exact ⟨h.maxDepth, h.nodup, h.length⟩
  · rw [hcount]
    exact ⟨h.maxDepth, h.nodup, h.length⟩

/-- Every step keeps to the limit of frames. -/
theorem Step.framed (hstep : m.Step m') (h : m.Framed depth) : m'.Framed depth := by
  cases hstep with
  | rest => exact h
  | report _ => exact ⟨h.maxDepth, h.nodup, h.length⟩
  | count _ => exact h.count
  | start _ _ _ => exact ⟨h.maxDepth, h.nodup, h.length⟩
  | enter frame hnew hroom =>
    refine ⟨h.maxDepth, List.nodup_cons.mpr ⟨hnew, h.nodup⟩, ?_⟩
    rw [h.maxDepth] at hroom
    exact hroom
  | leave =>
    refine ⟨h.maxDepth, h.nodup.tail, ?_⟩
    have hlength := h.length
    simp only [within, List.length_tail]
    omega
  | lend _ => exact ⟨h.maxDepth, h.nodup, h.length⟩
  | absorb outer hdepth _ => exact ⟨hdepth.trans h.maxDepth, h.nodup, h.length⟩

end Moment

namespace Resolver

open Resolution

/-- In every moment of a resolution, the open frames keep to their limit. -/
theorem framed_record (r : Resolver) (args : Option Arguments) (request : Request) :
    ∀ m ∈ (r.record args request).2.moments, m.Framed r.maxDepth := by
  have hfirst : (r.outset args).Framed r.maxDepth := ⟨rfl, List.nodup_nil, Nat.zero_le _⟩
  exact (r.from_record args request).all hfirst fun m m' hstep h => hstep.framed h

/-- Whatever the context is in which an expression or a pattern is resolved, it is handed back: the
open frames, the variables in sight and the limits are those from before, errors and placeables were
only added, what was exhausted still is, and where there is a fallback, an error was recorded. And
in every moment of the resolution of a request, the open frames are different from each other and
not more than the limit; the moments are those of a record that comes to the answer to the request
by single steps. -/
theorem resolution_intact (r : Resolver) :
    (∀ c e, HandsBack (r.expression (r.opening c.room) e) c ∧
      ∀ fallback, ((r.expression (r.opening c.room) e).run c).1 = .error fallback →
        c.errors.length < ((r.expression (r.opening c.room) e).run c).2.errors.length) ∧
    (∀ c p, HandsBack (r.pattern (r.opening c.room) p) c) ∧
    ∀ args request,
      ((r.record args request).1, (r.record args request).2.now.context.errors) =
        r.answer args request ∧
      (r.record args request).2.From (r.outset args) ∧
      ∀ m ∈ (r.record args request).2.moments,
        m.context.stack.Nodup ∧ m.context.stack.length ≤ r.maxDepth := by
  refine ⟨?_, ?_, ?_⟩
  · intro c e
    exact ⟨intact_expression c.room e c, reports_expression c.room e c⟩
  · intro c p
    exact intact_pattern c.room p c
  · intro args request
    refine ⟨r.record_answer args request, r.from_record args request, ?_⟩
    intro m hm
    have hframed := r.framed_record args request m hm
    exact ⟨hframed.nodup, hframed.length⟩

/-- A context inside a message that refers to itself, after the limit of placeables was exceeded. -/
def looping : Context where
  scope := none
  stack := [.message "loop" none]
  maxDepth := 2
  placeables := 4
  maxPlaceables := 3
  exhausted := true
  errors := [.tooManyPlaceables 3]

/-- A message that refers to itself is reported more than once and handed back intact, and a chain
of messages opens as many frames as may be. -/
theorem resolution_intact_branching :
    HandsBack (branching.expression (branching.opening looping.room) (.messageRef "loop" none))
        looping ∧
      1 < ((branching.expression (branching.opening looping.room)
        (.messageRef "loop" none)).run looping).2.errors.length ∧
      ∃ m ∈ (branching.record none (.message "top" none)).2.moments,
        m.context.stack.length = branching.maxDepth ∧ m.context.stack.Nodup := by
  obtain ⟨hexpression, -, hrecord⟩ := resolution_intact branching
  obtain ⟨hback, hreports⟩ := hexpression looping (.messageRef "loop" none)
  have hfull : ∃ m ∈ (branching.record none (.message "top" none)).2.moments,
      m.context.stack.length = branching.maxDepth := by decide +kernel
  obtain ⟨m, hm, hlength⟩ := hfull
  obtain ⟨-, -, hmoments⟩ := hrecord none (.message "top" none)
  refine ⟨hback, hreports "\x7bloop\x7d" rfl, m, hm, hlength, ?_⟩
  exact (hmoments m hm).1

end Resolver

end Phrasebook
