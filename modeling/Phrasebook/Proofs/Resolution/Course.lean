import Phrasebook.Proofs.Resolution.Run

/-!
# The course of a resolution

A resolution that keeps a record of the moments it passes. It comes to the same as the resolution
without a record, and each moment follows from the one before by a single step: an error is
recorded, a placeable is counted or its expression started, a frame is opened or closed, or the
context is handed over to a term or taken back. What these steps keep therefore holds in every
moment.
-/

namespace Phrasebook

/-- The error tells that the limit of placeables was exceeded. -/
def ResolutionError.isOverBudget : ResolutionError → Bool
  | tooManyPlaceables _ => true
  | _ => false

/-- An error that is no limit is not about placeables. -/
theorem ResolutionError.isOverBudget_of_isLimit {e : ResolutionError} (h : e.isLimit = false) :
    e.isOverBudget = false := by
  cases e with
  | tooManyPlaceables limit => cases h
  | _ => rfl

/-- A point in a resolution: the context, and the placeables whose expression has been started, in
order. Braces that stand directly inside braces belong to the placeable around them. -/
structure Moment where
  context : Context
  started : List Expression

namespace Moment

/-- The moment with another context. -/
def within (m : Moment) (c : Context) : Moment := { m with context := c }

/-- The moment in which the expression of one more placeable has been started. -/
def start (m : Moment) (e : Expression) : Moment := { m with started := m.started ++ [e] }

/-- What a resolution does from one moment to the next. A placeable is counted only where the
expressions of all before it have been started, an expression is started only where its placeable
has just been counted within the limit, and a frame is opened only where it is not open yet and
there is room for it. What takes the context of a term back has the same limits. -/
inductive Step : Moment → Moment → Prop
  | rest (m : Moment) : Step m m
  | report (m : Moment) {e : ResolutionError} : e.isOverBudget = false →
    Step m (m.within (m.context.report e))
  | count (m : Moment) : m.context.placeables = m.started.length + m.context.exhausted.toNat →
    Step m (m.within m.context.countPlaceable)
  | start (m : Moment) (e : Expression) : m.context.exhausted = false →
    m.context.placeables = m.started.length + 1 → Step m (m.start e)
  | enter (m : Moment) (frame : Frame) : frame ∉ m.context.stack →
    m.context.stack.length < m.context.maxDepth →
    Step m (m.within { m.context with stack := frame :: m.context.stack })
  | leave (m : Moment) : Step m (m.within { m.context with stack := m.context.stack.tail })
  | lend (m : Moment) (scope : Arguments) : Step m (m.within (m.context.child scope))
  | absorb (m : Moment) (outer : Context) : outer.maxDepth = m.context.maxDepth →
    outer.maxPlaceables = m.context.maxPlaceables →
    Step m (m.within (outer.emptied.absorb m.context))

end Moment

/-- The moments that a resolution has passed. -/
structure Course where
  now : Moment
  /-- The moments before, the latest first. -/
  past : List Moment

namespace Course

/-- All moments, in order. -/
def moments (course : Course) : List Moment := (course.now :: course.past).reverse

/-- Passes on to another moment. -/
def next (course : Course) (m : Moment) : Course := ⟨m, course.now :: course.past⟩

/-- Steps lead from the first moment to the last. -/
inductive From (first : Moment) : Course → Prop
  | start : From first ⟨first, []⟩
  | step {course : Course} {m : Moment} :
    From first course → course.now.Step m → From first (course.next m)

variable {first : Moment} {course : Course}

/-- What holds at first and is kept by every step holds in every moment. -/
theorem From.all {I : Moment → Prop} (h : course.From first) (hfirst : I first)
    (hstep : ∀ m m' : Moment, m.Step m' → I m → I m') : ∀ m ∈ course.moments, I m := by
  suffices hall : ∀ m ∈ course.now :: course.past, I m by
    intro m hm
    exact hall m (List.mem_reverse.mp hm)
  induction h with
  | start =>
    intro m hm
    rw [List.mem_singleton.mp hm]
    exact hfirst
  | step hcourse hstep' ih =>
    intro m hm
    rcases List.mem_cons.mp hm with rfl | hm
    · exact hstep _ _ hstep' (ih _ List.mem_cons_self)
    · exact ih m hm

end Course

/-- A resolution that keeps a record of the moments it passes. -/
abbrev Recorded := StateM Course

namespace Recorded

open Resolution

variable {α : Type}

/-- Takes a step of a resolution, and records the moment before it. -/
def step (m : Resolution α) : Recorded α := fun course =>
  ((m.run course.now.context).1, course.next (course.now.within (m.run course.now.context).2))

/-- Records that the expression of a placeable is started. -/
def start (e : Expression) : Recorded Unit := modify fun course => course.next (course.now.start e)

/-- Runs a step inside a frame. -/
def inFrame (frame : Frame) (w : Recorded α) : Recorded α := do
  step (modify fun c => { c with stack := frame :: c.stack })
  let result ← w
  step (modify fun c => { c with stack := c.stack.tail })
  return result

/-- Runs a step in a context of its own, which sees the given variables and no others. -/
def withScope (scope : Arguments) (w : Recorded α) : Recorded α := do
  let outer ← step get
  step (set (outer.child scope))
  let result ← w
  step (modify outer.emptied.absorb)
  return result

/-- Resolves a pattern inside a frame, or tells why the frame cannot be opened. -/
abbrev Opening := Frame → Pattern → Recorded (Except ResolutionError String)

/-- The text of a message or of an attribute of it. -/
def openMessage (r : Resolver) (o : Opening) (id : String) (attr : Option String) :
    Recorded (Except String String) := do
  let result ←
    match r.messagePattern id attr with
    | .ok p => o (.message id attr) p
    | .error e => pure (.error e)
  step (orFallback (braced (referenceName id attr)) result)

/-- The text of a term or of an attribute of it, which sees only the given variables. -/
def openTerm (r : Resolver) (o : Opening) (id : String) (attr : Option String)
    (scope : Arguments) : Recorded (Except String String) := do
  let result ←
    match r.termPattern id attr with
    | .ok p => withScope scope (o (.term id attr) p)
    | .error e => pure (.error e)
  step (orFallback (braced ("-" ++ referenceName id attr)) result)

mutual

/-- The value of an expression, or the fallback for it. -/
def expression (r : Resolver) (o : Opening) : Expression → Recorded (Except String Value)
  | .string l => return .ok (.string l.value)
  | .number l => return .ok (.number (.ofLiteral l))
  | .variableRef name => step (Resolver.variableValue name)
  | .messageRef id attr => return (← openMessage r o id attr).map .string
  | .termRef id attr arguments =>
    return (← openTerm r o id attr (Resolver.termScope arguments)).map .string
  | .call name ⟨positional, named⟩ => do
    let positional ← values r o positional
    step (r.call name positional (NamedArgument.values named))
  | .select selector variants => do
    let selected ← expression r o selector
    match Variant.choose? r.locale (variantTexts r o variants) selected.toOption with
    | some (_, text) => return .ok (.string (← text))
    | none => step (orFallback (braced "???") (.error .noVariants))
  | .placeable inner => expression r o inner

/-- The values of expressions, up to the first that has none. -/
def values (r : Resolver) (o : Opening) : List Expression → Recorded (Option (List Value))
  | [] => return some []
  | first :: rest => do
    match ← expression r o first with
    | .ok value => return (← values r o rest).map (value :: ·)
    | .error _ => return none

/-- Variants, each with the step that writes it. -/
def variantTexts (r : Resolver) (o : Opening) : List Variant → List (Variant × Recorded String)
  | [] => []
  | ⟨key, value, isDefault⟩ :: rest =>
    (⟨key, value, isDefault⟩, elements r o (r.useIsolating && 1 < value.length) value) ::
      variantTexts r o rest

/-- The text of the elements of a pattern. -/
def elements (r : Resolver) (o : Opening) (isolating : Bool) : List PatternElement → Recorded String
  | [] => return ""
  | .text value :: rest => do
    if ← step exhausted then return ""
    return value ++ (← elements r o isolating rest)
  | .placeable inner :: rest => do
    step count
    if ← step exhausted then return ""
    start inner
    let result ← expression r o inner
    let text ← step (r.writeResult result)
    return (if isolating && inner.isIsolated then isolate text else text) ++
      (← elements r o isolating rest)

end

/-- The text of a pattern. -/
def pattern (r : Resolver) (o : Opening) (p : Pattern) : Recorded String :=
  elements r o (r.useIsolating && 1 < p.length) p

/-- Opens a frame, given how many may be opened inside each other. -/
def opening (r : Resolver) : (room : Nat) → Opening
  | room, frame, p => do
    let context ← step get
    if frame ∈ context.stack then return .error (.cyclicReference frame.text)
    match room with
    | 0 => return .error (.tooDeep context.maxDepth)
    | room + 1 => return .ok (← inFrame frame (pattern r (opening r room) p))

end Recorded

/-- What a caller may ask for: a message or an attribute of it, or a pattern of its own. -/
inductive Request where
  | message (id : String) (attr : Option String)
  | pattern (p : Pattern)

/-- The text for a request. -/
def Recorded.respond (r : Resolver) (room : Nat) : Request → Recorded String
  | .message id attr => return Resolver.shown (← openMessage r (opening r room) id attr)
  | .pattern p => pattern r (opening r room) p

namespace Resolver

/-- The text for a request, and the errors that were met. -/
def answer (r : Resolver) (args : Option Arguments) : Request → String × List ResolutionError
  | .message id attr => r.resolve id attr args
  | .pattern p => r.resolvePattern p args

/-- The moment in which a resolver begins. -/
def outset (r : Resolver) (args : Option Arguments) : Moment := ⟨r.start args, []⟩

/-- The text for a request, and the course in which it came about. -/
def record (r : Resolver) (args : Option Arguments) (request : Request) : String × Course :=
  (Recorded.respond r (r.start args).room request).run ⟨r.outset args, []⟩

end Resolver

end Phrasebook
