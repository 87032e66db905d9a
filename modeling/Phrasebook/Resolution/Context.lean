import Phrasebook.Resolution.Error
import Phrasebook.Syntax.Tree

/-!
# The context of a resolution

What a resolution carries along: the variables in sight, the messages and terms it is inside of, the
placeables it has written, and the errors it has met.
-/

namespace Phrasebook

/-- A message or term, or an attribute of one, whose pattern is being resolved. -/
inductive Frame where
  | message (id : String) (attr : Option String)
  | term (id : String) (attr : Option String)
  deriving DecidableEq

/-- A frame as it is referred to. -/
def Frame.text : Frame → String
  | message id attr => referenceName id attr
  | term id attr => "-" ++ referenceName id attr

/-- The state of a resolution. -/
structure Context where
  /-- The variables in sight, if there are any. -/
  scope : Option Arguments
  /-- The frames that are open, the innermost first. -/
  stack : List Frame
  /-- How many frames may be open. -/
  maxDepth : Nat
  /-- How many placeables have been counted. -/
  placeables : Nat
  /-- How many placeables may be written. -/
  maxPlaceables : Nat
  /-- The limit of placeables has been exceeded, which ends all output. -/
  exhausted : Bool
  /-- The errors so far, in order. -/
  errors : List ResolutionError

/-- A step of a resolution. -/
abbrev Resolution := StateM Context

namespace Context

/-- The context in which a resolution begins. -/
def initial (scope : Option Arguments) (maxDepth maxPlaceables : Nat) : Context where
  scope
  stack := []
  maxDepth
  placeables := 0
  maxPlaceables
  exhausted := false
  errors := []

/-- The value of a variable, if it is in sight. -/
def lookup? (c : Context) (name : String) : Option Value :=
  c.scope.bind fun scope => scope.lookup name

/-- Records an error. -/
def report (c : Context) (e : ResolutionError) : Context := { c with errors := c.errors ++ [e] }

/-- Counts a placeable, unless the limit is exceeded; the first one beyond it is an error. -/
def countPlaceable (c : Context) : Context :=
  if c.exhausted then c
  else if c.placeables < c.maxPlaceables then { c with placeables := c.placeables + 1 }
  else
    { c with placeables := c.placeables + 1, exhausted := true }.report
      (.tooManyPlaceables c.maxPlaceables)

/-- The context for a term: it sees the given variables and no others. The frames, the placeables
and the errors are handed over to it. -/
def child (c : Context) (scope : Arguments) : Context := { c with scope := some scope }

/-- What is left of a context that has handed over its frames and errors. -/
def emptied (c : Context) : Context := { c with stack := [], errors := [] }

/-- Takes the frames, the placeables and the errors back from the context of a term. -/
def absorb (c child : Context) : Context :=
  { c with
    stack := child.stack
    placeables := child.placeables
    exhausted := child.exhausted
    errors := child.errors }

/-- How many more frames may be opened. -/
def room (c : Context) : Nat := c.maxDepth - c.stack.length

end Context

namespace Resolution

variable {α : Type}

/-- Records an error. -/
def report (e : ResolutionError) : Resolution Unit := modify (·.report e)

/-- Runs a step inside a frame. -/
def inFrame (frame : Frame) (step : Resolution α) : Resolution α := do
  modify fun c => { c with stack := frame :: c.stack }
  let result ← step
  modify fun c => { c with stack := c.stack.tail }
  return result

/-- Runs a step in a context of its own, which sees the given variables and no others. -/
def withScope (scope : Arguments) (step : Resolution α) : Resolution α := do
  let outer ← get
  set (outer.child scope)
  let result ← step
  modify outer.emptied.absorb
  return result

/-- Replaces an error by a fallback, and records it. -/
def orFallback (fallback : String) : Except ResolutionError α → Resolution (Except String α)
  | .ok a => return .ok a
  | .error e => do
    report e
    return .error fallback

end Resolution

end Phrasebook
