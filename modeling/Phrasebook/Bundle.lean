import Phrasebook.Files
import Phrasebook.Resolution.Resolver
import Phrasebook.Syntax.Resource
import Phrasebook.Text.Position

/-!
# Bundles

The entries and functions of one locale, with the settings for resolving them. Sources are added one
after the other; the last entry with an id is the one that counts.
-/

namespace Phrasebook

/-- Why nothing was loaded. -/
inductive LoadError where
  /-- A file that cannot be read. -/
  | unreadable (path : String) (problem : FileProblem)
  /-- A source of which nothing but junk could be read. -/
  | noEntries (origin : String) (diagnostics : List Diagnostic)

/-- The text of an error. -/
def LoadError.message : LoadError → String
  | unreadable path problem => s!"failed to read '{path}': {problem.text}"
  | noEntries origin diagnostics =>
    s!"{origin}: no entries could be parsed ({diagnostics.length} syntax error(s))"

/-- The kind of an error; what goes wrong with files has none. -/
def LoadError.kind? : LoadError → Option ErrorKind
  | unreadable .. => none
  | noEntries .. => some .syntaxError

/-- What was noticed while loading. -/
inductive LoadWarning where
  /-- Junk at a line and column of a source. -/
  | junk (origin : String) (line column : Nat) (problem : Problem)
  /-- An entry that took the place of another. -/
  | overridden (origin : String) (id : String)
  /-- A resource that a locale does not have. -/
  | missingResource (locale : String) (resource : String)
  deriving DecidableEq

/-- The text of a warning. -/
def LoadWarning.message : LoadWarning → String
  | junk origin line column problem =>
    s!"{origin}:{line}:{column}: {problem.code}: {problem.message}"
  | overridden origin id => s!"{origin}: '{id}' overrides an earlier definition"
  | missingResource locale resource =>
    s!"resource '{resource}' not found for locale '{locale}'"

/-- The entries and functions of one locale. -/
structure Bundle where
  locale : String
  useIsolating : Bool := true
  maxDepth : Nat := defaultMaxDepth
  maxPlaceables : Nat := defaultMaxPlaceables
  entries : EntryTable := {}
  functions : FunctionTable := {}

namespace Bundle

/-- The name of a source that came without one. -/
def origin (b : Bundle) : String := "<" ++ b.locale ++ ">"

/-- Adds entries from a named source. -/
def addEntries (b : Bundle) (origin : String) (entries : List Entry) : Bundle × List LoadWarning :=
  let (table, names) := b.entries.insertAll entries
  ({ b with entries := table }, names.map (.overridden origin))

/-- Adds the entries of a resource. -/
def addResource (b : Bundle) (r : Resource) : Bundle × List LoadWarning :=
  b.addEntries b.origin r.entries

/-- The warning for junk in a source. -/
def junkWarning (origin source : String) (j : Junk) : LoadWarning :=
  let (line, column) := Text.lineColumn source.toList j.diagnostic.span.start
  .junk origin line column j.diagnostic.problem

/-- Reads a source with a name and adds its entries. A source with junk and without any message or
term is an error. -/
def load (b : Bundle) (origin source : String) : Except LoadError (Bundle × List LoadWarning) :=
  let r := Resource.parse source
  if r.messages.isEmpty && r.terms.isEmpty && !r.junk.isEmpty then
    .error (.noEntries origin (r.junk.map (·.diagnostic)))
  else
    let (b, warnings) := b.addEntries origin r.entries
    .ok (b, r.junk.map (junkWarning origin source) ++ warnings)

/-- Reads a source and adds its entries. -/
def addSource (b : Bundle) (source : String) : Except LoadError (Bundle × List LoadWarning) :=
  b.load b.origin source

/-- Reads a file and adds its entries. -/
def addFile (b : Bundle) (files : FileTree) (path : String) :
    Except LoadError (Bundle × List LoadWarning) :=
  match files.read path with
  | .ok source => b.load path source
  | .error problem => .error (.unreadable path problem)

/-- Adds a function that messages may call. -/
def addFunction (b : Bundle) (name : String) (function : Function) : Bundle :=
  { b with functions := b.functions.insert name function }

/-- The resolver for the messages of a bundle. -/
def resolver (b : Bundle) : Resolver where
  entries := b.entries
  functions := b.functions
  locale := b.locale
  useIsolating := b.useIsolating
  maxDepth := b.maxDepth
  maxPlaceables := b.maxPlaceables

/-- The text of a message, or of an attribute of it, and the errors that were met. -/
def format (b : Bundle) (id : String) (attr : Option String) (arguments : Option Arguments) :
    String × List ResolutionError :=
  b.resolver.resolve id attr arguments

/-- The text of a pattern, and the errors that were met. -/
def formatPattern (b : Bundle) (p : Pattern) (arguments : Option Arguments) :
    String × List ResolutionError :=
  b.resolver.resolvePattern p arguments

end Bundle

end Phrasebook
