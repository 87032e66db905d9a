import Phrasebook.Bundle

/-!
# Localizations

Bundles of several locales in order of preference. A message is taken from the first bundle that
resolves it without a reference to something missing, or else from the last one.
-/

namespace Phrasebook

/-- Supplies the source of a resource for a locale, which may not have it. -/
abbrev Loader := (locale resource : String) → Except LoadError (Option String)

/-- Loads the file `root/locale/resource`; a file that does not exist is a missing resource. -/
def FileTree.loader (files : FileTree) (root : String) : Loader := fun locale resource =>
  let path := FileTree.join (FileTree.join root locale) resource
  match files.read path with
  | .ok source => .ok (some source)
  | .error .notFound => .ok none
  | .error problem => .error (.unreadable path problem)

/-- Bundles in order of preference. -/
structure Localization where
  bundles : List Bundle := []

namespace Localization

/-- Adds to a bundle what a loader has for its locale. -/
def loadBundle (load : Loader) (b : Bundle) :
    List String → Except LoadError (Bundle × List LoadWarning)
  | [] => .ok (b, [])
  | resource :: rest => do
    let (b, warnings) ←
      match ← load b.locale resource with
      | some source => b.addSource source
      | none => pure (b, [.missingResource b.locale resource])
    let (b, others) ← loadBundle load b rest
    return (b, warnings ++ others)

/-- One bundle a locale, in the given order, with all resources that a loader has for it. -/
def ofLoader (load : Loader) (resources : List String) :
    List String → Except LoadError (Localization × List LoadWarning)
  | [] => .ok ({}, [])
  | locale :: rest => do
    let (bundle, warnings) ← loadBundle load { locale } resources
    let (localization, others) ← ofLoader load resources rest
    return (⟨bundle :: localization.bundles⟩, warnings ++ others)

/-- The first result without a reference error, or else the last one. -/
def formatWith (id : String) (attr : Option String) (arguments : Option Arguments) :
    List Bundle → String × List ResolutionError
  | [] => (braced id, [.unknownMessage id []])
  | [last] => last.format id attr arguments
  | first :: rest =>
    let (text, errors) := first.format id attr arguments
    if errors.any fun e => e.kind = .reference then formatWith id attr arguments rest
    else (text, errors)

/-- The text of a message, or of an attribute of it, and the errors that were met. -/
def format (l : Localization) (id : String) (attr : Option String) (arguments : Option Arguments) :
    String × List ResolutionError :=
  formatWith id attr arguments l.bundles

end Localization

end Phrasebook
