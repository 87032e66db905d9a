/-!
# Files

A tree of files by their paths, and what reading one of them yields. A path is followed one part at
a time; only a directory leads further.
-/

namespace Phrasebook

/-- Why a file cannot be read. -/
inductive FileProblem where
  | notFound
  | isDirectory
  | notDirectory
  | nameTooLong
  | invalidPath
  | invalidData
  deriving DecidableEq

/-- The text of a problem. -/
def FileProblem.text : FileProblem → String
  | notFound => "entity not found"
  | isDirectory => "is a directory"
  | notDirectory => "not a directory"
  | nameTooLong => "invalid filename"
  | invalidPath => "invalid input parameter"
  | invalidData => "invalid data"

/-- Where a path leads: to the place in the tree with these names on the way to it, or to a
directory outside the tree, of which nothing else is known. -/
inductive Place where
  | inside (names : List String)
  | outside
  deriving DecidableEq

/-- The place that holds a place. What holds the tree is outside of it. -/
def Place.parent : Place → Place
  | inside [] => outside
  | inside names => inside names.dropLast
  | outside => outside

/-- Files with their contents, by the names on the way to them. The directories are those on the way
to a file. -/
structure FileTree where
  files : List (List String × ByteArray) := []

namespace FileTree

/-- The most bytes of a name. -/
def maxNameLength : Nat := 255

/-- The most bytes of a path. -/
def maxPathLength : Nat := 4095

/-- The parts of a path. A path that ends with `/` ends in a directory, as one that ends with `/.`
does. -/
def parts (path : String) : List String :=
  (path.splitOn "/").filter (· != "") ++ if path.endsWith "/" then ["."] else []

/-- Adds a file. -/
def insert (tree : FileTree) (path : String) (content : ByteArray) : FileTree :=
  ⟨((parts path).filter (· != "."), content) :: tree.files⟩

/-- The content of a file. -/
def content? (tree : FileTree) : Place → Option ByteArray
  | .inside names => tree.files.lookup names
  | .outside => none

/-- The place is a directory. -/
def isDirectory (tree : FileTree) : Place → Bool
  | .inside names =>
    names.isEmpty || tree.files.any fun (file, _) => names.isPrefixOf file && names != file
  | .outside => true

/-- Why a place that is not a directory leads nowhere. -/
def noDirectory (tree : FileTree) (place : Place) : FileProblem :=
  if (tree.content? place).isSome then .notDirectory else .notFound

/-- Follows one part from a place, which must be a directory: `.` stays there and `..` leads to the
directory above. -/
def follow (tree : FileTree) (place : Place) (part : String) : Except FileProblem Place :=
  if !tree.isDirectory place then .error (tree.noDirectory place)
  else if part = "." then .ok place
  else if part = ".." then .ok place.parent
  else if maxNameLength < part.utf8ByteSize then .error .nameTooLong
  else match place with
    | .inside names => .ok (.inside (names ++ [part]))
    | .outside => .error .notFound

/-- The place to which a path leads: from outside the tree if it begins with `/`, and else from the
top of the tree. -/
def locate (tree : FileTree) (path : String) : Except FileProblem Place :=
  if path.toList.any (·.toNat = 0) then .error .invalidPath
  else if path.isEmpty then .error .notFound
  else if maxPathLength < path.utf8ByteSize then .error .nameTooLong
  else (parts path).foldlM tree.follow (if path.startsWith "/" then .outside else .inside [])

/-- The content of a file as text. -/
def read (tree : FileTree) (path : String) : Except FileProblem String := do
  let place ← tree.locate path
  match tree.content? place with
  | some content =>
    match String.fromUTF8? content with
    | some text => return text
    | none => throw .invalidData
  | none => throw (if tree.isDirectory place then .isDirectory else .notFound)

/-- A path inside a directory; a path that begins with `/` stands for itself. -/
def join (directory path : String) : String :=
  if path.startsWith "/" then path
  else if directory.isEmpty || directory.endsWith "/" then directory ++ path
  else directory ++ "/" ++ path

end FileTree

end Phrasebook
