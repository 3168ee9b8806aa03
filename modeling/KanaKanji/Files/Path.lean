/-!
# Paths

A path is a row of names with slashes between them. Empty names and `.` stand for the directory that
they are in, and `..` for the one above it. A path that begins with a slash leads from the root, any
other from the working directory.
-/

set_option autoImplicit false

namespace KanaKanji.Path

/-- The number of bytes that a path may have. -/
def maxSize : Nat := 4095

/-- The number of bytes that a name may have. -/
def maxNameSize : Nat := 255

/-- The names of a path. -/
def names (path : String) : List String := (path.toList.splitOn '/').map String.ofList

/-- Whether a path leads from the root. -/
def isAbsolute (path : String) : Bool := path.toList.head? = some '/'

/-- The last name of a path that is not empty. -/
structure LastName where
  /-- The names before it. -/
  before : List String
  name : String
  /-- Whether a slash follows it. -/
  slashed : Bool
  deriving DecidableEq, Repr

/-- Whether a name stands for a directory by its place alone. -/
def LastName.isDots (last : LastName) : Bool := last.name = "." || last.name = ".."

/-- The last name of a path; none if the path is empty or has only slashes. -/
def lastName? (path : String) : Option LastName :=
  match (names path).reverse.dropWhile (· = "") with
  | [] => none
  | name :: before => some ⟨before.reverse, name, path.toList.getLast? = some '/'⟩

/-- The names of a path that lead from one directory to another. -/
def moves (path : String) : List String :=
  (names path).filter fun name ↦ name != "" && name != "."

/-- The path of the directory that the first names of a path lead to. -/
def front (path : String) (count : Nat) : String :=
  (if isAbsolute path then "/" else "") ++ "/".intercalate ((moves path).take count)

/-- A path and those of the directories that it leads through, by its names alone, the deepest
first. -/
def ancestors (path : String) : List String :=
  path :: ((List.range ((moves path).length - 1)).reverse.map fun i ↦ front path (i + 1))

end KanaKanji.Path
