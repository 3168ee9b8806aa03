import KanaKanji.Files.Access

/-!
# Files as a value

The files and directories that paths lead to. A place is given by the names that lead to it from the
working directory: `..` once for every step above it, or the root's own name `/`, and then the names
of what stands there. Nothing is known of the directories above the working directory but that they
are there.

Main statement: `node?_put` (what has been put in a place stands there).
-/

set_option autoImplicit false

namespace KanaKanji

/-- What a name stands for in a directory. -/
inductive FileNode
  | file (bytes : List UInt8)
  | directory
  deriving DecidableEq, Repr

/-- Files and directories by the names that lead to them. -/
structure Files where
  nodes : List (List String × FileNode) := []
  deriving DecidableEq, Repr

namespace Files

/-! ### Places -/

/-- Whether a place is the root, the working directory or one above it. -/
def isGiven (place : List String) : Bool := place.all fun name ↦ name = ".." || name = "/"

/-- The file or directory in a place. -/
def node? (files : Files) (place : List String) : Option FileNode :=
  if isGiven place then some .directory else files.nodes.lookup place

/-- The directory above a place. The root is above itself. -/
def above (place : List String) : List String :=
  if place = ["/"] then place
  else if isGiven place then place ++ [".."]
  else place.dropLast

/-- Refuses a place that is not a directory. -/
def enter (files : Files) (place : List String) : Except FileError Unit :=
  match files.node? place with
  | none => .error .notFound
  | some (.file _) => .error .notDirectory
  | some .directory => .ok ()

/-- Where a name leads to from a place, which has to be a directory. -/
def step (files : Files) (place : List String) (name : String) :
    Except FileError (List String) := do
  files.enter place
  if name = "" || name = "." then return place
  else if name = ".." then return above place
  else if Path.maxNameSize < name.utf8ByteSize then throw .nameTooLong
  else return place ++ [name]

/-- Where names lead to from where a path starts. -/
def walk (files : Files) (path : String) (names : List String) :
    Except FileError (List String) :=
  names.foldlM files.step (if Path.isAbsolute path then ["/"] else [])

/-- Refuses paths that are empty or too long. -/
def accept (path : String) : Except FileError Unit :=
  if path.isEmpty then .error .notFound
  else if Path.maxSize < path.utf8ByteSize then .error .nameTooLong
  else .ok ()

/-- Where a path leads to. -/
def place (files : Files) (path : String) : Except FileError (List String) := do
  accept path
  files.walk path (Path.names path)

/-- The directory that the last name of a path stands in. -/
def placeBefore (files : Files) (path : String) (last : Path.LastName) :
    Except FileError (List String) := do
  let parent ← files.walk path last.before
  files.enter parent
  return parent

/-! ### Reading and writing -/

/-- The files with a node in a place. -/
def put (files : Files) (place : List String) (node : FileNode) : Files :=
  ⟨(place, node) :: files.nodes.filter (·.1 != place)⟩

/-- The bytes of a file. -/
def read (files : Files) (path : String) : Except FileError (List UInt8) := do
  match files.node? (← files.place path) with
  | some (.file bytes) => return bytes
  | some .directory => throw .isDirectory
  | none => throw .notFound

/-- The files with the given bytes in a file, which has to stand in a directory. A name with a slash
after it is never that of a file. -/
def write (files : Files) (path : String) (bytes : List UInt8) : Except FileError Files := do
  accept path
  match Path.lastName? path with
  | none => throw .isDirectory
  | some last =>
    let parent ← files.placeBefore path last
    if last.isDots || last.slashed then throw .isDirectory
    let target ← files.step parent last.name
    match files.node? target with
    | some .directory => throw .isDirectory
    | _ => return files.put target (.file bytes)

/-- The files with a new directory, which has to stand in another. -/
def makeDirectory (files : Files) (path : String) : Except FileError Files := do
  accept path
  match Path.lastName? path with
  | none => throw .alreadyExists
  | some last =>
    let parent ← files.placeBefore path last
    if last.isDots then throw .alreadyExists
    let target ← files.step parent last.name
    match files.node? target with
    | some _ => throw .alreadyExists
    | none => return files.put target .directory

/-- Whether a path leads to a directory. -/
def isDirectory (files : Files) (path : String) : Bool :=
  match files.place path with
  | .ok place => files.node? place = some .directory
  | .error _ => false

/-- Runs a change of files that may fail. -/
def update (change : Files → Except FileError Files) : StateM Files (Except FileError Unit) :=
  fun files ↦
    match change files with
    | .ok files => (.ok (), files)
    | .error e => (.error e, files)

/-- Files answer what a program may ask of files. -/
instance : FileAccess (StateM Files) where
  readBytes path := return (← get).read path
  writeBytes path bytes := update (·.write path bytes)
  makeDirectory path := update (·.makeDirectory path)
  isDirectory path := return (← get).isDirectory path

/-- The files of a working directory without directories in it. -/
def ofList (named : List (String × List UInt8)) : Files :=
  ⟨named.map fun (name, bytes) ↦ ([name], .file bytes)⟩

/-- What stands in a place after it has been put there. -/
theorem node?_put (files : Files) {place : List String} (h : isGiven place = false)
    (node : FileNode) : (files.put place node).node? place = some node := by
  simp [put, node?, h]

end Files

end KanaKanji
