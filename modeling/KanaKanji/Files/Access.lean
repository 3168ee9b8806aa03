import KanaKanji.Files.Path
import KanaKanji.Text.Utf8

/-!
# Access to files

What a program may ask of files: the bytes of a file, a file with given bytes in the place of the
one with its name, a new directory, and whether a path leads to a directory. Programs are written
for every monad that answers these questions, so that they run on real files as well as on a value
of the type `Files`.
-/

set_option autoImplicit false

namespace KanaKanji

/-- Why a file cannot be read or written. -/
inductive FileError
  | notFound
  | alreadyExists
  | notMappable
  | notDirectory
  | isDirectory
  | nameTooLong
  | notText
  | other (description : String)
  deriving DecidableEq, Repr

/-- The message for a file that cannot be read or written. -/
def FileError.message : FileError → String
  | .notFound => "No such file or directory (os error 2)"
  | .alreadyExists => "File exists (os error 17)"
  | .notMappable => "No such device (os error 19)"
  | .notDirectory => "Not a directory (os error 20)"
  | .isDirectory => "Is a directory (os error 21)"
  | .nameTooLong => "File name too long (os error 36)"
  | .notText => "stream did not contain valid UTF-8"
  | .other description => description

/-- Answers what a program may ask of files. -/
class FileAccess (m : Type → Type) where
  readBytes : String → m (Except FileError (List UInt8))
  writeBytes : String → List UInt8 → m (Except FileError Unit)
  makeDirectory : String → m (Except FileError Unit)
  isDirectory : String → m Bool

namespace FileAccess

variable {m : Type → Type} [Monad m] [FileAccess m]

/-- The text of a file. -/
def readText (path : String) : m (Except FileError String) := do
  match ← readBytes path with
  | .error e => return .error e
  | .ok bytes =>
    match Utf8.decode? bytes with
    | some text => return .ok text
    | none => return .error .notText

/-- Makes a directory unless there is one. -/
def ensureDirectory (path : String) : m (Except FileError Unit) := do
  match ← makeDirectory path with
  | .error .alreadyExists => return if ← isDirectory path then .ok () else .error .alreadyExists
  | answer => return answer

/-- Makes the first of some directories. If there is none to make it in, the others are made before,
each in the next one. -/
def ensureNested : List String → m (Except FileError Unit)
  | [] => return .ok ()
  | path :: outer => do
    match ← ensureDirectory path with
    | .error .notFound =>
      match ← ensureNested outer with
      | .ok () => ensureDirectory path
      | refused => return refused
    | answer => return answer

/-- Makes a directory and all directories on the way to it. Those that have been made stay, also if
one further on is refused. -/
def makeDirectories (path : String) : m (Except FileError Unit) :=
  if (Path.lastName? path).isSome then ensureNested (Path.ancestors path) else return .ok ()

end FileAccess

end KanaKanji
