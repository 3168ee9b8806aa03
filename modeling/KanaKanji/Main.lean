import KanaKanji.Tool.Run

/-!
# The dictionary tool as a program

Runs a command line on the files of the machine.
-/

set_option autoImplicit false

namespace KanaKanji

/-- Why the machine refuses to read or write a file. -/
def fileError : IO.Error → FileError
  | .noFileOrDirectory .. => .notFound
  | .alreadyExists .. => .alreadyExists
  | .inappropriateType _ code _ => if code = 20 then .notDirectory else .isDirectory
  | .invalidArgument _ 36 _ => .nameTooLong
  | e => .other (toString e)

/-- The answer of the machine, or why it refuses. -/
def answered {α : Type} (action : IO α) : IO (Except FileError α) := do
  try
    return .ok (← action)
  catch e => return .error (fileError e)

/-- The files of the machine answer what a program may ask of files. -/
instance : FileAccess IO where
  readBytes path := answered do return (← IO.FS.readBinFile path).toList
  writeBytes path bytes := answered (IO.FS.writeBinFile path bytes.toByteArray)
  makeDirectory path := answered (IO.FS.createDir path)
  isDirectory path := do
    match ← answered (IO.FS.withFile path .read fun file ↦ file.read 1) with
    | .error .isDirectory => return true
    | _ => return false

end KanaKanji

open KanaKanji in
/-- Runs the command line that the program was started with. -/
def main (args : List String) : IO UInt32 := do
  let outcome ← Tool.run args
  (← IO.getStderr).putStr outcome.messages
  (← IO.getStdout).putStr outcome.output
  return UInt32.ofNat outcome.code
