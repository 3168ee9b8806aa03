import KanaKanji.EngineError
import KanaKanji.Lexicon.Search

/-!
# Data files

A data file holds a data set with the default magic. Its size, checksum and directory are verified
when it is opened, so that every view of it reads trusted bytes; whether it has a lexicon is only
found out when the lexicon is asked for.

Main statement: `bytes_ofBytes` (a data file is opened as it is).
-/

set_option autoImplicit false

namespace KanaKanji

/-- A verified data set. -/
structure DataFile where
  blob : DataSet.Blob
  deriving DecidableEq, Repr

namespace DataFile

/-- The data file with these bytes. -/
def ofBytes (bytes : List UInt8) : Except EngineError DataFile :=
  match DataSet.Blob.ofBytes bytes DataSet.defaultMagic with
  | .ok blob => .ok ⟨blob⟩
  | .error e => .error (.dataSet e)

/-- Opens the data file with a name. A directory can be opened but not mapped into memory. -/
def openFile {m : Type → Type} [Monad m] [FileAccess m] (path : String) :
    m (Except EngineError DataFile) := do
  match ← FileAccess.readBytes path with
  | .ok bytes => return ofBytes bytes
  | .error .isDirectory => return .error (.file .notMappable)
  | .error e => return .error (.file e)

/-- The bytes of a data file. -/
def bytes (file : DataFile) : List UInt8 := file.blob.bytes

/-- The number of bytes of a data file. -/
def size (file : DataFile) : Nat := file.bytes.length

/-- The directory of a data file. -/
def entries (file : DataFile) : List DataSet.Entry := file.blob.entries

/-- The lexicon in a data file. -/
def lexicon (file : DataFile) : Except EngineError Lexicon :=
  match Lexicon.ofBlob file.blob with
  | .ok lexicon => .ok lexicon
  | .error e => .error (.lexicon e)

/-- A data file in memory as it stands in messages. -/
def describe (file : DataFile) : String :=
  s!"DataFile \x7b len: {file.size}, mapped: false \x7d"

/-- A data file has the bytes that it was opened with. -/
theorem bytes_ofBytes {bytes : List UInt8} {file : DataFile} (h : ofBytes bytes = .ok file) :
    file.bytes = bytes := by
  unfold ofBytes at h
  split at h
  · next hblob => exact Except.ok.inj h ▸ DataSet.Blob.bytes_ofBytes hblob
  · cases h

end DataFile

end KanaKanji
