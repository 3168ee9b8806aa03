import KanaKanji.DataSet.Draft

/-!
# Reading data sets

A blob is read from its end: the total size, the checksum of all bytes before it, the size of the
directory, the directory. `verify` checks the first two. `Blob.open` accepts a blob that passes,
starts with the expected magic and has all its regions between the magic and the directory; a region
is then found by its name.
-/

set_option autoImplicit false

namespace KanaKanji.DataSet

/-- Checks the size and the checksum that stand at the end of a blob. -/
def verify (bytes : List UInt8) : Except Error Unit :=
  let size := bytes.length
  if size < tailLength then .error .truncated
  else
    let sizeAt := size - sizeFieldLength
    let checksumAt := sizeAt - checksumLength
    let expected := LittleEndian.decode (bytes.drop sizeAt)
    let stored := LittleEndian.decode ((bytes.drop checksumAt).take checksumLength)
    let computed := (Crc32.checksum (bytes.take checksumAt)).toNat
    if expected ≠ size then .error (.sizeMismatch expected size)
    else if stored ≠ computed then .error (.checksumMismatch stored computed)
    else .ok ()

/-- An opened data set: its bytes and its directory. -/
structure Blob where
  bytes : List UInt8
  entries : List Entry
  deriving DecidableEq, Repr

namespace Blob

/-- Whether a region lies behind the magic and ends before the directory. -/
def inBounds (magicLength dataEnd : Nat) (e : Entry) : Bool :=
  magicLength ≤ e.offset && e.offset + e.size ≤ dataEnd

/-- The start of the directory in a blob that passed `verify`, and the directory. A directory that
would reach into the magic is refused. -/
def locateDirectory (bytes : List UInt8) (magicLength : Nat) :
    Except Error (Nat × List UInt8) :=
  let sizeAt := bytes.length - tailLength
  let size := LittleEndian.decode ((bytes.drop sizeAt).take sizeFieldLength)
  if size + magicLength ≤ sizeAt then
    .ok (sizeAt - size, (bytes.drop (sizeAt - size)).take size)
  else .error .truncated

/-- The data set in the bytes, with the magic that it has to start with. -/
def ofBytes (bytes magic : List UInt8) : Except Error Blob := do
  verify bytes
  let (dataEnd, directory) ← locateDirectory bytes magic.length
  if ¬ magic <+: bytes then throw .invalidMagic
  match decodeDirectory? directory with
  | none => throw .malformedDirectory
  | some entries =>
    match entries.find? fun e ↦ !inBounds magic.length dataEnd e with
    | some e => throw (.entryOutOfBounds e.name)
    | none => return ⟨bytes, entries⟩

/-- A data set has the bytes that it was opened with. -/
theorem bytes_ofBytes {bytes magic : List UInt8} {blob : Blob}
    (h : ofBytes bytes magic = .ok blob) : blob.bytes = bytes := by
  simp only [ofBytes, bind, Except.bind, pure, Except.pure, throw, throwThe,
    MonadExceptOf.throw] at h
  repeat' split at h
  all_goals cases h
  rfl

/-- The bytes of the first region of a name. -/
def get? (blob : Blob) (name : String) : Option (List UInt8) :=
  (entryNamed? blob.entries name).map fun e ↦ (blob.bytes.drop e.offset).take e.size

/-- The bytes of the first region of a name, which has to exist. -/
def require (blob : Blob) (name : String) : Except Error (List UInt8) :=
  match blob.get? name with
  | some data => .ok data
  | none => .error (.missingRegion name)

end Blob

end KanaKanji.DataSet
