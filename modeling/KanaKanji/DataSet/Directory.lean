import KanaKanji.Bytes.LittleEndian
import KanaKanji.Text.Hex
import KanaKanji.Text.Utf8

/-!
# Directories of data sets

A data set keeps several named regions of bytes in one blob. Its directory lists for each region the
name, the offset from the start of the blob and the size. Written out, a directory is the number of
entries and then for each entry the length of its name, the name, the offset and the size; all
numbers take eight bytes. Bytes after the last entry are of no account.
-/

set_option autoImplicit false

namespace KanaKanji.DataSet

/-- Why a region is refused or a blob cannot be read. -/
inductive Error
  | invalidMagic
  | truncated
  | sizeMismatch (expected actual : Nat)
  | checksumMismatch (stored computed : Nat)
  | duplicateName (name : String)
  | invalidAlignment (bits : Nat)
  | entryOutOfBounds (name : String)
  | malformedDirectory
  | missingRegion (name : String)
  deriving DecidableEq, Repr

/-- The message for a refused region or a blob that cannot be read. -/
def Error.message : Error → String
  | .invalidMagic => "invalid magic bytes"
  | .truncated => "data set is truncated"
  | .sizeMismatch expected actual => s!"size field says {expected} bytes, blob has {actual}"
  | .checksumMismatch stored computed =>
    let stored := Hex.paddedNumeral 8 stored
    let computed := Hex.paddedNumeral 8 computed
    s!"checksum mismatch (stored {stored}, computed {computed})"
  | .duplicateName name => s!"duplicate region name: {name}"
  | .invalidAlignment bits => s!"invalid alignment: {bits} bits (expected 8, 16, 32 or 64)"
  | .entryOutOfBounds name => s!"region {name} lies outside the data area"
  | .malformedDirectory => "deserialization error: malformed directory"
  | .missingRegion name => s!"missing region: {name}"

/-- The place of a region in a blob. -/
structure Entry where
  name : String
  offset : Nat
  size : Nat
  deriving DecidableEq, Repr, Inhabited

/-- The first entry for a name. -/
def entryNamed? (entries : List Entry) (name : String) : Option Entry :=
  entries.find? (·.name == name)

/-! ### The written form -/

/-- A number of the directory. -/
def encodeNumber (n : Nat) : List UInt8 := LittleEndian.encode 8 n

/-- The written form of an entry. -/
def Entry.encode (e : Entry) : List UInt8 :=
  let name := Utf8.encode e.name
  encodeNumber name.length ++ name ++ encodeNumber e.offset ++ encodeNumber e.size

/-- The written form of a directory. -/
def encodeDirectory (entries : List Entry) : List UInt8 :=
  encodeNumber entries.length ++ entries.flatMap Entry.encode

/-- An entry off the front of the bytes, and the bytes after it. -/
def Entry.take? (bytes : List UInt8) : Option (Entry × List UInt8) := do
  let (length, rest) ← LittleEndian.take? 8 bytes
  let (name, rest) ← LittleEndian.splitAt? length rest
  let name ← Utf8.decode? name
  let (offset, rest) ← LittleEndian.take? 8 rest
  let (size, rest) ← LittleEndian.take? 8 rest
  return (⟨name, offset, size⟩, rest)

/-- So many entries off the front of the bytes. -/
def takeEntries? : Nat → List UInt8 → Option (List Entry)
  | 0, _ => some []
  | count + 1, bytes => do
    let (entry, rest) ← Entry.take? bytes
    let entries ← takeEntries? count rest
    return entry :: entries

/-- The directory that the bytes begin with. -/
def decodeDirectory? (bytes : List UInt8) : Option (List Entry) := do
  let (count, rest) ← LittleEndian.take? 8 bytes
  takeEntries? count rest

end KanaKanji.DataSet
